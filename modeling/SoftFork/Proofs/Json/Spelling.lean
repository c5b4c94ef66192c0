import SoftFork.Json.Text
import SoftFork.Proofs.Text.Typed

/-!
# Written tokens are read back

A token that has been written is read as the same token, in whatever text it stands.  For the
marks of structure, the three words and strings this holds without a condition: they show
where they end.  A numeral does not, since another digit, a point or an exponent would carry
it on.  So what follows a numeral has to begin with something else (`EndsNumber`), and in a
written value it does, because every scalar in it is followed by a comma, a bracket or the end
of the text.

That fixes the shape of the main statement (`readBefore_tokens`).  It is about a value with
any text behind that does not carry on a number, and says that reading gives the tokens of the
value and then those of the text behind.

Two details of strings come first.  Escaping is undone character by character, each character
giving back its code; and the codes of characters never are surrogates, so that `denoted`
pairs none of them.
-/

namespace SoftFork

namespace Text

/-! ## Digits -/

theorem hexValue_hexDigit : ∀ n < 16, hexValue (hexDigit n) = some n := by
  decide

/-- No numeral of a positive number starts with a zero. -/
theorem head?_numeral_ne {n : Nat} (h : 0 < n) : (numeral n).head? ≠ some '0' := by
  induction n using Nat.strongRecOn with
  | ind n ih =>
    rcases Nat.lt_or_ge n 10 with hlt | hge
    · have hdigit : ∀ m < 10, 0 < m → some m.digitChar ≠ some '0' := by decide
      rw [numeral, Nat.toDigits_of_lt_base hlt]
      exact hdigit n hlt h
    · have hquotient : 0 < n / 10 := Nat.div_pos hge (by decide)
      have hfirst : (numeral (n / 10)).head? ≠ some '0' :=
        ih (n / 10) (Nat.div_lt_self h (by decide)) hquotient
      rw [numeral, Nat.toDigits_of_base_le (by decide) hge, List.head?_append]
      intro hzero
      rcases Option.or_eq_some_iff.mp hzero with hzero | ⟨hnone, -⟩
      · exact hfirst hzero
      · exact absurd (List.head?_eq_none_iff.mp hnone) Nat.toDigits_ne_nil

end Text

namespace Json

/-! ## Strings -/

section String

variable (tail : List Char)

theorem stringBody_escape {e : Char} {n : Nat} (hu : e ≠ 'u') (hn : escapeCode e = some n) :
    stringBody ('\\' :: e :: tail) = (stringBody tail).map fun p => (n :: p.1, p.2) := by
  rw [stringBody, hn]
  · cases stringBody tail <;> rfl
  · rintro a b c d rest heq
    exact absurd heq hu

theorem stringBody_unit {a b c d : Char} {n : Nat} (hn : codeUnit a b c d = some n) :
    stringBody ('\\' :: 'u' :: a :: b :: c :: d :: tail) =
      (stringBody tail).map fun p => (n :: p.1, p.2) := by
  rw [stringBody, hn]
  cases stringBody tail <;> rfl

theorem stringBody_plain {c : Char} (hquote : c ≠ '"') (hslash : c ≠ '\\')
    (hcontrol : ¬ c.toNat < 0x20) :
    stringBody (c :: tail) = (stringBody tail).map fun p => (c.toNat :: p.1, p.2) := by
  rw [stringBody, if_neg hcontrol]
  · cases stringBody tail <;> rfl
  · exact hquote
  · rintro a b c d rest heq
    exact absurd heq hslash
  · rintro e rest heq
    exact absurd heq hslash

/-- The letter behind a backslash is read as the character that it stands for. -/
theorem escapeCode_shortEscape? {c e : Char} (h : shortEscape? c = some e) :
    e ≠ 'u' ∧ escapeCode e = some c.toNat := by
  unfold shortEscape? at h
  split at h
  all_goals first
    | (obtain rfl := Option.some.inj h; exact ⟨by decide, rfl⟩)
    | exact absurd h (by simp)

/-- The three ways in which a character may stand in a string: behind a backslash, by its
number, or for itself. -/
theorem escaped_cases (c : Char) :
    (∃ e, e ≠ 'u' ∧ escapeCode e = some c.toNat ∧ escaped c = ['\\', e]) ∨
      (c.toNat < 0x20 ∧ escaped c =
        ['\\', 'u', '0', '0', Text.hexDigit (c.toNat / 16), Text.hexDigit (c.toNat % 16)]) ∨
      (c ≠ '"' ∧ c ≠ '\\' ∧ ¬ c.toNat < 0x20 ∧ escaped c = [c]) := by
  rw [escaped]
  cases hshort : shortEscape? c with
  | some e =>
    obtain ⟨hu, hcode⟩ := escapeCode_shortEscape? hshort
    exact Or.inl ⟨e, hu, hcode, rfl⟩
  | none =>
    refine Or.inr ?_
    dsimp only
    split
    · next hcontrol => exact Or.inl ⟨hcontrol, rfl⟩
    · next hplain =>
      refine Or.inr ⟨?_, ?_, hplain, rfl⟩
      · rintro rfl
        exact absurd hshort (by decide)
      · rintro rfl
        exact absurd hshort (by decide)

/-- The code of a control character is the number in its escape. -/
theorem codeUnit_control {n : Nat} (h : n < 0x20) :
    codeUnit '0' '0' (Text.hexDigit (n / 16)) (Text.hexDigit (n % 16)) = some n := by
  have hzero : Text.hexValue '0' = some 0 := by decide
  have hvalue : ((16 * 0 + 0) * 16 + n / 16) * 16 + n % 16 = n := by omega
  rw [codeUnit, hzero, Text.hexValue_hexDigit _ (by omega), Text.hexValue_hexDigit _ (by omega)]
  exact congrArg some hvalue

/-- An escaped character gives back its code. -/
theorem stringBody_escaped (c : Char) :
    stringBody (escaped c ++ tail) = (stringBody tail).map fun p => (c.toNat :: p.1, p.2) := by
  rcases escaped_cases c with ⟨e, hu, hcode, heq⟩ | ⟨hcontrol, heq⟩ | ⟨hquote, hslash, hplain, heq⟩
  · rw [heq]
    exact stringBody_escape tail hu hcode
  · rw [heq]
    exact stringBody_unit tail (codeUnit_control hcontrol)
  · rw [heq]
    exact stringBody_plain tail hquote hslash hplain

/-- Between its quotes a string is read up to the quote that closes it. -/
theorem stringBody_flatMap_escaped (s : List Char) :
    stringBody (s.flatMap escaped ++ '"' :: tail) = some (s.map Char.toNat, tail) := by
  induction s with
  | nil => rw [List.flatMap_nil, List.nil_append, stringBody, List.map_nil]
  | cons c s ih =>
    rw [List.flatMap_cons, List.append_assoc, stringBody_escaped, ih]
    rfl

end String

/-- The code of a character is no surrogate. -/
theorem not_surrogate (c : Char) :
    isHighSurrogate c.toNat = false ∧ isLowSurrogate c.toNat = false := by
  have hvalid : c.toNat < 0xD800 ∨ 0xDFFF < c.toNat ∧ c.toNat < 0x110000 := c.valid
  simp only [isHighSurrogate, isLowSurrogate, Bool.and_eq_false_iff, decide_eq_false_iff_not]
  omega

/-- The codes of characters denote the characters. -/
theorem denoted_map_toNat (s : List Char) : denoted (s.map Char.toNat) = some s := by
  induction s with
  | nil => rfl
  | cons c s ih =>
    obtain ⟨hhigh, hlow⟩ := not_surrogate c
    cases s with
    | nil =>
      rw [List.map_cons, List.map_nil, denoted, hhigh, hlow, Char.ofNat_toNat]
      rfl
    | cons d s =>
      rw [List.map_cons] at ih
      rw [List.map_cons, List.map_cons, denoted, hhigh, hlow, ih, Char.ofNat_toNat]
      rfl

/-! ## Numbers -/

/-- The text does not carry on a number before it. -/
def EndsNumber (rest : List Char) : Prop :=
  ∀ c ∈ rest.head?, Text.isDigit c = false ∧ c ≠ '.' ∧ c ≠ 'e' ∧ c ≠ 'E'

theorem endsNumber_nil : EndsNumber [] := by
  intro c hc
  exact absurd hc (by simp)

theorem endsNumber_cons {c : Char} (rest : List Char)
    (h : Text.isDigit c = false ∧ c ≠ '.' ∧ c ≠ 'e' ∧ c ≠ 'E') : EndsNumber (c :: rest) := by
  intro d hd
  obtain rfl : c = d := Option.some.inj hd
  exact h

variable {rest : List Char}

theorem EndsNumber.takeWhile_digits (h : EndsNumber rest) {digits : List Char}
    (hdigits : ∀ c ∈ digits, Text.isDigit c = true) :
    (digits ++ rest).takeWhile Text.isDigit = digits := by
  rw [List.takeWhile_append_of_pos hdigits]
  cases rest with
  | nil => rw [List.takeWhile_nil, List.append_nil]
  | cons c rest =>
    rw [List.takeWhile_cons_of_neg (by simp [(h c rfl).1]), List.append_nil]

theorem EndsNumber.dropWhile_digits (h : EndsNumber rest) {digits : List Char}
    (hdigits : ∀ c ∈ digits, Text.isDigit c = true) :
    (digits ++ rest).dropWhile Text.isDigit = rest := by
  rw [List.dropWhile_append_of_pos hdigits]
  cases rest with
  | nil => rfl
  | cons c rest => rw [List.dropWhile_cons_of_neg (by simp [(h c rfl).1])]

theorem EndsNumber.fractionPart (h : EndsNumber rest) :
    fractionPart rest = some (false, rest) := by
  cases rest with
  | nil => rfl
  | cons c rest =>
    rw [Json.fractionPart]
    intro tail heq
    exact absurd (List.cons.inj heq).1 (h c rfl).2.1

theorem EndsNumber.exponentPart (h : EndsNumber rest) :
    exponentPart rest = some (false, rest) := by
  cases rest with
  | nil => rfl
  | cons c rest =>
    obtain ⟨-, -, he, hE⟩ := h c rfl
    rw [Json.exponentPart, if_neg (by simp [he, hE])]

/-- A numeral is read as a number without point and exponent. -/
theorem unsignedNumber_numeral (negative : Bool) (n : Nat) (h : EndsNumber rest) :
    unsignedNumber negative (Text.numeral n ++ rest) =
      some (numberValue negative true (Text.numeral n), rest) := by
  have hdigits : ∀ c ∈ Text.numeral n, Text.isDigit c = true := (Text.decimal_numeral n).digits
  have hstart : ((Text.numeral n).isEmpty ||
      ((Text.numeral n).head? == some '0' && (Text.numeral n).length != 1)) = false := by
    have hne : (Text.numeral n).isEmpty = false :=
      List.isEmpty_eq_false_iff.mpr (Text.decimal_numeral n).ne_nil
    rw [hne, Bool.false_or]
    rcases Nat.eq_zero_or_pos n with rfl | hpos
    · rfl
    · rw [beq_false_of_ne (Text.head?_numeral_ne hpos), Bool.false_and]
  rw [unsignedNumber, h.takeWhile_digits hdigits, h.dropWhile_digits hdigits]
  simp only [hstart, Bool.false_eq_true, if_false, h.fractionPart, h.exponentPart,
    Option.bind_eq_bind, Option.bind_some]
  rfl

theorem number_of_ne_minus {c : Char} (h : c ≠ '-') (s : List Char) :
    number (c :: s) = unsignedNumber false (c :: s) := by
  rw [number]
  intro tail heq
  exact absurd (List.cons.inj heq).1 h

/-- A numeral begins with a digit. -/
theorem exists_numeral_eq_cons (n : Nat) :
    ∃ c s, Text.numeral n = c :: s ∧ Text.isDigit c = true := by
  obtain ⟨c, s, heq⟩ := List.exists_cons_of_ne_nil (Text.decimal_numeral n).ne_nil
  exact ⟨c, s, heq, (Text.decimal_numeral n).digits c (heq ▸ List.mem_cons_self)⟩

theorem ne_minus_of_isDigit {c : Char} (h : Text.isDigit c = true) : c ≠ '-' := by
  rintro rfl
  exact absurd h (by decide)

/-- A written integer is read as the integer. -/
theorem number_integerText (n : Int) (h : EndsNumber rest) :
    number (integerText n ++ rest) = some (.integer n, rest) := by
  cases n with
  | ofNat n =>
    obtain ⟨c, s, heq, hdigit⟩ := exists_numeral_eq_cons n
    have hnumber : number (Text.numeral n ++ rest) =
        unsignedNumber false (Text.numeral n ++ rest) := by
      rw [heq, List.cons_append, number_of_ne_minus (ne_minus_of_isDigit hdigit)]
    rw [integerText, hnumber, unsignedNumber_numeral false n h, numberValue,
      (Text.decimal_numeral _).value]
    rfl
  | negSucc n =>
    rw [integerText, List.cons_append, number, unsignedNumber_numeral true (n + 1) h,
      numberValue, (Text.decimal_numeral _).value]
    rfl

/-- The one number without integer value that is written. -/
theorem number_half (h : EndsNumber rest) :
    number ('0' :: '.' :: '5' :: rest) = some (.fraction, rest) := by
  have hdigits : ∀ c ∈ ['5'], Text.isDigit c = true := by
    intro c hc
    rw [List.mem_singleton.mp hc]
    rfl
  have htake : ('5' :: rest).takeWhile Text.isDigit = ['5'] := h.takeWhile_digits hdigits
  have hdrop : ('5' :: rest).dropWhile Text.isDigit = rest := h.dropWhile_digits hdigits
  have hfraction : fractionPart ('.' :: '5' :: rest) = some (true, rest) := by
    rw [Json.fractionPart, htake, hdrop]
    rfl
  have hwhole : ('0' :: '.' :: '5' :: rest).takeWhile Text.isDigit = ['0'] := rfl
  have hpoint : ('0' :: '.' :: '5' :: rest).dropWhile Text.isDigit = '.' :: '5' :: rest := rfl
  have hstart : (['0'].isEmpty || (['0'].head? == some '0' && ['0'].length != 1)) = false := by
    decide
  rw [number_of_ne_minus (by decide), unsignedNumber, hwhole, hpoint]
  simp only [hstart, Bool.false_eq_true, if_false, hfraction, h.exponentPart,
    Option.bind_eq_bind, Option.bind_some]
  rfl

/-! ## Tokens -/

/-- A mark of structure. -/
def Token.IsMark : Token → Prop
  | .scalar _ => False
  | _ => True

/-- A value that is one token. -/
def IsScalar : Json → Prop
  | .array _ => False
  | .object _ => False
  | _ => True

theorem ofText_cons {c : Char} {s : List Char} {t : Token} (hspace : isSpace c = false)
    (h : tokenAt c s = some (t, rest)) :
    Token.ofText (c :: s) = (Token.ofText rest).map (t :: ·) := by
  rw [Token.ofText, hspace]
  simp only [Bool.false_eq_true, if_false]
  split
  · next hnone => exact absurd (h.symm.trans hnone) (by simp)
  · next t' rest' hsome =>
    obtain ⟨rfl, rfl⟩ := Prod.mk.inj (Option.some.inj (h.symm.trans hsome))
    rfl

/-- A mark is read, whatever comes next. -/
theorem ofText_mark {t : Token} (h : t.IsMark) (rest : List Char) :
    Token.ofText (t.spell ++ rest) = (Token.ofText rest).map (t :: ·) := by
  cases t with
  | scalar v => exact absurd h id
  | openArray => exact ofText_cons (by decide) rfl
  | closeArray => exact ofText_cons (by decide) rfl
  | openObject => exact ofText_cons (by decide) rfl
  | closeObject => exact ofText_cons (by decide) rfl
  | comma => exact ofText_cons (by decide) rfl
  | colon => exact ofText_cons (by decide) rfl

/-- How a number starts, no other token does. -/
theorem ne_of_number {c d : Char} (h : c = '-' ∨ Text.isDigit c = true) (hminus : d ≠ '-')
    (hdigit : Text.isDigit d = false) : c ≠ d := by
  rintro rfl
  rcases h with rfl | h
  · exact hminus rfl
  · exact absurd (h.symm.trans hdigit) (by decide)

theorem isSpace_of_number {c : Char} (h : c = '-' ∨ Text.isDigit c = true) :
    isSpace c = false := by
  have hother : ∀ d : Char, d ≠ '-' → Text.isDigit d = false → (c == d) = false :=
    fun d hminus hdigit => beq_false_of_ne (ne_of_number h hminus hdigit)
  rw [isSpace, hother ' ' (by decide) (by decide), hother '\t' (by decide) (by decide),
    hother '\n' (by decide) (by decide), hother '\r' (by decide) (by decide)]
  rfl

/-- Where a number starts, a number is read. -/
theorem tokenAt_of_number {c : Char} (h : c = '-' ∨ Text.isDigit c = true) (s : List Char) :
    tokenAt c s = (number (c :: s)).map fun p => (.scalar p.1, p.2) := by
  rw [tokenAt]
  all_goals exact ne_of_number h (by decide) (by decide)

/-- A written integer begins with its sign or with a digit. -/
theorem exists_integerText_eq_cons (n : Int) :
    ∃ c s, integerText n = c :: s ∧ (c = '-' ∨ Text.isDigit c = true) := by
  cases n with
  | ofNat n =>
    obtain ⟨c, s, heq, hdigit⟩ := exists_numeral_eq_cons n
    exact ⟨c, s, heq, Or.inr hdigit⟩
  | negSucc n => exact ⟨'-', Text.numeral (n + 1), rfl, Or.inl rfl⟩

/-- A string is read up to the quote that closes it, and denotes what it was. -/
theorem ofText_quoted (t : Option String) (rest : List Char) :
    Token.ofText (quoted t ++ rest) = (Token.ofText rest).map (.scalar (.string t) :: ·) := by
  cases t with
  | none => exact ofText_cons (by decide) rfl
  | some s =>
    rw [quoted, List.cons_append, List.append_assoc, List.singleton_append]
    refine ofText_cons (by decide) ?_
    rw [tokenAt, stringBody_flatMap_escaped]
    simp only [Option.map_some, denoted_map_toNat, String.ofList_toList]

/-- A scalar is read, where nothing carries it on. -/
theorem ofText_scalar {v : Json} (hv : v.IsScalar) (h : EndsNumber rest) :
    Token.ofText (scalarText v ++ rest) = (Token.ofText rest).map (.scalar v :: ·) := by
  cases v with
  | null => exact ofText_cons (by decide) rfl
  | bool b =>
    cases b with
    | false => exact ofText_cons (by decide) rfl
    | true => exact ofText_cons (by decide) rfl
  | integer n =>
    obtain ⟨c, s, heq, hc⟩ := exists_integerText_eq_cons n
    have hnumber := number_integerText n h
    rw [heq, List.cons_append] at hnumber
    rw [scalarText, heq, List.cons_append]
    refine ofText_cons (isSpace_of_number hc) ?_
    rw [tokenAt_of_number hc, hnumber]
    rfl
  | fraction =>
    refine ofText_cons (by decide) ?_
    rw [tokenAt_of_number (Or.inr (by decide))]
    exact congrArg (Option.map _) (number_half h)
  | string t => exact ofText_quoted t rest
  | array items => exact absurd hv id
  | object fields => exact absurd hv id

/-! ## Whole values -/

/-- Written before this text, the tokens are read back, and then those of the text. -/
def ReadBefore (rest : List Char) (ts : List Token) : Prop :=
  Token.ofText (ts.flatMap Token.spell ++ rest) = (Token.ofText rest).map (ts ++ ·)

namespace ReadBefore

variable {ts : List Token}

theorem nil (rest : List Char) : ReadBefore rest [] :=
  Option.map_id'.symm

theorem cons {t : Token} (h : ReadBefore rest ts)
    (ht : ∀ behind, behind = ts.flatMap Token.spell ++ rest →
      Token.ofText (t.spell ++ behind) = (Token.ofText behind).map (t :: ·)) :
    ReadBefore rest (t :: ts) := by
  rw [ReadBefore, List.flatMap_cons, List.append_assoc, ht _ rfl, show Token.ofText _ = _ from h,
    Option.map_map]
  rfl

theorem mark (h : ReadBefore rest ts) (t : Token) (ht : t.IsMark) : ReadBefore rest (t :: ts) :=
  h.cons fun behind _ => ofText_mark ht behind

theorem string (h : ReadBefore rest ts) (t : Option String) :
    ReadBefore rest (.scalar (.string t) :: ts) :=
  h.cons fun behind _ => ofText_quoted t behind

theorem scalar {v : Json} (hv : v.IsScalar) (h : EndsNumber rest) :
    ReadBefore rest [.scalar v] :=
  (nil rest).cons fun _ hbehind => ofText_scalar hv (hbehind ▸ h)

theorem append {ts' : List Token} (h : ReadBefore (ts'.flatMap Token.spell ++ rest) ts)
    (h' : ReadBefore rest ts') : ReadBefore rest (ts ++ ts') := by
  have hassoc : ((ts ++ ·) ∘ (ts' ++ ·) : List Token → List Token) = ((ts ++ ts') ++ ·) :=
    funext fun more => (List.append_assoc ts ts' more).symm
  rw [ReadBefore, List.flatMap_append, List.append_assoc, show Token.ofText _ = _ from h,
    show Token.ofText _ = _ from h', Option.map_map, hassoc]

end ReadBefore

theorem tokens_of_isScalar {v : Json} (hv : v.IsScalar) : tokens v = [.scalar v] := by
  cases v with
  | array items => exact absurd hv id
  | object fields => exact absurd hv id
  | _ => rw [tokens] <;> simp

theorem endsNumber_moreItems (vs : List Json) (rest : List Char) :
    EndsNumber ((moreItems vs).flatMap Token.spell ++ rest) := by
  cases vs with
  | nil => exact endsNumber_cons _ (by decide)
  | cons v vs => exact endsNumber_cons _ (by decide)

theorem endsNumber_moreFields (fs : List (Option String × Json)) (rest : List Char) :
    EndsNumber ((moreFields fs).flatMap Token.spell ++ rest) := by
  cases fs with
  | nil => exact endsNumber_cons _ (by decide)
  | cons f fs => exact endsNumber_cons _ (by decide)

theorem readBefore_of_isScalar {v : Json} (hv : v.IsScalar) (h : EndsNumber rest) :
    ReadBefore rest (tokens v) := by
  rw [tokens_of_isScalar hv]
  exact .scalar hv h

-- The three follow the writer: a value, the rest of an array, the rest of an object.
mutual

/-- A value that has been written is read as its tokens, with any text behind it that does
not carry on a number. -/
theorem readBefore_tokens : ∀ (v : Json) {rest : List Char}, EndsNumber rest →
    ReadBefore rest (tokens v)
  | .array [], rest, _ => by
    rw [tokens]
    exact ((ReadBefore.nil rest).mark .closeArray trivial).mark .openArray trivial
  | .array (v :: vs), rest, _ => by
    rw [tokens]
    have hitem := readBefore_tokens v (endsNumber_moreItems vs rest)
    exact (hitem.append (readBefore_moreItems vs rest)).mark .openArray trivial
  | .object [], rest, _ => by
    rw [tokens]
    exact ((ReadBefore.nil rest).mark .closeObject trivial).mark .openObject trivial
  | .object ((k, v) :: fs), rest, _ => by
    rw [tokens]
    have hfield := readBefore_tokens v (endsNumber_moreFields fs rest)
    have hcolon := (hfield.append (readBefore_moreFields fs rest)).mark .colon trivial
    exact (hcolon.string k).mark .openObject trivial
  | .null, _, h => readBefore_of_isScalar trivial h
  | .bool _, _, h => readBefore_of_isScalar trivial h
  | .integer _, _, h => readBefore_of_isScalar trivial h
  | .fraction, _, h => readBefore_of_isScalar trivial h
  | .string _, _, h => readBefore_of_isScalar trivial h

/-- The rest of an array shows where it ends. -/
theorem readBefore_moreItems : ∀ (vs : List Json) (rest : List Char),
    ReadBefore rest (moreItems vs)
  | [], rest => by
    rw [moreItems]
    exact (ReadBefore.nil rest).mark .closeArray trivial
  | v :: vs, rest => by
    rw [moreItems]
    have hitem := readBefore_tokens v (endsNumber_moreItems vs rest)
    exact (hitem.append (readBefore_moreItems vs rest)).mark .comma trivial

/-- The rest of an object shows where it ends. -/
theorem readBefore_moreFields : ∀ (fs : List (Option String × Json)) (rest : List Char),
    ReadBefore rest (moreFields fs)
  | [], rest => by
    rw [moreFields]
    exact (ReadBefore.nil rest).mark .closeObject trivial
  | (k, v) :: fs, rest => by
    rw [moreFields]
    have hfield := readBefore_tokens v (endsNumber_moreFields fs rest)
    have hcolon := (hfield.append (readBefore_moreFields fs rest)).mark .colon trivial
    exact (hcolon.string k).mark .comma trivial

end

/-- The tokens of a written value are those of the value. -/
theorem ofText_write (v : Json) : Token.ofText (write v) = some (tokens v) := by
  have hread := readBefore_tokens v endsNumber_nil
  rw [ReadBefore, List.append_nil] at hread
  rw [write, hread, Token.ofText, Option.map_some, List.append_nil]

end Json
end SoftFork
