import SoftFork.Json.Value
import SoftFork.Text.Hex
import SoftFork.Text.Numeral

/-!
# JSON tokens

JSON text is read in two steps, and the tokens are what lies between them: the
six marks of structure, and the scalars, already turned into values.  Blanks
separate tokens and vanish here, so the second step never sees one.

## Strings

A string body is read into code points, where an escape of four hexadecimal
digits contributes the code unit it names.  A character typed directly is never
a surrogate, so surrogates come from escapes alone, and `denoted` decides
afterwards whether they pair up.  Splitting the work like this keeps the body
reader a plain recursion on its text, and it reads a string without caring
whether anyone will want what the string denotes.

## Numbers

The grammar is the strict one: no plus sign, no leading zero, and digits on both
sides of a point.  A number without point and exponent is an integer, with one
exception: minus zero has a sign that no integer can carry, and is not one.

## Spelling

`Token.spell` writes one token, and `Token.ofText` reads a whole text.  Control
characters, the quote and the backslash are escaped; everything else stands for
itself.
-/

namespace SoftFork
namespace Json

/-- The parts that JSON text is made of. -/
inductive Token where
  | openArray
  | closeArray
  | openObject
  | closeObject
  | comma
  | colon
  | scalar (v : Json)

/-- The blanks that may separate tokens. -/
def isSpace (c : Char) : Bool :=
  c == ' ' || c == '\t' || c == '\n' || c == '\r'

/-! ## Strings -/

/-- The code unit that four hexadecimal digits name. -/
def codeUnit (a b c d : Char) : Option Nat := do
  let a ← Text.hexValue a
  let b ← Text.hexValue b
  let c ← Text.hexValue c
  let d ← Text.hexValue d
  return ((16 * a + b) * 16 + c) * 16 + d

/-- The code point that a one-letter escape names. -/
def escapeCode : Char → Option Nat
  | '"' => some 0x22
  | '\\' => some 0x5C
  | '/' => some 0x2F
  | 'b' => some 0x08
  | 'f' => some 0x0C
  | 'n' => some 0x0A
  | 'r' => some 0x0D
  | 't' => some 0x09
  | _ => none

/-- The codes of a string body up to its closing quote, and what follows it. -/
def stringBody : List Char → Option (List Nat × List Char)
  | [] => none
  | '"' :: rest => some ([], rest)
  | '\\' :: 'u' :: a :: b :: c :: d :: rest => do
    let n ← codeUnit a b c d
    let (codes, rest) ← stringBody rest
    return (n :: codes, rest)
  | '\\' :: e :: rest => do
    let n ← escapeCode e
    let (codes, rest) ← stringBody rest
    return (n :: codes, rest)
  | c :: rest =>
    if c.toNat < 0x20 then none
    else do
      let (codes, rest) ← stringBody rest
      return (c.toNat :: codes, rest)

/-- First half of a surrogate pair. -/
def isHighSurrogate (n : Nat) : Bool :=
  0xD800 ≤ n && n ≤ 0xDBFF

/-- Second half of a surrogate pair. -/
def isLowSurrogate (n : Nat) : Bool :=
  0xDC00 ≤ n && n ≤ 0xDFFF

/-- The characters that codes denote, if every surrogate has its partner. -/
def denoted : List Nat → Option (List Char)
  | [] => some []
  | [n] => if isHighSurrogate n || isLowSurrogate n then none else some [Char.ofNat n]
  | n :: m :: rest =>
    if isHighSurrogate n then
      if isLowSurrogate m then
        (denoted rest).map (Char.ofNat (0x10000 + (n - 0xD800) * 0x400 + (m - 0xDC00)) :: ·)
      else none
    else if isLowSurrogate n then none
    else (denoted (m :: rest)).map (Char.ofNat n :: ·)

/-! ## Numbers -/

/-- The fraction part, if one starts here: a point and at least one digit.  The
flag says whether there was one. -/
def fractionPart : List Char → Option (Bool × List Char)
  | '.' :: rest =>
    if (rest.takeWhile Text.isDigit).isEmpty then none
    else some (true, rest.dropWhile Text.isDigit)
  | rest => some (false, rest)

/-- Text without the sign an exponent may have. -/
def dropSign : List Char → List Char
  | '+' :: rest => rest
  | '-' :: rest => rest
  | rest => rest

/-- The exponent part, if one starts here: the letter, an optional sign and at
least one digit.  The flag says whether there was one. -/
def exponentPart : List Char → Option (Bool × List Char)
  | [] => some (false, [])
  | c :: rest =>
    if c == 'e' || c == 'E' then
      if ((dropSign rest).takeWhile Text.isDigit).isEmpty then none
      else some (true, (dropSign rest).dropWhile Text.isDigit)
    else some (false, c :: rest)

/-- The value of a number whose whole part has the given sign and digits. -/
def numberValue (negative exact : Bool) (whole : List Char) : Json :=
  let n := Text.digitsValue whole
  if !exact || (negative && n == 0) then .fraction
  else .integer (if negative then -(Int.ofNat n) else Int.ofNat n)

/-- A number without its sign: whole part, fraction and exponent. -/
def unsignedNumber (negative : Bool) (s : List Char) : Option (Json × List Char) :=
  let whole := s.takeWhile Text.isDigit
  if whole.isEmpty || (whole.head? == some '0' && whole.length != 1) then none
  else do
    let (hasFraction, rest) ← fractionPart (s.dropWhile Text.isDigit)
    let (hasExponent, rest) ← exponentPart rest
    return (numberValue negative (!hasFraction && !hasExponent) whole, rest)

/-- A number, and what follows it. -/
def number : List Char → Option (Json × List Char)
  | '-' :: rest => unsignedNumber true rest
  | rest => unsignedNumber false rest

/-! ## Tokens from text -/

/-- The rest of the text after a word that must stand here. -/
def afterWord (word s : List Char) : Option (List Char) :=
  if word.isPrefixOf s then some (s.drop word.length) else none

/-- The token that starts with the character `c`, and what follows it. -/
def tokenAt (c : Char) (rest : List Char) : Option (Token × List Char) :=
  match c with
  | '[' => some (.openArray, rest)
  | ']' => some (.closeArray, rest)
  | '{' => some (.openObject, rest)
  | '}' => some (.closeObject, rest)
  | ',' => some (.comma, rest)
  | ':' => some (.colon, rest)
  | '"' => (stringBody rest).map fun (codes, rest) =>
      (.scalar (.string ((denoted codes).map String.ofList)), rest)
  | 'n' => (afterWord ['u', 'l', 'l'] rest).map fun rest => (.scalar .null, rest)
  | 't' => (afterWord ['r', 'u', 'e'] rest).map fun rest => (.scalar (.bool true), rest)
  | 'f' => (afterWord ['a', 'l', 's', 'e'] rest).map fun rest => (.scalar (.bool false), rest)
  | c => (number (c :: rest)).map fun (v, rest) => (.scalar v, rest)

/-! ### Every token takes text away -/

theorem length_dropWhile_le (p : Char → Bool) (s : List Char) :
    (s.dropWhile p).length ≤ s.length := by
  induction s with
  | nil => exact Nat.le_refl _
  | cons c r ih =>
    rw [List.dropWhile_cons]
    split
    · exact Nat.le_succ_of_le ih
    · exact Nat.le_refl _

theorem length_stringBody {s : List Char} {codes : List Nat} {rest : List Char}
    (h : stringBody s = some (codes, rest)) : rest.length < s.length := by
  fun_induction stringBody s generalizing codes rest with
  | case1 => cases h
  | case2 r =>
    cases h
    exact Nat.lt_succ_self _
  | case3 a b c d r ih =>
    simp only [Option.bind_eq_bind, Option.bind_eq_some_iff, Prod.exists] at h
    obtain ⟨_, _, _, _, hr, h⟩ := h
    cases h
    have := ih hr
    simp only [List.length_cons]
    omega
  | case4 e r _ ih =>
    simp only [Option.bind_eq_bind, Option.bind_eq_some_iff, Prod.exists] at h
    obtain ⟨_, _, _, _, hr, h⟩ := h
    cases h
    have := ih hr
    simp only [List.length_cons]
    omega
  | case5 => cases h
  | case6 c r _ _ _ _ ih =>
    simp only [Option.bind_eq_bind, Option.bind_eq_some_iff, Prod.exists] at h
    obtain ⟨_, _, hr, h⟩ := h
    cases h
    have := ih hr
    simp only [List.length_cons]
    omega

theorem length_fractionPart {s : List Char} {b : Bool} {rest : List Char}
    (h : fractionPart s = some (b, rest)) : rest.length ≤ s.length := by
  unfold fractionPart at h
  split at h
  · split at h
    · cases h
    · cases h
      exact Nat.le_succ_of_le (length_dropWhile_le _ _)
  · cases h
    exact Nat.le_refl _

theorem length_dropSign_le (s : List Char) : (dropSign s).length ≤ s.length := by
  unfold dropSign
  split
  · exact Nat.le_succ _
  · exact Nat.le_succ _
  · exact Nat.le_refl _

theorem length_exponentPart {s : List Char} {b : Bool} {rest : List Char}
    (h : exponentPart s = some (b, rest)) : rest.length ≤ s.length := by
  unfold exponentPart at h
  split at h
  · cases h
    exact Nat.le_refl _
  · split at h
    · split at h
      · cases h
      · cases h
        exact Nat.le_succ_of_le (Nat.le_trans (length_dropWhile_le _ _) (length_dropSign_le _))
    · cases h
      exact Nat.le_refl _

theorem length_unsignedNumber {negative : Bool} {s : List Char} {v : Json} {rest : List Char}
    (h : unsignedNumber negative s = some (v, rest)) : rest.length < s.length := by
  unfold unsignedNumber at h
  simp only at h
  split at h
  · cases h
  · next hwhole =>
    simp only [Option.bind_eq_bind, Option.bind_eq_some_iff, Prod.exists] at h
    obtain ⟨_, _, hf, _, _, he, h⟩ := h
    cases h
    have hsplit : (s.takeWhile Text.isDigit).length + (s.dropWhile Text.isDigit).length
        = s.length := by
      rw [← List.length_append, List.takeWhile_append_dropWhile]
    have hpos : 0 < (s.takeWhile Text.isDigit).length := by
      rw [List.length_pos_iff]
      intro hnil
      simp [hnil] at hwhole
    have h1 := length_fractionPart hf
    have h2 := length_exponentPart he
    omega

theorem length_number {s : List Char} {v : Json} {rest : List Char}
    (h : number s = some (v, rest)) : rest.length < s.length := by
  unfold number at h
  split at h
  · exact Nat.lt_succ_of_lt (length_unsignedNumber h)
  · exact length_unsignedNumber h

theorem length_afterWord {word s rest : List Char} (h : afterWord word s = some rest) :
    rest.length ≤ s.length := by
  unfold afterWord at h
  split at h
  · cases h
    rw [List.length_drop]
    exact Nat.sub_le _ _
  · cases h

theorem length_tokenAt {c : Char} {s : List Char} {t : Token} {rest : List Char}
    (h : tokenAt c s = some (t, rest)) : rest.length ≤ s.length := by
  unfold tokenAt at h
  split at h
  case h_7 =>
    obtain ⟨⟨codes, r⟩, hr, heq⟩ := Option.map_eq_some_iff.mp h
    cases heq
    exact Nat.le_of_lt (length_stringBody hr)
  case h_8 =>
    obtain ⟨r, hr, heq⟩ := Option.map_eq_some_iff.mp h
    cases heq
    exact length_afterWord hr
  case h_9 =>
    obtain ⟨r, hr, heq⟩ := Option.map_eq_some_iff.mp h
    cases heq
    exact length_afterWord hr
  case h_10 =>
    obtain ⟨r, hr, heq⟩ := Option.map_eq_some_iff.mp h
    cases heq
    exact length_afterWord hr
  case h_11 =>
    obtain ⟨⟨v, r⟩, hr, heq⟩ := Option.map_eq_some_iff.mp h
    cases heq
    exact Nat.le_of_lt_succ (length_number hr)
  all_goals
    cases h
    exact Nat.le_refl _

/-- The tokens of a text, or nothing when some part of it is no token.  Each
token leaves less text than it found, which is why the reading ends. -/
def Token.ofText : List Char → Option (List Token)
  | [] => some []
  | c :: s =>
    if isSpace c then Token.ofText s
    else
      match h : tokenAt c s with
      | none => none
      | some (t, rest) =>
        have : rest.length ≤ s.length := length_tokenAt h
        (Token.ofText rest).map (t :: ·)
termination_by s => s.length

/-! ## Text from tokens -/

/-- The letter that stands for a character behind a backslash, for those that have one. -/
def shortEscape? : Char → Option Char
  | '"' => some '"'
  | '\\' => some '\\'
  | '\x08' => some 'b'
  | '\x0c' => some 'f'
  | '\n' => some 'n'
  | '\r' => some 'r'
  | '\t' => some 't'
  | _ => none

/-- The character as it stands inside a string's quotes. -/
def escaped (c : Char) : List Char :=
  match shortEscape? c with
  | some e => ['\\', e]
  | none =>
    if c.toNat < 0x20 then
      ['\\', 'u', '0', '0', Text.hexDigit (c.toNat / 16), Text.hexDigit (c.toNat % 16)]
    else [c]

/-- A string between its quotes.  One that denotes no text is written as a
surrogate that stands alone, which is what such a string is. -/
def quoted : Option String → List Char
  | some s => '"' :: (s.toList.flatMap escaped ++ ['"'])
  | none => ['"', '\\', 'u', 'd', '8', '0', '0', '"']

/-- An integer in decimal. -/
def integerText : Int → List Char
  | .ofNat n => Text.numeral n
  | .negSucc n => '-' :: Text.numeral (n + 1)

/-- A scalar as text.  Arrays and objects are not scalars and have no spelling
of their own. -/
def scalarText : Json → List Char
  | .null => ['n', 'u', 'l', 'l']
  | .bool true => ['t', 'r', 'u', 'e']
  | .bool false => ['f', 'a', 'l', 's', 'e']
  | .integer n => integerText n
  | .fraction => ['0', '.', '5']
  | .string t => quoted t
  | .array _ => []
  | .object _ => []

/-- One token as text. -/
def Token.spell : Token → List Char
  | .openArray => ['[']
  | .closeArray => [']']
  | .openObject => ['{']
  | .closeObject => ['}']
  | .comma => [',']
  | .colon => [':']
  | .scalar v => scalarText v

end Json
end SoftFork
