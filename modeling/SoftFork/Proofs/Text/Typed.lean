import SoftFork.Text.Blank
import SoftFork.Text.Letters
import SoftFork.Text.Numeral
import Mathlib.Data.List.DropRight
import Mathlib.Data.List.Forall2

/-!
# Text that is typed

What a person types for a word or a number is not one text but many: there may be blanks around
it, a name may be in capitals, a number may start with zeros.  Each of these is a relation here
(`Padded`, `Cased`, `Decimal`) between the thing meant and the characters typed, and the readers
are shown to go back along it.

* `trim_blank_append`, `trim_append_blank`: blanks at the ends do not count, so that
  `Padded.trim` gives the word from anything typed for it.
* `readDigits_eq_some_iff`, `readNumeral_eq_some_iff`: the numerals are exactly the nonempty runs
  of digits, one plus sign in front aside, and the limit is asked of their value.
* `Cased.lower`: small letters in whatever case come back as small letters, and so
  `SpelledOneOf.lower_trim` gives back a spelling.
-/

namespace SoftFork
namespace Text

/-! ## Blanks around -/

/-- Nothing but blanks. -/
def Blank (s : List Char) : Prop := ∀ c ∈ s, isBlank c = true

instance (s : List Char) : Decidable (Blank s) :=
  decidable_of_iff (s.all isBlank = true) List.all_eq_true

/-- No blank at either end.  Blanks inside are welcome, and so is no text at all. -/
structure Tight (s : List Char) : Prop where
  front : ∀ c ∈ s.head?, isBlank c = false
  back : ∀ c ∈ s.getLast?, isBlank c = false

instance (s : List Char) : Decidable (Tight s) :=
  decidable_of_iff
    ((s.head?.all fun c => !isBlank c) = true ∧ (s.getLast?.all fun c => !isBlank c) = true) <| by
    simp only [Option.all_eq_true, Bool.not_eq_true']
    exact ⟨fun h => ⟨h.1, h.2⟩, fun h => ⟨h.front, h.back⟩⟩

/-- The text `s` is `word` with blanks around it. -/
def Padded (word s : List Char) : Prop :=
  ∃ front back, Blank front ∧ Blank back ∧ s = front ++ word ++ back

theorem trim_eq (s : List Char) : trim s = (trimFront s).rdropWhile isBlank := rfl

theorem rdropWhile_append_blank {b : List Char} (h : Blank b) (s : List Char) :
    (s ++ b).rdropWhile isBlank = s.rdropWhile isBlank := by
  rw [List.rdropWhile, List.reverse_append,
    List.dropWhile_append_of_pos fun c hc => h c (List.mem_reverse.mp hc), List.rdropWhile]

theorem trim_of_blank {s : List Char} (h : Blank s) : trim s = [] := by
  rw [trim_eq, trimFront, List.dropWhile_eq_nil_iff.mpr h, List.rdropWhile_nil]

theorem trim_blank_append {b : List Char} (h : Blank b) (s : List Char) :
    trim (b ++ s) = trim s := by
  rw [trim_eq, trimFront, List.dropWhile_append_of_pos h, trim_eq, trimFront]

theorem trim_append_blank {b : List Char} (h : Blank b) (s : List Char) :
    trim (s ++ b) = trim s := by
  rw [trim_eq, trimFront, List.dropWhile_append]
  split
  · next hnone =>
    -- nothing but blanks altogether
    rw [List.dropWhile_eq_nil_iff.mpr h, List.rdropWhile_nil,
      trim_of_blank (List.dropWhile_eq_nil_iff.mp (List.isEmpty_iff.mp hnone))]
  · rw [rdropWhile_append_blank h, trim_eq, trimFront]

theorem Tight.trim {s : List Char} (h : Tight s) : trim s = s :=
  trim_eq_self h.front h.back

/-- Text that holds no blank at all is tight. -/
theorem Tight.of_forall {s : List Char} (h : ∀ c ∈ s, isBlank c = false) : Tight s where
  front c hc := h c (List.mem_of_mem_head? hc)
  back c hc := h c (List.mem_of_mem_getLast? hc)

theorem Padded.trim {word s : List Char} (h : Padded word s) (hword : Tight word) :
    trim s = word := by
  obtain ⟨front, back, hfront, hback, rfl⟩ := h
  rw [trim_append_blank hback, trim_blank_append hfront, hword.trim]

/-- Every text is its trimmed form with blanks around it. -/
theorem padded_trim (s : List Char) : Padded (trim s) s := by
  refine ⟨s.takeWhile isBlank, (trimFront s).rtakeWhile isBlank,
    fun c hc => List.mem_takeWhile_imp hc, fun c hc => List.mem_rtakeWhile_imp hc, ?_⟩
  rw [trim_eq, List.append_assoc, List.rdropWhile_append_rtakeWhile, trimFront,
    List.takeWhile_append_dropWhile]

/-- Trimmed text has no blank at either end. -/
theorem tight_trim (s : List Char) : Tight (trim s) where
  front c hc := by
    obtain ⟨rest, hrest⟩ := List.head?_eq_some_iff.mp hc
    obtain ⟨back, hback⟩ : trim s <+: trimFront s := List.rdropWhile_prefix _ _
    have hfront := List.head?_dropWhile_not isBlank s
    rw [← trimFront, ← hback, hrest] at hfront
    exact hfront
  back c hc := by
    obtain ⟨hne, rfl⟩ := List.mem_getLast?_eq_getLast hc
    exact Bool.eq_false_iff.mpr (List.rdropWhile_last_not _ _ hne)

theorem Padded.of_trim {word s : List Char} (h : Text.trim s = word) : Padded word s :=
  h ▸ padded_trim s

theorem Padded.not_mem {word s : List Char} (h : Padded word s) {c : Char}
    (hc : isBlank c = false) (hword : c ∉ word) : c ∉ s := by
  obtain ⟨front, back, hfront, hback, rfl⟩ := h
  have hblank : ∀ b, Blank b → c ∉ b := fun b hb hmem => by
    rw [hb c hmem] at hc
    exact absurd hc (by decide)
  rw [List.mem_append, List.mem_append, not_or, not_or]
  exact ⟨⟨hblank front hfront, hword⟩, hblank back hback⟩

/-! ### Trimming around a separator

A character that is no blank keeps the two ends apart: what is trimmed in front of it and behind
it are the two parts. -/

theorem trimFront_append_cons {c : Char} (hc : isBlank c = false) (s t : List Char) :
    trimFront (s ++ c :: t) = trimFront s ++ c :: t := by
  rw [trimFront, List.dropWhile_append]
  split
  · next h =>
    rw [trimFront, List.isEmpty_iff.mp h, List.dropWhile_cons_of_neg (by rw [hc]; decide)]
    rfl
  · rfl

theorem rdropWhile_append_cons {c : Char} (hc : isBlank c = false) (s t : List Char) :
    (s ++ c :: t).rdropWhile isBlank = s ++ c :: t.rdropWhile isBlank := by
  have hfront := trimFront_append_cons hc t.reverse s.reverse
  rw [trimFront, trimFront] at hfront
  rw [List.rdropWhile, List.reverse_append, List.reverse_cons, List.append_assoc,
    List.singleton_append, hfront, List.reverse_append, List.reverse_cons, List.reverse_reverse,
    List.append_assoc, List.singleton_append, List.rdropWhile]

theorem trim_append_cons {c : Char} (hc : isBlank c = false) (s t : List Char) :
    trim (s ++ c :: t) = trimFront s ++ c :: t.rdropWhile isBlank := by
  rw [trim_eq, trimFront_append_cons hc, rdropWhile_append_cons hc]

theorem trim_trimFront (s : List Char) : trim (trimFront s) = trim s := by
  rw [trim_eq, trimFront, trimFront, List.dropWhile_idempotent, trim_eq, trimFront]

theorem trim_rdropWhile (s : List Char) : trim (s.rdropWhile isBlank) = trim s := by
  have hblank : Blank (s.rtakeWhile isBlank) := fun c hc => List.mem_rtakeWhile_imp hc
  rw [← trim_append_blank hblank, List.rdropWhile_append_rtakeWhile]

/-! ## The parts between separators -/

theorem notMem_of_mem_splitOn {sep : Char} {s part : List Char} (h : part ∈ s.splitOn sep) :
    sep ∉ part := by
  induction s generalizing part with
  | nil =>
    rw [List.splitOn_nil, List.mem_singleton] at h
    rw [h]
    exact List.not_mem_nil
  | cons c s ih =>
    rw [List.splitOn, List.splitOnP_cons_eq_if_modifyHead, ← List.splitOn] at h
    split at h
    · rcases List.mem_cons.mp h with rfl | hrest
      · exact List.not_mem_nil
      · exact ih hrest
    · next hc =>
      obtain ⟨first, rest, hsplit⟩ := List.exists_cons_of_ne_nil (List.splitOn_ne_nil sep s)
      rw [hsplit] at h ih
      rcases List.mem_cons.mp h with rfl | hrest
      · rw [List.mem_cons, not_or]
        exact ⟨fun heq => hc (by rw [heq, beq_self_eq_true]), ih List.mem_cons_self⟩
      · exact ih (List.mem_cons_of_mem _ hrest)

/-- Splitting gives one part more than there are separators. -/
theorem length_splitOn (sep : Char) (s : List Char) :
    (s.splitOn sep).length = s.count sep + 1 := by
  induction s with
  | nil => rfl
  | cons c s ih =>
    rw [List.splitOn, List.splitOnP_cons_eq_if_modifyHead, ← List.splitOn, List.count_cons]
    split
    · rw [List.length_cons, ih]
    · rw [List.length_modifyHead, ih]

/-- A text with two separators has three parts. -/
theorem exists_three_parts {sep : Char} {s : List Char} (h : s.count sep = 2) :
    ∃ a b c, s = a ++ sep :: (b ++ sep :: c) ∧ sep ∉ a ∧ sep ∉ b ∧ sep ∉ c := by
  obtain ⟨a, rest, rfl, ha⟩ := List.eq_append_cons_of_mem
    (List.count_pos_iff.mp (show 0 < s.count sep by omega))
  rw [List.count_append, List.count_eq_zero.mpr ha, List.count_cons_self] at h
  obtain ⟨b, c, rfl, hb⟩ := List.eq_append_cons_of_mem
    (List.count_pos_iff.mp (show 0 < rest.count sep by omega))
  rw [List.count_append, List.count_eq_zero.mpr hb, List.count_cons_self] at h
  exact ⟨a, b, c, rfl, ha, hb, List.count_eq_zero.mp (by omega)⟩

/-- Trimming takes away blanks only. -/
theorem count_trim {c : Char} (hc : isBlank c = false) (s : List Char) :
    (trim s).count c = s.count c := by
  have hblank : ∀ b, Blank b → b.count c = 0 := fun b hb => by
    refine List.count_eq_zero.mpr fun hmem => ?_
    rw [hb c hmem] at hc
    exact absurd hc (by decide)
  obtain ⟨front, back, hfront, hback, hs⟩ := padded_trim s
  have hcount := congrArg (List.count c) hs
  rw [List.count_append, List.count_append, hblank front hfront, hblank back hback] at hcount
  omega

/-! ## Numbers -/

/-- The text `s` is the number `n` in decimal digits, with or without zeros in front. -/
structure Decimal (n : Nat) (s : List Char) : Prop where
  ne_nil : s ≠ []
  digits : ∀ c ∈ s, isDigit c = true
  value : digitsValue s = n

instance (n : Nat) (s : List Char) : Decidable (Decimal n s) :=
  decidable_of_iff (s ≠ [] ∧ s.all isDigit = true ∧ digitsValue s = n)
    ⟨fun h => ⟨h.1, List.all_eq_true.mp h.2.1, h.2.2⟩,
      fun h => ⟨h.ne_nil, List.all_eq_true.mpr h.digits, h.value⟩⟩

/-- A number is written in decimal digits. -/
theorem decimal_numeral (n : Nat) : Decimal n (numeral n) where
  ne_nil := Nat.toDigits_ne_nil
  digits c hc := by
    have hdigit : c.isDigit = true := Nat.isDigit_of_mem_toDigits (by decide) (by decide) hc
    rw [Char.isDigit] at hdigit
    exact hdigit
  value := by
    have hvalue : Nat.ofDigitChars 10 (numeral n) 0 = n := Nat.ofDigitChars_ten_toDigits
    rwa [Nat.ofDigitChars_eq_foldl] at hvalue

theorem isBlank_of_isDigit {c : Char} (h : isDigit c = true) : isBlank c = false := by
  rw [isDigit, Bool.and_eq_true, decide_eq_true_eq, decide_eq_true_eq] at h
  have hlow : 48 ≤ c.toNat := h.1
  have hhigh : c.toNat ≤ 57 := h.2
  simp only [isBlank, Bool.or_eq_false_iff, Bool.and_eq_false_iff, decide_eq_false_iff_not,
    beq_eq_false_iff_ne]
  omega

theorem Decimal.tight {n : Nat} {s : List Char} (h : Decimal n s) : Tight s :=
  Tight.of_forall fun c hc => isBlank_of_isDigit (h.digits c hc)

/-- A character that is no digit does not stand in a number. -/
theorem Decimal.not_mem {n : Nat} {s : List Char} (h : Decimal n s) {c : Char}
    (hc : isDigit c = false) : c ∉ s := by
  intro hmem
  rw [h.digits c hmem] at hc
  exact absurd hc (by decide)

theorem readDigits_eq_some_iff {s : List Char} {n : Nat} :
    readDigits s = some n ↔ Decimal n s := by
  rw [readDigits]
  split
  · next hbad =>
    refine iff_of_false (by simp) fun h => ?_
    rcases Bool.or_eq_true_iff.mp hbad with hnil | hother
    · exact h.ne_nil (List.isEmpty_iff.mp hnil)
    · rw [List.all_eq_true.mpr h.digits] at hother
      exact absurd hother (by decide)
  · next hgood =>
    rw [Bool.or_eq_true, not_or, List.isEmpty_iff, Bool.not_eq_true', Bool.not_eq_false,
      List.all_eq_true] at hgood
    rw [Option.some_inj]
    exact ⟨fun h => ⟨hgood.1, hgood.2, h⟩, fun h => h.value⟩

theorem readDigits_bind_eq_some_iff {limit n : Nat} {s : List Char} :
    ((readDigits s).bind fun n => if n ≤ limit then some n else none) = some n ↔
      n ≤ limit ∧ Decimal n s := by
  rw [Option.bind_eq_some_iff]
  constructor
  · rintro ⟨m, hm, hn⟩
    rw [Option.ite_none_right_eq_some, Option.some_inj] at hn
    obtain ⟨hle, rfl⟩ := hn
    exact ⟨hle, readDigits_eq_some_iff.mp hm⟩
  · rintro ⟨hle, hs⟩
    exact ⟨n, readDigits_eq_some_iff.mpr hs, if_pos hle⟩

/-- A number that is read is at most the limit, and the text is its digits, perhaps behind a
plus sign. -/
theorem readNumeral_eq_some_iff {limit n : Nat} {s : List Char} :
    readNumeral limit s = some n ↔
      n ≤ limit ∧ (Decimal n s ∨ ∃ r, s = '+' :: r ∧ Decimal n r) := by
  by_cases hsign : ∃ r, s = '+' :: r
  · obtain ⟨r, rfl⟩ := hsign
    have hplus : ¬ Decimal n ('+' :: r) := fun h =>
      h.not_mem (by decide) List.mem_cons_self
    have hread : readNumeral limit ('+' :: r) = some n ↔ n ≤ limit ∧ Decimal n r :=
      readDigits_bind_eq_some_iff
    rw [hread]
    simp [hplus]
  · have hread : readNumeral limit s = some n ↔ n ≤ limit ∧ Decimal n s := by
      rw [← readDigits_bind_eq_some_iff, readNumeral]
      · exact Iff.rfl
      · exact fun r hr => hsign ⟨r, hr⟩
    rw [hread]
    refine and_congr_right fun _ => ⟨Or.inl, ?_⟩
    rintro (h | ⟨r, hr, -⟩)
    · exact h
    · exact absurd ⟨r, hr⟩ hsign

theorem readNumeral_of_decimal {limit n : Nat} {s : List Char} (h : Decimal n s) (hn : n ≤ limit) :
    readNumeral limit s = some n :=
  readNumeral_eq_some_iff.mpr ⟨hn, Or.inl h⟩

/-- The number `n` in decimal digits, with blanks around them. -/
def PaddedDecimal (n : Nat) (s : List Char) : Prop := ∃ digits, Decimal n digits ∧ Padded digits s

theorem PaddedDecimal.of_trim {n : Nat} {s : List Char} (h : Decimal n (trim s)) :
    PaddedDecimal n s :=
  ⟨trim s, h, padded_trim s⟩

theorem PaddedDecimal.read {limit n : Nat} {s : List Char} (h : PaddedDecimal n s)
    (hn : n ≤ limit) : readNumeral limit (trim s) = some n := by
  obtain ⟨digits, hdigits, hs⟩ := h
  rw [hs.trim hdigits.tight]
  exact readNumeral_of_decimal hdigits hn

theorem PaddedDecimal.not_mem {n : Nat} {s : List Char} (h : PaddedDecimal n s) {c : Char}
    (hblank : isBlank c = false) (hdigit : isDigit c = false) : c ∉ s := by
  obtain ⟨digits, hdigits, hs⟩ := h
  exact hs.not_mem hblank (hdigits.not_mem hdigit)

/-! ## Letters of either case -/

/-- Small ASCII letters and the underscore, of which every spelling consists. -/
def isSmall (c : Char) : Bool := ('a' ≤ c && c ≤ 'z') || c == '_'

/-- The text `s` is `word` with each letter in one of its two ASCII forms. -/
def Cased (word s : List Char) : Prop :=
  List.Forall₂ (fun c d => c = d ∨ c = d.toUpper) s word

instance (word s : List Char) : Decidable (Cased word s) :=
  inferInstanceAs (Decidable (List.Forall₂ (fun c d => c = d ∨ c = d.toUpper) s word))

theorem small_cases : ∀ n < 0x80, isSmall (Char.ofNat n) = true →
    (lowerLetter (Char.ofNat n) = Char.ofNat n ∧ isBlank (Char.ofNat n) = false) ∧
      lowerLetter (Char.ofNat n).toUpper = Char.ofNat n ∧
        isBlank (Char.ofNat n).toUpper = false := by
  decide

/-- Both forms of a small letter are the letter when made small, and neither is a blank. -/
theorem small_forms {c d : Char} (hd : isSmall d = true) (hc : c = d ∨ c = d.toUpper) :
    lowerLetter c = d ∧ isBlank c = false := by
  have hlt : d.toNat < 0x80 := by
    rw [isSmall, Bool.or_eq_true, Bool.and_eq_true, decide_eq_true_eq, decide_eq_true_eq,
      beq_iff_eq] at hd
    rcases hd with ⟨-, hz⟩ | rfl
    · have hz : d.toNat ≤ 122 := hz
      omega
    · decide
  have hforms := small_cases d.toNat hlt
  rw [Char.ofNat_toNat] at hforms
  rcases hc with rfl | rfl
  · exact (hforms hd).1
  · exact (hforms hd).2

theorem Cased.forms {word s : List Char} (h : Cased word s) (hword : word.all isSmall = true) :
    lower s = word ∧ ∀ c ∈ s, isBlank c = false := by
  induction h with
  | nil => exact ⟨rfl, by simp⟩
  | cons hcd _ ih =>
    rw [List.all_cons, Bool.and_eq_true] at hword
    obtain ⟨hlower, hblank⟩ := small_forms hword.1 hcd
    obtain ⟨hrest, hrestBlank⟩ := ih hword.2
    refine ⟨?_, List.forall_mem_cons.mpr ⟨hblank, hrestBlank⟩⟩
    rw [lower, List.map_cons, hlower, ← lower, hrest]

theorem Cased.lower {word s : List Char} (h : Cased word s) (hword : word.all isSmall = true) :
    lower s = word :=
  (h.forms hword).1

theorem Cased.tight {word s : List Char} (h : Cased word s) (hword : word.all isSmall = true) :
    Tight s :=
  Tight.of_forall (h.forms hword).2

/-- One of the spellings is typed, in letters of either case and with blanks around it. -/
def SpelledOneOf (spellings : List String) (s : List Char) : Prop :=
  ∃ word ∈ spellings, ∃ letters, Cased word.toList letters ∧ Padded letters s

theorem SpelledOneOf.lower_trim {spellings : List String} {s : List Char}
    (h : SpelledOneOf spellings s) (hsmall : ∀ word ∈ spellings, word.toList.all isSmall = true) :
    String.ofList (lower (trim s)) ∈ spellings := by
  obtain ⟨word, hmem, letters, hcased, hpadded⟩ := h
  rw [hpadded.trim (hcased.tight (hsmall word hmem)), hcased.lower (hsmall word hmem),
    String.ofList_toList]
  exact hmem

end Text
end SoftFork
