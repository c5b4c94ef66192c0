import SoftFork.Rule.Override
import SoftFork.Proofs.Answer
import SoftFork.Proofs.Text.Typed

/-!
# Override entries

An entry gives an override by its name and its two times, with a colon after the name and after
the start.  A colon is no blank and stands in no number, so blanks may be put around each of the
three parts and around the whole without moving a part's borders (`splitOn_trim_entry`).

## What is read

With two colons an entry has three parts (`Parts`), and it is read exactly when the second and the
third are times (`TypedTime`).  What is wrong with any other entry is found in the order in which it
is looked for: first the number of the colons, then the start, then the timeout
(`ofEntry_decides`).

## What gives an override back

The name is the only part that could hold a separator itself.  `PlainName` says that it does not,
and also that it has no blanks at its ends, which reading would take away.  Whatever is typed for
an override with a plain name (`Spells`) is read as that override (`Spells.ofEntry_eq`).
-/

namespace SoftFork
namespace Override

variable {entry : List Char}

/-! ## The parts of an entry -/

/-- The parts of an entry, once the blanks at its two ends are gone. -/
theorem splitOn_trim_entry {a b c : List Char} (ha : ':' ∉ a) (hb : ':' ∉ b) (hc : ':' ∉ c) :
    (Text.trim (a ++ ':' :: (b ++ ':' :: c))).splitOn ':' =
      [Text.trimFront a, b, c.rdropWhile Text.isBlank] := by
  have hcolon : Text.isBlank ':' = false := by decide
  have ha' : ':' ∉ Text.trimFront a := fun h => ha ((List.dropWhile_suffix _).subset h)
  have hc' : ':' ∉ c.rdropWhile Text.isBlank := fun h =>
    hc ((List.rdropWhile_prefix Text.isBlank c).subset h)
  rw [Text.trim_append_cons hcolon, Text.rdropWhile_append_cons hcolon,
    List.splitOn_append_cons_self_of_not_mem ha', List.splitOn_append_cons_self_of_not_mem hb,
    List.splitOn_eq_singleton hc']

/-- The entry has two colons, and these are the parts between. -/
structure Parts (entry name start stop : List Char) : Prop where
  joined : entry = name ++ ':' :: (start ++ ':' :: stop)
  name : ':' ∉ name
  start : ':' ∉ start
  stop : ':' ∉ stop

theorem exists_parts_iff :
    (∃ name start stop, Parts entry name start stop) ↔ entry.count ':' = 2 := by
  constructor
  · rintro ⟨name, start, stop, rfl, hname, hstart, hstop⟩
    simp only [List.count_append, List.count_cons_self, List.count_eq_zero.mpr hname,
      List.count_eq_zero.mpr hstart, List.count_eq_zero.mpr hstop]
  · intro h
    obtain ⟨name, start, stop, hentry, hname, hstart, hstop⟩ := Text.exists_three_parts h
    exact ⟨name, start, stop, hentry, hname, hstart, hstop⟩

/-- Without exactly two colons an entry is refused for its shape. -/
theorem ofEntry_of_count_ne (h : entry.count ':' ≠ 2) :
    ofEntry entry = .error (.misconfigured (.overrideShape (String.ofList entry))) := by
  rw [ofEntry]
  split
  · next hsplit =>
    have hlen := Text.length_splitOn ':' (Text.trim entry)
    rw [hsplit, Text.count_trim (by decide)] at hlen
    simp only [List.length_cons, List.length_nil] at hlen
    omega
  · rfl

/-! ## Times -/

/-- What may be typed for a time: its decimal digits, with or without zeros in front, perhaps
behind a plus sign, and blanks around. -/
def TypedTime (t : UInt64) (s : List Char) : Prop :=
  ∃ digits, Text.Decimal t.toNat digits ∧ (Text.Padded digits s ∨ Text.Padded ('+' :: digits) s)

/-- A time is what is typed for it, once the blanks around are gone. -/
theorem typedTime_iff {t : UInt64} {s : List Char} :
    TypedTime t s ↔ Text.readNumeral lastTime (Text.trim s) = some t.toNat := by
  rw [Text.readNumeral_eq_some_iff]
  constructor
  · rintro ⟨digits, hdigits, hs⟩
    refine ⟨Nat.le_of_lt_succ t.toNat_lt, ?_⟩
    rcases hs with hs | hs
    · rw [hs.trim hdigits.tight]
      exact Or.inl hdigits
    · have htight : Text.Tight ('+' :: digits) :=
        Text.Tight.of_forall <| List.forall_mem_cons.mpr
          ⟨by decide, fun c hc => Text.isBlank_of_isDigit (hdigits.digits c hc)⟩
      rw [hs.trim htight]
      exact Or.inr ⟨digits, rfl, hdigits⟩
  · rintro ⟨-, hdigits | ⟨digits, hsigned, hdigits⟩⟩
    · exact ⟨_, hdigits, Or.inl (Text.padded_trim s)⟩
    · exact ⟨digits, hdigits, Or.inr (Text.Padded.of_trim hsigned)⟩

instance (t : UInt64) (s : List Char) : Decidable (TypedTime t s) :=
  decidable_of_iff _ typedTime_iff.symm

theorem TypedTime.of_paddedDecimal {t : UInt64} {s : List Char}
    (h : Text.PaddedDecimal t.toNat s) : TypedTime t s := by
  obtain ⟨digits, hdigits, hs⟩ := h
  exact ⟨digits, hdigits, Or.inl hs⟩

theorem typedTime_rdropWhile {t : UInt64} {s : List Char} :
    TypedTime t (s.rdropWhile Text.isBlank) ↔ TypedTime t s := by
  rw [typedTime_iff, typedTime_iff, Text.trim_rdropWhile]

theorem readTime_of_typed {t : UInt64} {s : List Char} (h : TypedTime t s) (entry : List Char) :
    readTime entry s = .ok t := by
  rw [readTime, typedTime_iff.mp h]
  exact congrArg Except.ok UInt64.ofNat_toNat

theorem readTime_of_not_typed {s : List Char} (h : ∀ t, ¬ TypedTime t s) (entry : List Char) :
    readTime entry s =
      .error (.misconfigured (.overrideTime (String.ofList s) (String.ofList entry))) := by
  rw [readTime]
  split
  · next n hn =>
    -- a number that is read has at most sixty-four bits
    have hle : n ≤ lastTime := (Text.readNumeral_eq_some_iff.mp hn).1
    have hof : (UInt64.ofNat n).toNat = n := UInt64.toNat_ofNat_of_lt' (Nat.lt_succ_of_le hle)
    exact absurd (typedTime_iff.mpr (by rw [hof, hn])) (h (UInt64.ofNat n))
  · rfl

/-! ## Entries with three parts -/

namespace Parts

variable {name start stop : List Char}

/-- Reading an entry with two colons: the start comes first, then the timeout. -/
theorem ofEntry_eq (h : Parts entry name start stop) :
    ofEntry entry = (do
      let startTime ← readTime entry start
      let timeout ← readTime entry (stop.rdropWhile Text.isBlank)
      return ⟨String.ofList (Text.trim name), startTime, timeout⟩) := by
  obtain ⟨rfl, hname, hstart, hstop⟩ := h
  rw [← Text.trim_trimFront name, ofEntry, splitOn_trim_entry hname hstart hstop]

theorem ofEntry_of_typed (h : Parts entry name start stop) {t t' : UInt64}
    (hstart : TypedTime t start) (hstop : TypedTime t' stop) :
    ofEntry entry = .ok ⟨String.ofList (Text.trim name), t, t'⟩ := by
  rw [h.ofEntry_eq, readTime_of_typed hstart, ok_bind,
    readTime_of_typed (typedTime_rdropWhile.mpr hstop), ok_bind, pure_eq_ok]

/-- A start that is no time is found before the timeout is looked at. -/
theorem ofEntry_of_start (h : Parts entry name start stop) (hstart : ∀ t, ¬ TypedTime t start) :
    ofEntry entry = .error
      (.misconfigured (.overrideTime (String.ofList start) (String.ofList entry))) := by
  rw [h.ofEntry_eq, readTime_of_not_typed hstart, error_bind]

theorem ofEntry_of_stop (h : Parts entry name start stop) {t : UInt64} (hstart : TypedTime t start)
    (hstop : ∀ t, ¬ TypedTime t stop) :
    ofEntry entry = .error (.misconfigured (.overrideTime
      (String.ofList (stop.rdropWhile Text.isBlank)) (String.ofList entry))) := by
  rw [h.ofEntry_eq, readTime_of_typed hstart, ok_bind,
    readTime_of_not_typed fun t => mt typedTime_rdropWhile.mp (hstop t), error_bind]

end Parts

/-- An entry that is read has three parts, the second and the third of which are times. -/
theorem exists_parts_of_ofEntry {o : Override} (h : ofEntry entry = .ok o) :
    ∃ name start stop, Parts entry name start stop ∧ o.name = String.ofList (Text.trim name) ∧
      TypedTime o.startTime start ∧ TypedTime o.timeout stop := by
  by_cases hcount : entry.count ':' = 2
  · obtain ⟨name, start, stop, hparts⟩ := exists_parts_iff.mpr hcount
    by_cases hstart : ∃ t, TypedTime t start
    · obtain ⟨t, ht⟩ := hstart
      by_cases hstop : ∃ t', TypedTime t' stop
      · obtain ⟨t', ht'⟩ := hstop
        rw [hparts.ofEntry_of_typed ht ht'] at h
        obtain rfl := Except.ok.inj h
        exact ⟨name, start, stop, hparts, rfl, ht, ht'⟩
      · rw [hparts.ofEntry_of_stop ht (not_exists.mp hstop)] at h
        exact absurd h (by simp)
    · rw [hparts.ofEntry_of_start (not_exists.mp hstart)] at h
      exact absurd h (by simp)
  · rw [ofEntry_of_count_ne hcount] at h
    exact absurd h (by simp)

/-- Every entry is decided.  It is read exactly when it has three parts and the second and the
third are times of at most sixty-four bits; then it gives the first part, without the blanks around
it, and these times.  An entry without exactly two colons is refused for its shape.  Any other entry
has three parts, and is refused for its start when that is no time, and else for its timeout. -/
theorem ofEntry_decides (entry : List Char) :
    (∀ o : Override, ofEntry entry = .ok o ↔ ∃ name start stop, Parts entry name start stop ∧
      (Text.Tight o.name.toList ∧ Text.Padded o.name.toList name) ∧
      TypedTime o.startTime start ∧ TypedTime o.timeout stop) ∧
    (entry.count ':' ≠ 2 →
      ofEntry entry = .error (.misconfigured (.overrideShape (String.ofList entry)))) ∧
    (entry.count ':' = 2 ↔ ∃ name start stop, Parts entry name start stop) ∧
    ∀ name start stop, Parts entry name start stop →
      ((∀ t, ¬ TypedTime t start) → ofEntry entry = .error
        (.misconfigured (.overrideTime (String.ofList start) (String.ofList entry)))) ∧
      ∀ t, TypedTime t start → (∀ t', ¬ TypedTime t' stop) → ofEntry entry = .error
        (.misconfigured (.overrideTime (String.ofList (stop.rdropWhile Text.isBlank))
          (String.ofList entry))) := by
  refine ⟨fun o => ⟨fun hread => ?_, ?_⟩, ofEntry_of_count_ne, exists_parts_iff.symm,
    fun name start stop hparts => ⟨hparts.ofEntry_of_start, fun _ => hparts.ofEntry_of_stop⟩⟩
  · obtain ⟨name, start, stop, hparts, hname, htimes⟩ := exists_parts_of_ofEntry hread
    rw [hname, String.toList_ofList]
    exact ⟨name, start, stop, hparts, ⟨Text.tight_trim name, Text.padded_trim name⟩, htimes⟩
  · rintro ⟨name, start, stop, hparts, ⟨htight, hname⟩, hstart, hstop⟩
    rw [hparts.ofEntry_of_typed hstart hstop, hname.trim htight, String.ofList_toList]

/-- An entry with a no-break space, a plus sign, zeros in front and the latest time there is; one
with both times wrong, of which the start is named; one whose timeout is one too late; and one with
a colon too many. -/
theorem ofEntry_typed :
    ofEntry " soft fork :+007: 18446744073709551615 ".toList =
        .ok ⟨"soft fork", 7, 18446744073709551615⟩ ∧
      ofEntry "csv:+:x".toList = .error (.misconfigured (.overrideTime "+" "csv:+:x")) ∧
      ofEntry ":1:18446744073709551616 ".toList = .error
        (.misconfigured (.overrideTime "18446744073709551616" ":1:18446744073709551616 ")) ∧
      ofEntry "csv:1:2:".toList = .error (.misconfigured (.overrideShape "csv:1:2:")) := by
  refine ⟨?_, ?_, ?_, ?_⟩
  · refine ((ofEntry_decides _).1 _).mpr ⟨" soft fork ".toList, "+007".toList,
      " 18446744073709551615 ".toList, ⟨by decide, by decide, by decide, by decide⟩,
      ⟨by decide, .of_trim (by decide)⟩, by decide, by decide⟩
  · obtain ⟨-, -, -, hrefused⟩ := ofEntry_decides "csv:+:x".toList
    refine (hrefused "csv".toList ['+'] ['x'] ⟨by decide, by decide, by decide, by decide⟩).1
      fun t => ?_
    have hnone : Text.readNumeral lastTime (Text.trim ['+']) = none := by decide
    rw [typedTime_iff, hnone]
    exact nofun
  · obtain ⟨-, -, -, hrefused⟩ := ofEntry_decides ":1:18446744073709551616 ".toList
    refine (hrefused [] ['1'] "18446744073709551616 ".toList
      ⟨by decide, by decide, by decide, by decide⟩).2 1 (by decide) fun t => ?_
    have hnone : Text.readNumeral lastTime (Text.trim "18446744073709551616 ".toList) = none := by
      decide
    rw [typedTime_iff, hnone]
    exact nofun
  · exact (ofEntry_decides _).2.1 (by decide)

/-! ## Overrides with plain names -/

/-- The name survives being written into a list of entries. -/
structure PlainName (name : List Char) : Prop where
  comma : ',' ∉ name
  colon : ':' ∉ name
  tight : Text.Tight name

/-- The entries that give an override: name, start and timeout with colons between, the times in
decimal, and blanks around each of the three. -/
inductive Spells (o : Override) : List Char → Prop
  | parts {name start stop : List Char} (hname : Text.Padded o.name.toList name)
      (hstart : Text.PaddedDecimal o.startTime.toNat start)
      (hstop : Text.PaddedDecimal o.timeout.toNat stop) :
      Spells o (name ++ ':' :: (start ++ ':' :: stop))

variable {o : Override}

theorem Spells.ofEntry_eq (h : o.Spells entry) (hplain : PlainName o.name.toList) :
    ofEntry entry = .ok o := by
  obtain @⟨name, start, stop, hname, hstart, hstop⟩ := h
  have hcolon : Text.isBlank ':' = false := by decide
  have hdigit : Text.isDigit ':' = false := by decide
  have hparts : Parts (name ++ ':' :: (start ++ ':' :: stop)) name start stop :=
    ⟨rfl, hname.not_mem hcolon hplain.colon, hstart.not_mem hcolon hdigit,
      hstop.not_mem hcolon hdigit⟩
  rw [hparts.ofEntry_of_typed (.of_paddedDecimal hstart) (.of_paddedDecimal hstop),
    hname.trim hplain.tight, String.ofList_toList]

theorem Spells.comma_notMem (h : o.Spells entry) (hplain : PlainName o.name.toList) :
    ',' ∉ entry := by
  obtain @⟨name, start, stop, hname, hstart, hstop⟩ := h
  have hcomma : Text.isBlank ',' = false := by decide
  have hdigit : Text.isDigit ',' = false := by decide
  simp only [List.mem_append, List.mem_cons, not_or]
  exact ⟨hname.not_mem hcomma hplain.comma, by decide, hstart.not_mem hcomma hdigit, by decide,
    hstop.not_mem hcomma hdigit⟩

end Override
end SoftFork
