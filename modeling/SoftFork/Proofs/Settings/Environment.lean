import SoftFork.Settings.Environment
import SoftFork.Proofs.Rule.Entry

/-!
# Settings written into an environment

There are many environments for one and the same settings.  A network has several spellings in
letters of either case, a number may have zeros in front, blanks may stand around everything, and
the list of overrides may have entries in which nothing is written.  `Written` says that an
environment is one of them, variable by variable.

* `Written.ofEnvironment_eq`: whichever it is, the settings come back.  Only the names of the
  overrides need a condition, that they survive being put into a list (`Override.PlainName`).
* `ofEnvironment_update_none`: a variable that cannot be read might as well be missing.
* `ofEnvironment_update_entry`: an entry that is no override might as well not be written, and
  the entries around it are read as before.

The last two are about every environment, also those that nobody would write on purpose.  What
carries them is that each setting looks at one variable only and that no two variables have one
name (`Variable.name_injective`).
-/

namespace SoftFork

theorem Variable.name_injective : Function.Injective Variable.name := by
  intro which other h
  cases which <;> cases other <;> first | rfl | exact absurd h (by decide)

/-- The value of a variable can be read; the list of overrides as soon as one of its entries
can. -/
def Variable.Readable (which : Variable) (value : List Char) : Prop :=
  match which with
  | .network => ∃ n, Network.ofSpelling value = .ok n
  | .clock => ∃ c, Clock.ofSpelling value = .ok c
  | .overrides => ∃ entry ∈ value.splitOn ',', ∃ o, Override.ofEntry entry = .ok o
  | .alertsEnabled | .evictOnReorg => ∃ b, Settings.readBool value = some b
  | .alertsWindow | .alertsLimit => ∃ n, Settings.readCount value = some n

/-! ## One value -/

theorem Network.find?_spellings (n : Network) :
    ∀ word ∈ n.spellings, all.find? (fun m => m.spellings.contains word) = some n := by
  cases n <;> decide

theorem Network.ofSpelling_of_spelled {n : Network} {s : List Char}
    (h : Text.SpelledOneOf n.spellings s) : Network.ofSpelling s = .ok n := by
  have hword := h.lower_trim (by cases n <;> decide)
  simp only [Network.ofSpelling, n.find?_spellings _ hword]

theorem Clock.find?_spellings (c : Clock) :
    ∀ word ∈ c.spellings, all.find? (fun d => d.spellings.contains word) = some c := by
  cases c <;> decide

theorem Clock.ofSpelling_of_spelled {c : Clock} {s : List Char}
    (h : Text.SpelledOneOf c.spellings s) : Clock.ofSpelling s = .ok c := by
  have hword := h.lower_trim (by cases c <;> decide)
  simp only [Clock.ofSpelling, c.find?_spellings _ hword]

namespace Settings

/-- The word for a truth value. -/
def boolWord (b : Bool) : String := if b then "true" else "false"

theorem readBool_of_padded {b : Bool} {s : List Char} (h : Text.Padded (boolWord b).toList s) :
    readBool s = some b := by
  have htight : Text.Tight (boolWord b).toList := by cases b <;> decide
  rw [readBool, h.trim htight, String.ofList_toList]
  cases b <;> decide

theorem readCount_of_padded {n : UInt32} {s : List Char} (h : Text.PaddedDecimal n.toNat s) :
    readCount s = some n := by
  have hlimit : n.toNat ≤ 0xFFFFFFFF := Nat.le_of_lt_succ n.toNat_lt
  rw [readCount, h.read hlimit, Option.map_some, UInt32.ofNat_toNat]

/-! ## The list of overrides -/

/-- The override that an entry writes, if it writes one. -/
def entryOverride? (entry : List Char) : Option Override := (Override.ofEntry entry).toOption

/-- Where nothing but blanks is written, no override is. -/
theorem entryOverride?_of_trim {entry : List Char} (h : Text.trim entry = []) :
    entryOverride? entry = none := by
  rw [entryOverride?, Override.ofEntry, h]
  rfl

/-- Blank entries need no test of their own: they are no overrides. -/
theorem readOverrides_eq (s : List Char) :
    readOverrides s = (s.splitOn ',').filterMap entryOverride? := by
  refine List.filterMap_congr fun entry _ => ?_
  split
  · next h => rw [entryOverride?_of_trim (List.isEmpty_iff.mp h)]
  · rfl

/-- A list of entries is read entry by entry, also the one that has none. -/
theorem readOverrides_intercalate {entries : List (List Char)} (h : ∀ e ∈ entries, ',' ∉ e) :
    readOverrides ([','].intercalate entries) = entries.filterMap entryOverride? := by
  rw [readOverrides_eq]
  by_cases hnil : entries = []
  · rw [hnil]
    rfl
  · rw [List.splitOn_intercalate ',' h hnil]

/-- The entries of a list of overrides: one for each override, in order, and anywhere among them
entries in which nothing is written. -/
inductive Listed : List Override → List (List Char) → Prop
  | nil : Listed [] []
  | blank {os : List Override} {entries : List (List Char)} {entry : List Char}
      (hentry : Text.Blank entry) (hrest : Listed os entries) : Listed os (entry :: entries)
  | entry {os : List Override} {entries : List (List Char)} {o : Override} {entry : List Char}
      (hentry : o.Spells entry) (hrest : Listed os entries) : Listed (o :: os) (entry :: entries)

section Listed

variable {os : List Override} {entries : List (List Char)}

theorem Listed.comma_notMem (h : Listed os entries)
    (hplain : ∀ o ∈ os, Override.PlainName o.name.toList) : ∀ e ∈ entries, ',' ∉ e := by
  induction h with
  | nil => simp
  | blank hentry _ ih =>
    refine List.forall_mem_cons.mpr ⟨fun hmem => ?_, ih hplain⟩
    exact absurd (hentry ',' hmem) (by decide)
  | entry hentry _ ih =>
    obtain ⟨ho, hos⟩ := List.forall_mem_cons.mp hplain
    exact List.forall_mem_cons.mpr ⟨hentry.comma_notMem ho, ih hos⟩

theorem Listed.filterMap_eq (h : Listed os entries)
    (hplain : ∀ o ∈ os, Override.PlainName o.name.toList) :
    entries.filterMap entryOverride? = os := by
  induction h with
  | nil => rfl
  | blank hentry _ ih =>
    rw [List.filterMap_cons_none (entryOverride?_of_trim (Text.trim_of_blank hentry)), ih hplain]
  | entry hentry _ ih =>
    obtain ⟨ho, hos⟩ := List.forall_mem_cons.mp hplain
    have hread : entryOverride? _ = some _ := congrArg Except.toOption (hentry.ofEntry_eq ho)
    rw [List.filterMap_cons_some hread, ih hos]

end Listed

/-! ## All seven variables -/

/-- The variable is there and has a value of the given kind. -/
def Holds (lookup : String → Option String) (which : Variable) (kind : List Char → Prop) : Prop :=
  ∃ value, lookup which.name = some value ∧ kind value.toList

/-- The environment writes the settings, each in one of the ways in which it may be written. -/
structure Written (lookup : String → Option String) (s : Settings) : Prop where
  network : Holds lookup .network (Text.SpelledOneOf s.network.spellings)
  clock : Holds lookup .clock (Text.SpelledOneOf s.clock.spellings)
  overrides : Holds lookup .overrides fun value =>
    ∃ entries, Listed s.overrides entries ∧ value = [','].intercalate entries
  alertsEnabled : Holds lookup .alertsEnabled (Text.Padded (boolWord s.alerts.enabled).toList)
  alertsWindow : Holds lookup .alertsWindow (Text.PaddedDecimal s.alerts.window.toNat)
  alertsLimit : Holds lookup .alertsLimit (Text.PaddedDecimal s.alerts.limit.toNat)
  evictOnReorg : Holds lookup .evictOnReorg (Text.Padded (boolWord s.memos.evictOnReorg).toList)

section Reading

variable {lookup : String → Option String} {which : Variable} {α : Type}
  {read : List Char → Option α}

theorem Holds.readVariable_eq {kind : List Char → Prop} (h : Holds lookup which kind) {a : α}
    (hread : ∀ value, kind value → read value = some a) (default : α) :
    readVariable lookup which read default = a := by
  obtain ⟨value, hlookup, hkind⟩ := h
  rw [readVariable, hlookup, Option.bind_some, hread _ hkind, Option.getD_some]

theorem Written.ofEnvironment_eq {s : Settings} (h : Written lookup s)
    (hplain : ∀ o ∈ s.overrides, Override.PlainName o.name.toList) : ofEnvironment lookup = s := by
  have hoverrides : ∀ value : List Char,
      (∃ entries, Listed s.overrides entries ∧ value = [','].intercalate entries) →
        some (readOverrides value) = some s.overrides := by
    rintro _ ⟨entries, hlisted, rfl⟩
    rw [readOverrides_intercalate (hlisted.comma_notMem hplain), hlisted.filterMap_eq hplain]
  rw [ofEnvironment,
    h.network.readVariable_eq fun _ hv =>
      congrArg Except.toOption (Network.ofSpelling_of_spelled hv),
    h.clock.readVariable_eq fun _ hv => congrArg Except.toOption (Clock.ofSpelling_of_spelled hv),
    h.overrides.readVariable_eq hoverrides,
    h.alertsEnabled.readVariable_eq fun _ => readBool_of_padded,
    h.alertsWindow.readVariable_eq fun _ => readCount_of_padded,
    h.alertsLimit.readVariable_eq fun _ => readCount_of_padded,
    h.evictOnReorg.readVariable_eq fun _ => readBool_of_padded]

/-! ## One variable changed -/

variable {other : Variable} {default : α}

theorem readVariable_update_of_ne (h : other ≠ which) (new : Option String) :
    readVariable (Function.update lookup which.name new) other read default =
      readVariable lookup other read default := by
  have hname : other.name ≠ which.name := fun heq => h (Variable.name_injective heq)
  rw [readVariable, Function.update_of_ne hname, readVariable]

/-- A variable may go missing where nothing but the default is read from it. -/
theorem readVariable_update_none {value : String} (hvalue : lookup which.name = some value)
    (h : other = which → ∀ a, read value.toList = some a → a = default) :
    readVariable (Function.update lookup which.name none) other read default =
      readVariable lookup other read default := by
  by_cases hother : other = which
  · rw [readVariable, hother, Function.update_self, readVariable, hvalue, Option.bind_some]
    cases hread : read value.toList with
    | none => rfl
    | some a => exact (h hother a hread).symm
  · exact readVariable_update_of_ne hother none

theorem ofEnvironment_update_none {value : String} (hvalue : lookup which.name = some value)
    (hbad : ¬ which.Readable value.toList) :
    ofEnvironment (Function.update lookup which.name none) = ofEnvironment lookup := by
  simp only [ofEnvironment, Settings.mk.injEq, AlertSettings.mk.injEq, MemoSettings.mk.injEq]
  refine ⟨readVariable_update_none hvalue ?network, readVariable_update_none hvalue ?clock,
    readVariable_update_none hvalue ?overrides,
    ⟨readVariable_update_none hvalue ?enabled, readVariable_update_none hvalue ?window,
      readVariable_update_none hvalue ?limit⟩,
    readVariable_update_none hvalue ?evict⟩
  case network =>
    rintro rfl n hn
    exact absurd ⟨n, eq_ok_of_toOption hn⟩ hbad
  case clock =>
    rintro rfl c hc
    exact absurd ⟨c, eq_ok_of_toOption hc⟩ hbad
  case overrides =>
    -- a list is always read, so that what is read has to be seen to be empty
    rintro rfl os hos
    rw [← Option.some_inj.mp hos, readOverrides_eq, List.filterMap_eq_nil_iff]
    intro entry hentry
    cases hread : entryOverride? entry with
    | none => rfl
    | some o => exact absurd ⟨entry, hentry, o, eq_ok_of_toOption hread⟩ hbad
  case enabled | evict =>
    rintro rfl b hb
    exact absurd ⟨b, hb⟩ hbad
  case window | limit =>
    rintro rfl n hn
    exact absurd ⟨n, hn⟩ hbad

/-- The overrides of a list from which an entry that is none has been taken out. -/
theorem readOverrides_without {value entry : List Char} {before after : List (List Char)}
    (hsplit : value.splitOn ',' = before ++ entry :: after)
    (hbad : ∀ o, Override.ofEntry entry ≠ .ok o) :
    readOverrides ([','].intercalate (before ++ after)) = readOverrides value := by
  have hcomma : ∀ e ∈ before ++ after, ',' ∉ e := by
    intro e he
    have hmem : e ∈ value.splitOn ',' := by
      rw [hsplit]
      exact (List.sublist_cons_self entry after).append_left before |>.subset he
    exact Text.notMem_of_mem_splitOn hmem
  have hnone : entryOverride? entry = none := by
    cases hread : entryOverride? entry with
    | none => rfl
    | some o => exact absurd (eq_ok_of_toOption hread) (hbad o)
  rw [readOverrides_intercalate hcomma, readOverrides_eq, hsplit, List.filterMap_append,
    List.filterMap_append, List.filterMap_cons_none hnone]

theorem ofEnvironment_update_entry {value : String} {entry : List Char}
    {before after : List (List Char)} (hvalue : lookup Variable.overrides.name = some value)
    (hsplit : value.toList.splitOn ',' = before ++ entry :: after)
    (hbad : ∀ o, Override.ofEntry entry ≠ .ok o) :
    ofEnvironment (Function.update lookup Variable.overrides.name
        (some (String.ofList ([','].intercalate (before ++ after))))) = ofEnvironment lookup := by
  simp only [ofEnvironment, Settings.mk.injEq, AlertSettings.mk.injEq, MemoSettings.mk.injEq]
  refine ⟨readVariable_update_of_ne (by decide) _, readVariable_update_of_ne (by decide) _, ?_,
    ⟨readVariable_update_of_ne (by decide) _, readVariable_update_of_ne (by decide) _,
      readVariable_update_of_ne (by decide) _⟩,
    readVariable_update_of_ne (by decide) _⟩
  rw [readVariable, readVariable, hvalue, Function.update_self, Option.bind_some,
    Option.bind_some, String.toList_ofList, readOverrides_without hsplit hbad]

end Reading

/-! ## Both ways -/

/-- Settings whose overrides have plain names are read back from every environment that writes
them.  And in every environment, a variable that cannot be read may be taken away, and so may an
entry of the list of overrides that is no override: the settings stay as they are. -/
theorem ofEnvironment_roundTrip_isolation (lookup : String → Option String) :
    (∀ s : Settings, (∀ o ∈ s.overrides, Override.PlainName o.name.toList) →
      Written lookup s → ofEnvironment lookup = s) ∧
    (∀ (which : Variable) (value : String), lookup which.name = some value →
      ¬ which.Readable value.toList →
      ofEnvironment (Function.update lookup which.name none) = ofEnvironment lookup) ∧
    ∀ (value : String) (before after : List (List Char)) (entry : List Char),
      lookup Variable.overrides.name = some value →
      value.toList.splitOn ',' = before ++ entry :: after →
      (∀ o, Override.ofEntry entry ≠ .ok o) →
      ofEnvironment (Function.update lookup Variable.overrides.name
        (some (String.ofList ([','].intercalate (before ++ after))))) = ofEnvironment lookup :=
  ⟨fun _ hplain hwritten => hwritten.ofEnvironment_eq hplain,
    fun _ _ => ofEnvironment_update_none,
    fun _ _ _ _ => ofEnvironment_update_entry⟩

/-- An environment written by hand. -/
def handwritten : List (String × String) :=
  [("BLVM_VERSIONBITS_NETWORK", " RegTest\t"),
    ("BLVM_VERSIONBITS_CLOCK_RULE", "MTP"),
    ("BLVM_VERSIONBITS_VBPARAMS", "csv: 10 :020, ,:5:6 "),
    ("BLVM_VERSIONBITS_WARNINGS_ENABLED", " false"),
    ("BLVM_VERSIONBITS_WARNINGS_WINDOW", "0200"),
    ("BLVM_VERSIONBITS_WARNINGS_UNEXPECTED_THRESHOLD", "75"),
    ("BLVM_VERSIONBITS_CACHE_EVICT_ON_REORG", "true ")]

/-- The settings that it writes. -/
def handwrittenSettings : Settings where
  network := .regtest
  clock := .medianTimePast
  overrides := [⟨"csv", 10, 20⟩, ⟨"", 5, 6⟩]
  alerts := ⟨false, 200, 75⟩
  memos := ⟨true⟩

theorem written_handwritten :
    Written (fun name => handwritten.lookup name) handwrittenSettings where
  network := ⟨" RegTest\t", rfl, "regtest", by decide, "RegTest".toList, by decide,
    .of_trim (by decide)⟩
  clock := ⟨"MTP", rfl, "mtp", by decide, "MTP".toList, by decide, .of_trim (by decide)⟩
  overrides := by
    have hcsv : Override.Spells ⟨"csv", 10, 20⟩
        ("csv".toList ++ ':' :: (" 10 ".toList ++ ':' :: "020".toList)) :=
      .parts (.of_trim (by decide)) (.of_trim (by decide)) (.of_trim (by decide))
    have hnoname : Override.Spells ⟨"", 5, 6⟩ ([] ++ ':' :: (['5'] ++ ':' :: ['6', ' '])) :=
      .parts (.of_trim (by decide)) (.of_trim (by decide)) (.of_trim (by decide))
    exact ⟨"csv: 10 :020, ,:5:6 ", rfl, ["csv: 10 :020".toList, [' '], ":5:6 ".toList],
      .entry hcsv (.blank (by decide) (.entry hnoname .nil)), by decide⟩
  alertsEnabled := ⟨" false", rfl, .of_trim (by decide)⟩
  alertsWindow := ⟨"0200", rfl, .of_trim (by decide)⟩
  alertsLimit := ⟨"75", rfl, .of_trim (by decide)⟩
  evictOnReorg := ⟨"true ", rfl, .of_trim (by decide)⟩

theorem plainName_handwritten :
    ∀ o ∈ handwrittenSettings.overrides, Override.PlainName o.name.toList :=
  List.forall_mem_cons.mpr ⟨⟨by decide, by decide, by decide⟩,
    List.forall_mem_singleton.mpr ⟨by decide, by decide, by decide⟩⟩

/-- An environment in which a network and an override are misspelled. -/
def misspelled : List (String × String) :=
  [("BLVM_VERSIONBITS_NETWORK", "signet"), ("BLVM_VERSIONBITS_VBPARAMS", "csv:1,segwit:0:10")]

/-- The settings written by hand are read as they are meant.  Where the network and an override
are misspelled, the settings are those without the variable and without the override. -/
theorem ofEnvironment_handwritten_misspelled :
    ofEnvironment (fun name => handwritten.lookup name) = handwrittenSettings ∧
    ofEnvironment (Function.update (fun name => misspelled.lookup name)
      "BLVM_VERSIONBITS_NETWORK" none) = ofEnvironment (fun name => misspelled.lookup name) ∧
    ofEnvironment (Function.update (fun name => misspelled.lookup name)
      "BLVM_VERSIONBITS_VBPARAMS" (some "segwit:0:10")) =
        ofEnvironment (fun name => misspelled.lookup name) := by
  have hnetwork : Network.ofSpelling "signet".toList =
      .error (.misconfigured (.unknownNetwork "signet")) := by decide
  have hentry : Override.ofEntry "csv:1".toList =
      .error (.misconfigured (.overrideShape "csv:1")) := by decide
  obtain ⟨-, hvariable, hdelete⟩ :=
    ofEnvironment_roundTrip_isolation fun name => misspelled.lookup name
  refine ⟨(ofEnvironment_roundTrip_isolation _).1 _ plainName_handwritten written_handwritten,
    hvariable .network "signet" rfl ?_, hdelete "csv:1,segwit:0:10" [] ["segwit:0:10".toList]
      "csv:1".toList rfl (by decide) ?_⟩
  · rintro ⟨n, hn⟩
    rw [hnetwork] at hn
    cases hn
  · intro o ho
    rw [hentry] at ho
    cases ho

end Settings
end SoftFork
