import SoftFork.Proofs.Form.Lossless
import SoftFork.Proofs.Json.Spelling

/-!
# Written records that have been edited

Between being written and being read a record passes through other hands: an operator strikes
out the settings that are not of interest, a newer program adds fields of its own, a careless
one puts `null` where it has nothing to say.  An `Edit` is any such change.  For every field of
every object of a value it says whether the field is kept, struck out or made `null`, and which
further fields are put in front of it or at the end of the object.  It is given by place, so it
may treat the sections of a record, and the items of its lists, each in its own way.

What an edit does to a reader depends on what the fields are, which is the `Schema` of the
record.  An edit `AddsUnknown` when no field that it adds has a name declared at that place, and
it `Spoils` a value when it strikes out a required field or makes a field `null` that must not
be, in any part of the value that is left.

That a type `Heeds` its schema is then one statement about its reader: nothing is read from what
an edit has spoiled, and from anything else the value with its defaults is.  It is put together
field by field.  Each field of an edited record is found by its name, whatever has been added
(`record_apply`), and is read for itself; a reader that takes one field after the other fails
when one of them does (`YieldsUnless.bind`).
-/

namespace SoftFork

open Form (encode decode)

namespace Json

/-! ## Edits -/

/-- A way down into a value: to a field of an object or to an item of an array. -/
inductive Step where
  | field (name : String)
  | item (position : Nat)
  deriving DecidableEq

/-- What becomes of a field. -/
inductive Fate where
  | kept
  | omitted
  | nulled
  deriving DecidableEq

/-- What is left of a field with the given value. -/
def Fate.leaves : Fate → Json → Option Json
  | .kept, v => some v
  | .omitted, _ => none
  | .nulled, _ => some .null

/-- A change to the objects of a value, by their places in it. -/
structure Edit where
  /-- What becomes of the field with the given name, in the object at a place. -/
  fate : List Step → String → Fate
  /-- The fields that are put in front of the field with the given name, or, without a name, at
  the end of the object. -/
  added : List Step → Option String → List (String × Json)

namespace Edit

/-- The change to the part of a value one step down. -/
def into (e : Edit) (step : Step) : Edit where
  fate place := e.fate (step :: place)
  added place := e.added (step :: place)

/-- The entries added to the outermost object, with their keys as read. -/
def news (e : Edit) (next : Option String) : List (Option String × Json) :=
  (e.added [] next).map fun f => (some f.1, f.2)

mutual

/-- The value after the edit. -/
def apply (e : Edit) : Json → Json
  | .array items => .array (e.applyItems 0 items)
  | .object entries => .object (e.applyEntries entries)
  | v => v

/-- The items of an array from a position on, after the edit. -/
def applyItems (e : Edit) (position : Nat) : List Json → List Json
  | [] => []
  | v :: items => (e.into (.item position)).apply v :: e.applyItems (position + 1) items

/-- The entries of an object after the edit.  A key that denotes no text names no field, so its
entry stays. -/
def applyEntries (e : Edit) : List (Option String × Json) → List (Option String × Json)
  | [] => e.news none
  | (none, v) :: entries => (none, v) :: e.applyEntries entries
  | (some name, v) :: entries =>
    e.news (some name) ++
      ((((e.fate [] name).leaves ((e.into (.field name)).apply v)).toList.map
        fun w => (some name, w)) ++ e.applyEntries entries)

end

/-- The field with the given name, after the edit. -/
def field (e : Edit) (name : String) (v : Json) : Option Json :=
  (e.fate [] name).leaves ((e.into (.field name)).apply v)

/-- What a field is read as: what it is where it is kept, and its default elsewhere. -/
def orDefault {α : Type} (e : Edit) (name : String) (default kept : α) : α :=
  if e.fate [] name = .kept then kept else default

end Edit

/-! ## Schemas -/

/-- How a field may be missing. -/
inductive Presence where
  /-- It may not. -/
  | required
  /-- It may be left out. -/
  | optional
  /-- It may be left out, and it may be `null`. -/
  | nullable
  deriving DecidableEq

/-- What is declared about the values of a type. -/
inductive Schema where
  /-- Nothing: the value has no fields. -/
  | plain
  /-- All items of a list are alike. -/
  | each (item : Schema)
  /-- A record has these fields. -/
  | record (fields : List (String × Presence × Schema))

namespace Schema

/-- The declared fields. -/
def declared : Schema → List (String × Presence × Schema)
  | .record fields => fields
  | _ => []

/-- The names of the declared fields. -/
def names (S : Schema) : List String :=
  S.declared.map Prod.fst

/-- What is declared one step down. -/
def into : Schema → Step → Schema
  | .record fields, .field name => ((fields.lookup name).map Prod.snd).getD .plain
  | .each item, .item _ => item
  | _, _ => .plain

/-- What is declared at a place. -/
def along (S : Schema) (place : List Step) : Schema :=
  place.foldl into S

end Schema

namespace Edit

/-- No field that is added anywhere has a name that is declared there. -/
def AddsUnknown (e : Edit) (S : Schema) : Prop :=
  ∀ place next, ∀ f ∈ e.added place next, f.1 ∉ (S.along place).names

/-- Nothing is struck out but fields with a default, and nothing made `null` that must have a
value. -/
def Spares (e : Edit) (S : Schema) : Prop :=
  ∀ place, ∀ f ∈ (S.along place).declared,
    (e.fate place f.1 = .omitted → f.2.1 ≠ .required) ∧
      (e.fate place f.1 = .nulled → f.2.1 = .nullable)

/-- The edit takes something from a value that a reader cannot do without. -/
inductive Spoils : Edit → Schema → Json → Prop
  /-- A required field is struck out. -/
  | missing {e : Edit} {S : Schema} {entries : List (Option String × Json)}
      {f : String × Presence × Schema} {v : Json} (hfield : f ∈ S.declared)
      (hentry : (some f.1, v) ∈ entries) (hfate : e.fate [] f.1 = .omitted)
      (hpresence : f.2.1 = .required) : Spoils e S (.object entries)
  /-- A field is made `null` that must have a value. -/
  | null {e : Edit} {S : Schema} {entries : List (Option String × Json)}
      {f : String × Presence × Schema} {v : Json} (hfield : f ∈ S.declared)
      (hentry : (some f.1, v) ∈ entries) (hfate : e.fate [] f.1 = .nulled)
      (hpresence : f.2.1 ≠ .nullable) : Spoils e S (.object entries)
  /-- A field that is kept is spoiled. -/
  | within {e : Edit} {S : Schema} {entries : List (Option String × Json)}
      {f : String × Presence × Schema} {v : Json} (hfield : f ∈ S.declared)
      (hentry : (some f.1, v) ∈ entries) (hfate : e.fate [] f.1 = .kept)
      (hwithin : (e.into (.field f.1)).Spoils (S.into (.field f.1)) v) :
      Spoils e S (.object entries)
  /-- An item is spoiled. -/
  | item {e : Edit} {S : Schema} {items : List Json} {position : Nat} {v : Json}
      (hitem : items[position]? = some v)
      (hwithin : (e.into (.item position)).Spoils (S.into (.item position)) v) :
      Spoils e S (.array items)

/-! ## Finding a field after an edit -/

variable {e : Edit} {S : Schema}

theorem AddsUnknown.into (h : e.AddsUnknown S) (step : Step) :
    (e.into step).AddsUnknown (S.into step) :=
  fun place next f hf => h (step :: place) next f hf

theorem Spares.into (h : e.Spares S) (step : Step) : (e.into step).Spares (S.into step) :=
  fun place f hf => h (step :: place) f hf

/-- An edit that spares what is needed leaves every value readable. -/
theorem Spares.not_spoils (h : e.Spares S) {v : Json} : ¬ e.Spoils S v := by
  intro hspoils
  induction hspoils with
  | missing hfield _ hfate hpresence => exact (h [] _ hfield).1 hfate hpresence
  | null hfield _ hfate hpresence => exact hpresence ((h [] _ hfield).2 hfate)
  | within _ _ _ _ ih => exact ih (h.into _)
  | item _ _ ih => exact ih (h.into _)

theorem filter_same (name : String) (vs : List Json) :
    (vs.map fun v => ((some name : Option String), v)).filter (fun f => f.1 == some name) =
      vs.map fun v => (some name, v) :=
  List.filter_eq_self.mpr fun f hf => by
    obtain ⟨v, -, rfl⟩ := List.mem_map.mp hf
    exact beq_self_eq_true _

theorem filter_other {name key : String} (hne : name ≠ key) (vs : List Json) :
    (vs.map fun v => ((some key : Option String), v)).filter (fun f => f.1 == some name) = [] :=
  List.filter_eq_nil_iff.mpr fun f hf => by
    obtain ⟨v, -, rfl⟩ := List.mem_map.mp hf
    exact fun hsome => hne (Option.some.inj (beq_iff_eq.mp hsome)).symm

/-- What is added is not what a declared name finds. -/
theorem AddsUnknown.filter_news (h : e.AddsUnknown S) {name : String} (hname : name ∈ S.names)
    (next : Option String) : (e.news next).filter (fun f => f.1 == some name) = [] :=
  List.filter_eq_nil_iff.mpr fun f hf => by
    obtain ⟨g, hg, rfl⟩ := List.mem_map.mp hf
    intro hsome
    have hsame : g.1 = name := Option.some.inj (beq_iff_eq.mp hsome)
    exact h [] next g hg (hsame ▸ hname)

theorem applyEntries_some (name : String) (v : Json) (entries : List (Option String × Json)) :
    e.applyEntries ((some name, v) :: entries) = e.news (some name) ++
      ((e.field name v).toList.map (fun w => (some name, w)) ++ e.applyEntries entries) := by
  rw [applyEntries, field]

/-- The entries that a declared name finds after the edit: what the edit leaves of the field that
was written with it, if one was. -/
theorem AddsUnknown.filter_applyEntries (h : e.AddsUnknown S) {name : String}
    (hname : name ∈ S.names) {entries : List (String × Json)}
    (hnodup : (entries.map Prod.fst).Nodup) :
    (e.applyEntries (entries.map fun f => (some f.1, f.2))).filter
        (fun f => f.1 == some name) =
      ((entries.lookup name).bind (e.field name)).toList.map fun w => (some name, w) := by
  induction entries with
  | nil =>
    rw [List.map_nil, applyEntries, h.filter_news hname]
    rfl
  | cons f rest ih =>
    obtain ⟨key, v⟩ := f
    rw [List.map_cons, List.nodup_cons] at hnodup
    obtain ⟨hkey, hrest⟩ := hnodup
    rw [List.map_cons, applyEntries_some, List.filter_append, List.filter_append,
      h.filter_news hname, List.nil_append, ih hrest, List.lookup_cons]
    by_cases heq : name = key
    · subst heq
      rw [filter_same, lookup_eq_none hkey, beq_self_eq_true, Option.bind_none]
      exact List.append_nil _
    · rw [filter_other heq, List.nil_append, beq_false_of_ne heq]

/-- An edit leaves every key a text. -/
theorem isSome_of_mem_applyEntries {entries : List (String × Json)} {f : Option String × Json}
    (hf : f ∈ e.applyEntries (entries.map fun f => (some f.1, f.2))) : f.1.isSome := by
  have hnews : ∀ {next}, f ∈ e.news next → f.1.isSome := by
    intro next hmem
    obtain ⟨g, -, rfl⟩ := List.mem_map.mp hmem
    rfl
  induction entries with
  | nil =>
    rw [List.map_nil, applyEntries] at hf
    exact hnews hf
  | cons g rest ih =>
    rw [List.map_cons, applyEntries_some, List.mem_append, List.mem_append] at hf
    obtain hf | hf | hf := hf
    · exact hnews hf
    · obtain ⟨w, -, rfl⟩ := List.mem_map.mp hf
      rfl
    · exact ih hf

/-- The declared fields of an edited record are found by their names, each as the edit has left
it. -/
theorem AddsUnknown.record_apply (h : e.AddsUnknown S) {entries : List (String × Json)}
    (hnodup : (entries.map Prod.fst).Nodup) :
    (e.apply (Json.fields entries)).record S.names =
      some (S.names.map fun name => (entries.lookup name).bind (e.field name)) := by
  have hkeys : (e.applyEntries (entries.map fun f => (some f.1, f.2))).any
      (fun f => f.1.isNone) = false :=
    List.any_eq_false.mpr fun f hf =>
      Bool.not_eq_true _ ▸ Option.isNone_eq_false_iff.mpr (isSome_of_mem_applyEntries hf)
  rw [Json.fields, apply, record, objectFields, hkeys]
  refine mapM_eq_some fun name hname => ?_
  rw [h.filter_applyEntries hname hnodup]
  cases (entries.lookup name).bind (e.field name) <;> rfl

/-! ## What spoils a record -/

/-- The edit spoils a field with the given name, presence and schema, whose value is given if there
is one. -/
def SpoilsField (e : Edit) (name : String) (presence : Presence) (S : Schema) :
    Option Json → Prop
  | none => False
  | some v =>
    match e.fate [] name with
    | .kept => (e.into (.field name)).Spoils S v
    | .omitted => presence = .required
    | .nulled => presence ≠ .nullable

theorem mem_entries_iff {entries : List (String × Json)} (hnodup : (entries.map Prod.fst).Nodup)
    {name : String} {v : Json} :
    (some name, v) ∈ entries.map (fun f => (some f.1, f.2)) ↔ entries.lookup name = some v := by
  constructor
  · intro hentry
    obtain ⟨f, hf, heq⟩ := List.mem_map.mp hentry
    obtain ⟨hname, rfl⟩ := Prod.mk.inj heq
    obtain rfl := Option.some.inj hname
    exact lookup_eq_some hnodup hf
  · intro hlookup
    obtain ⟨before, behind, rfl, -⟩ := List.lookup_eq_some_iff.mp hlookup
    exact List.mem_map_of_mem (a := (name, v)) (List.mem_append_right _ List.mem_cons_self)

/-- A record is spoiled when one of its declared fields is. -/
theorem spoils_record {entries : List (String × Json)} (hnodup : (entries.map Prod.fst).Nodup) :
    e.Spoils S (Json.fields entries) ↔ ∃ f ∈ S.declared,
      e.SpoilsField f.1 f.2.1 (S.into (.field f.1)) (entries.lookup f.1) := by
  constructor
  · rintro (⟨hfield, hentry, hfate, hspoils⟩ | ⟨hfield, hentry, hfate, hspoils⟩ |
      ⟨hfield, hentry, hfate, hspoils⟩)
    all_goals
      refine ⟨_, hfield, ?_⟩
      rw [(mem_entries_iff hnodup).mp hentry, SpoilsField, hfate]
      exact hspoils
  · rintro ⟨f, hfield, hspoils⟩
    cases hlookup : entries.lookup f.1 with
    | none =>
      rw [hlookup] at hspoils
      exact hspoils.elim
    | some v =>
      rw [hlookup, SpoilsField] at hspoils
      have hentry := (mem_entries_iff hnodup).mpr hlookup
      cases hfate : e.fate [] f.1 with
      | kept =>
        rw [hfate] at hspoils
        exact .within hfield hentry hfate hspoils
      | omitted =>
        rw [hfate] at hspoils
        exact .missing hfield hentry hfate hspoils
      | nulled =>
        rw [hfate] at hspoils
        exact .null hfield hentry hfate hspoils

end Edit

/-! ## Reading that may be refused -/

variable {α β : Type}

/-- The reading gives `a`, unless `P`, and then it is refused. -/
structure YieldsUnless (P : Prop) (a : α) (reading : Option α) : Prop where
  refused : P → reading = none
  given : ¬ P → reading = some a

namespace YieldsUnless

variable {P Q : Prop} {a : α} {b : β} {reading : Option α} {next : α → Option β}

theorem some (a : α) : YieldsUnless False a (some a) :=
  ⟨False.elim, fun _ => rfl⟩

theorem congr (h : YieldsUnless P a reading) (hiff : Q ↔ P) : YieldsUnless Q a reading :=
  ⟨fun hQ => h.refused (hiff.mp hQ), fun hQ => h.given fun hP => hQ (hiff.mpr hP)⟩

/-- One reading after another is refused when one of them is. -/
theorem bind (h : YieldsUnless P a reading) (hnext : YieldsUnless Q b (next a)) :
    YieldsUnless (P ∨ Q) b (reading.bind next) := by
  by_cases hP : P
  · refine ⟨fun _ => ?_, fun hneither => absurd (.inl hP) hneither⟩
    rw [h.refused hP, Option.bind_none]
  · rw [h.given hP, Option.bind_some]
    exact hnext.congr (or_iff_right hP)

section Members

variable {γ : Type} {p : γ → Prop} {first : γ} {rest : List γ}

theorem nil (a : α) : YieldsUnless (∃ c ∈ [], p c) a (Option.some a) :=
  (some a).congr (by simp)

/-- One reading after another, where there is a list of reasons to refuse. -/
theorem cons (h : YieldsUnless (p first) a reading)
    (hnext : YieldsUnless (∃ c ∈ rest, p c) b (next a)) :
    YieldsUnless (∃ c ∈ first :: rest, p c) b (reading.bind next) :=
  (h.bind hnext).congr (List.exists_mem_cons_iff ..)

end Members

theorem map (h : YieldsUnless P a reading) (f : α → β) :
    YieldsUnless P (f a) (reading.map f) :=
  ⟨fun hP => by rw [h.refused hP, Option.map_none],
    fun hP => by rw [h.given hP, Option.map_some]⟩

end YieldsUnless

/-! ## Reading what has been edited -/

/-- The values of a type are plain: they have no parts, and `null` is none of them. -/
class PlainForm (α : Type) [Form α] : Prop extends LosslessForm α where
  isScalar : ∀ a : α, (encode a).IsScalar
  decode_null : decode .null = (none : Option α)

/-- Whatever an edit makes of a written value, it is read as the schema has it: refused when
spoiled, and with defaults for what has been left out otherwise. -/
structure Heeds [Form α] (S : Schema) (left : Edit → α → α) (a : α) : Prop where
  decode_null : decode .null = (none : Option α)
  decode_apply : ∀ e : Edit, e.AddsUnknown S →
    YieldsUnless (e.Spoils S (encode a)) (left e a) (decode (e.apply (encode a)))

section Fields

variable {e : Edit} {S : Schema} {name : String} {v : Json}

theorem Edit.apply_of_isScalar (hv : v.IsScalar) : e.apply v = v := by
  cases v with
  | array items => exact absurd hv (by simp [IsScalar])
  | object entries => exact absurd hv (by simp [IsScalar])
  | _ => rw [Edit.apply] <;> simp

theorem Edit.apply_fields_ne_null (entries : List (String × Json)) :
    e.apply (Json.fields entries) ≠ .null := by
  rw [Json.fields, Edit.apply]
  simp

/-- A value without parts is read as it is. -/
theorem Edit.yields_scalar {read : Json → Option β} {b : β} (hv : v.IsScalar)
    (hread : read v = some b) : YieldsUnless (e.Spoils S v) b (read (e.apply v)) := by
  rw [Edit.apply_of_isScalar hv]
  refine ⟨fun hspoils => ?_, fun _ => hread⟩
  cases hspoils <;> exact absurd hv (by simp [IsScalar])

/-- A required field, whatever it is read with. -/
theorem Edit.yields_required {read : Json → Option β} {b : β} (hnull : read .null = none)
    (hkept : YieldsUnless ((e.into (.field name)).Spoils S v) b
      (read ((e.into (.field name)).apply v))) :
    YieldsUnless (e.SpoilsField name .required S (some v)) b ((e.field name v).bind read) := by
  rw [Edit.SpoilsField, Edit.field]
  cases hfate : e.fate [] name with
  | kept => exact hkept
  | omitted => exact ⟨fun _ => rfl, fun h => absurd rfl h⟩
  | nulled => exact ⟨fun _ => hnull, fun h => absurd (by simp) h⟩

/-- A required number that fits its field. -/
theorem Edit.yields_requiredNat {limit n : Nat} (h : n ≤ limit) :
    YieldsUnless (e.SpoilsField name .required .plain (some (.nat n))) n
      (requiredNat limit (e.field name (.nat n))) :=
  Edit.yields_required rfl (Edit.yields_scalar trivial (natUpTo?_nat h))

end Fields

namespace Heeds

variable [Form α] {e : Edit} {S : Schema} {left : Edit → α → α} {a : α} {name : String}

theorem plain [PlainForm α] (a : α) : Heeds .plain (fun _ a => a) a where
  decode_null := PlainForm.decode_null
  decode_apply _ _ := Edit.yields_scalar (PlainForm.isScalar a) (LosslessForm.decode_encode a)

theorem required (h : Heeds S left a) (hunknown : (e.into (.field name)).AddsUnknown S) :
    YieldsUnless (e.SpoilsField name .required S (some (encode a)))
      (left (e.into (.field name)) a) (Json.required (e.field name (encode a))) :=
  Edit.yields_required h.decode_null (h.decode_apply _ hunknown)

theorem orElse (h : Heeds S left a) (hunknown : (e.into (.field name)).AddsUnknown S)
    (default : α) :
    YieldsUnless (e.SpoilsField name .optional S (some (encode a)))
      (e.orDefault name default (left (e.into (.field name)) a))
      (Json.orElse default (e.field name (encode a))) := by
  rw [Edit.SpoilsField, Edit.field, Edit.orDefault]
  cases hfate : e.fate [] name with
  | kept => exact h.decode_apply _ hunknown
  | omitted => exact ⟨fun h => absurd h (by simp), fun _ => rfl⟩
  | nulled => exact ⟨fun _ => h.decode_null, fun h => absurd (by simp) h⟩

/-- A field that is missing or `null` where there is nothing. -/
theorem optional {found : Option α} (h : ∀ a, found = some a → Heeds S left a)
    (hunknown : (e.into (.field name)).AddsUnknown S)
    (hvalue : ∀ a : α, (e.into (.field name)).apply (encode a) ≠ .null) :
    YieldsUnless (e.SpoilsField name .nullable S (found.map encode))
      (e.orDefault name none (found.map (left (e.into (.field name)))))
      (Json.optional ((found.map encode).bind (e.field name))) := by
  cases found with
  | none => exact ⟨False.elim, fun _ => congrArg some (ite_self none).symm⟩
  | some a =>
    rw [Option.map_some, Option.map_some, Option.bind_some, Edit.SpoilsField, Edit.field,
      Edit.orDefault]
    cases hfate : e.fate [] name with
    | kept =>
      have hread : Json.optional (some ((e.into (.field name)).apply (encode a))) =
          (decode ((e.into (.field name)).apply (encode a)) : Option α).map some := by
        rw [Json.optional.eq_def]
        split
        · next hnone => exact absurd hnone (by simp)
        · next hnull => exact absurd (Option.some.inj hnull) (hvalue a)
        · next w hw => rw [Option.some.inj hw]
      rw [Fate.leaves, hread]
      exact ((h a rfl).decode_apply _ hunknown).map some
    | omitted => exact ⟨fun h => absurd h (by simp), fun _ => rfl⟩
    | nulled => exact ⟨fun h => absurd rfl h, fun _ => rfl⟩

/-- The items of a list from a position on are read one by one.  None of them has a field with a
default. -/
theorem items {as : List α} (h : ∀ a ∈ as, Heeds S (fun _ a => a) a)
    (hunknown : e.AddsUnknown (.each S)) (position : Nat) :
    YieldsUnless (∃ i v, (as.map encode)[i]? = some v ∧ (e.into (.item (position + i))).Spoils S v)
      as ((e.applyItems position (as.map encode)).mapM decode) := by
  induction as generalizing position with
  | nil => exact ⟨fun ⟨i, v, hitem, _⟩ => absurd hitem (by simp), fun _ => rfl⟩
  | cons a as ih =>
    rw [List.map_cons, Edit.applyItems, List.mapM_cons]
    have hfirst := (h a List.mem_cons_self).decode_apply _ (hunknown.into (.item position))
    have hrest := ih (fun b hb => h b (List.mem_cons_of_mem _ hb)) (position + 1)
    refine (hfirst.bind (hrest.bind (.some (a :: as)))).congr ?_
    rw [← Nat.or_exists_add_one, or_false]
    simp [Nat.add_assoc, Nat.add_comm 1]

/-- A list heeds what its items do. -/
theorem list {as : List α} (h : ∀ a ∈ as, Heeds S (fun _ a => a) a) :
    Heeds (.each S) (fun _ as => as) as where
  decode_null := rfl
  decode_apply e hunknown := by
    refine (items h hunknown 0).congr ⟨?_, ?_⟩
    · intro hspoils
      cases hspoils with
      | item hitem hwithin => exact ⟨_, _, hitem, by rwa [Nat.zero_add]⟩
    · rintro ⟨position, v, hitem, hwithin⟩
      rw [Nat.zero_add] at hwithin
      exact .item hitem hwithin

end Heeds
end Json
end SoftFork
