import SoftFork.Form.Chain
import SoftFork.Form.Rules
import SoftFork.Form.Survey

/-!
# Forms that lose nothing

A `LosslessForm` is one whose reader undoes its writer.  The plain values have it, and from
there it is passed on: to lists, to maps, and to every record all of whose fields have it.

For a record there is one thing to show, which is the same for all of them.  The fields that
have been written are found again by their names, each with the value that was written
(`record_fields`).  That takes different names and nothing else.  In which order the fields
were written does not matter, and the names of fields that were left out may be asked for as
well.  With it the reader of a record is put together from the readers of its fields.

A map is written in the order of its keys and read by inserting one entry after the other.
Since its keys are different, no entry is overwritten on the way.
-/

namespace SoftFork

open Form (encode decode)

/-- Every value is read as what was written. -/
class LosslessForm (α : Type) [Form α] : Prop where
  decode_encode : ∀ a : α, decode (encode a) = some a

namespace Json

variable {α : Type} [Form α]

/-! ## Finding what has been written -/

/-- A name that no field has finds none. -/
theorem lookup_eq_none {entries : List (String × Json)} {name : String}
    (h : name ∉ entries.map Prod.fst) : entries.lookup name = none := by
  rw [List.lookup_eq_none_iff]
  intro p hp
  have hmem : p.1 ∈ entries.map Prod.fst := List.mem_map_of_mem hp
  refine bne_iff_ne.mpr fun hname => h ?_
  rw [hname]
  exact hmem

/-- When names are different, a field is what its name finds. -/
theorem lookup_eq_some {entries : List (String × Json)} (h : (entries.map Prod.fst).Nodup)
    {name : String} {v : Json} (hmem : (name, v) ∈ entries) : entries.lookup name = some v := by
  obtain ⟨before, behind, rfl⟩ := List.append_of_mem hmem
  rw [List.map_append, List.map_cons, List.nodup_append] at h
  obtain ⟨-, -, hdifferent⟩ := h
  refine List.lookup_eq_some_iff.mpr ⟨before, behind, rfl, fun p hp => bne_iff_ne.mpr ?_⟩
  have hother : p.1 ∈ before.map Prod.fst := List.mem_map_of_mem hp
  exact (hdifferent p.1 hother name List.mem_cons_self).symm

/-- The fields with a given name, when names are different: the one that was written with
it, if one was. -/
theorem filter_eq_lookup {entries : List (String × Json)} (h : (entries.map Prod.fst).Nodup)
    (name : String) :
    (entries.map fun e => (some e.1, e.2)).filter
        (fun f : Option String × Json => f.1 == some name) =
      (entries.lookup name).toList.map fun v => (some name, v) := by
  induction entries with
  | nil => rfl
  | cons e rest ih =>
    obtain ⟨key, v⟩ := e
    rw [List.map_cons, List.nodup_cons] at h
    obtain ⟨hkey, hrest⟩ := h
    rw [List.map_cons, List.lookup_cons]
    by_cases heq : name = key
    · subst heq
      have hfirst : ((some name : Option String) == some name) = true := beq_self_eq_true _
      rw [List.filter_cons_of_pos (by exact hfirst), ih hrest, lookup_eq_none hkey,
        beq_self_eq_true]
      rfl
    · have hother : ¬ ((some key : Option String) == some name) = true :=
        fun hsome => heq (Option.some.inj (beq_iff_eq.mp hsome)).symm
      rw [List.filter_cons_of_neg (by exact hother), ih hrest, beq_false_of_ne heq]

theorem mapM_eq_some {f : String → Option (Option Json)} {g : String → Option Json}
    {names : List String} (h : ∀ name ∈ names, f name = some (g name)) :
    names.mapM f = some (names.map g) := by
  induction names with
  | nil => rfl
  | cons name names ih =>
    rw [List.mapM_cons, h name List.mem_cons_self,
      ih fun other hother => h other (List.mem_cons_of_mem _ hother)]
    rfl

/-- A record that has been written with different names is found again, field by field. -/
theorem record_fields {entries : List (String × Json)} (h : (entries.map Prod.fst).Nodup)
    (names : List String) :
    (fields entries).record names = some (names.map fun name => entries.lookup name) := by
  -- every key that has been written is a text, so no key is a reason to refuse
  have hkeys : (entries.map fun e => ((some e.1 : Option String), e.2)).any
      (fun e => e.1.isNone) = false := by
    rw [List.any_map, List.any_eq_false]
    exact fun e _ => by simp
  rw [fields, record, objectFields, hkeys]
  refine mapM_eq_some fun name _ => ?_
  rw [filter_eq_lookup h]
  cases entries.lookup name <;> rfl

/-! ## Fields -/

@[simp] theorem required_encode [LosslessForm α] (a : α) : required (some (encode a)) = some a :=
  LosslessForm.decode_encode a

@[simp] theorem orElse_encode [LosslessForm α] (default a : α) :
    orElse default (some (encode a)) = some a :=
  LosslessForm.decode_encode a

/-- A number that fits its field is read from it. -/
theorem requiredNat_nat {limit n : Nat} (h : n ≤ limit) :
    requiredNat limit (some (.nat n)) = some n :=
  natUpTo?_nat h

/-- A number that is read from a field fits the field. -/
theorem le_of_requiredNat {limit n : Nat} {field : Option Json}
    (h : requiredNat limit field = some n) : n ≤ limit := by
  obtain ⟨v, -, hv⟩ := Option.bind_eq_some_iff.mp h
  rw [natUpTo?.eq_def] at hv
  split at hv
  · split at hv
    · next hle => exact Option.some.inj hv ▸ hle
    · exact absurd hv (by simp)
  · exact absurd hv (by simp)

/-- What is read from a field that may be missing is read from the value there. -/
theorem exists_of_optional {field : Option Json} {a : α} (h : optional field = some (some a)) :
    ∃ v, field = some v ∧ decode v = some a := by
  rw [optional.eq_def] at h
  split at h
  · exact absurd h (by simp)
  · exact absurd h (by simp)
  · next v _ =>
    obtain ⟨b, hb, heq⟩ := Option.map_eq_some_iff.mp h
    exact ⟨v, rfl, Option.some.inj heq ▸ hb⟩

end Json

namespace LosslessForm

/-! ## Plain values -/

instance : LosslessForm Bool where
  decode_encode := Json.bool?_bool

instance : LosslessForm String where
  decode_encode := Json.text?_text

instance : LosslessForm UInt8 where
  decode_encode n := by
    have hle : n.toNat ≤ 0xFF := Nat.le_of_lt_succ n.toNat_lt
    show ((Json.nat n.toNat).natUpTo? _).map UInt8.ofNat = some n
    rw [Json.natUpTo?_nat hle, Option.map_some, UInt8.ofNat_toNat]

instance : LosslessForm UInt32 where
  decode_encode n := by
    have hle : n.toNat ≤ 0xFFFFFFFF := Nat.le_of_lt_succ n.toNat_lt
    show ((Json.nat n.toNat).natUpTo? _).map UInt32.ofNat = some n
    rw [Json.natUpTo?_nat hle, Option.map_some, UInt32.ofNat_toNat]

instance : LosslessForm UInt64 where
  decode_encode n := by
    have hle : n.toNat ≤ 0xFFFFFFFFFFFFFFFF := Nat.le_of_lt_succ n.toNat_lt
    show ((Json.nat n.toNat).natUpTo? _).map UInt64.ofNat = some n
    rw [Json.natUpTo?_nat hle, Option.map_some, UInt64.ofNat_toNat]

instance : LosslessForm Network where
  decode_encode := Form.decode_encode_network

instance : LosslessForm Clock where
  decode_encode := Form.decode_encode_clock

instance : LosslessForm Phase where
  decode_encode := Form.decode_encode_phase

/-! ## Lists and maps -/

/-- The entries of a map, inserted one after the other, make up the map. -/
theorem ofList_toList {α : Type} (m : Std.ExtTreeMap String α) :
    Std.ExtTreeMap.ofList m.toList = m := by
  refine Std.ExtTreeMap.ext_getElem? fun key => ?_
  cases hkey : m[key]? with
  | some a =>
    exact Std.ExtTreeMap.getElem?_ofList_of_mem Std.ReflCmp.compare_self
      Std.ExtTreeMap.distinct_keys_toList
      (Std.ExtTreeMap.mem_toList_iff_getElem?_eq_some.mpr hkey)
  | none =>
    refine Std.ExtTreeMap.getElem?_ofList_of_contains_eq_false ?_
    refine Bool.eq_false_iff.mpr fun hmem => ?_
    obtain ⟨e, he, rfl⟩ := List.mem_map.mp (List.contains_iff_mem.mp hmem)
    rw [Std.ExtTreeMap.mem_toList_iff_getElem?_eq_some.mp he] at hkey
    exact absurd hkey (by simp)

section Containers

variable {α : Type} [Form α] [LosslessForm α]

theorem mapM_decode (xs : List α) : (xs.map encode).mapM decode = some xs := by
  induction xs with
  | nil => rfl
  | cons x xs ih =>
    rw [List.map_cons, List.mapM_cons, decode_encode, ih]
    rfl

instance : LosslessForm (List α) where
  decode_encode := mapM_decode

theorem foldlM_insert (entries : List (String × α)) (found : Std.ExtTreeMap String α) :
    (entries.map fun e => ((some e.1 : Option String), encode e.2)).foldlM (fun found e => do
        let key ← e.1
        let value ← decode e.2
        return found.insert key value) found =
      some (entries.foldl (fun found e => found.insert e.1 e.2) found) := by
  induction entries generalizing found with
  | nil => rfl
  | cons e entries ih =>
    rw [List.map_cons, List.foldlM_cons]
    simp only [Option.bind_eq_bind, Option.bind_some, decode_encode, Option.pure_def]
    exact ih (found.insert e.1 e.2)

instance : LosslessForm (Std.ExtTreeMap String α) where
  decode_encode m := by
    have hentries := foldlM_insert m.toList ∅
    rw [← Std.ExtTreeMap.ofList_eq_foldl, ofList_toList] at hentries
    show Json.entries? (.fields (m.toList.map fun e => (e.1, encode e.2))) = some m
    rw [Json.fields, List.map_map]
    exact hentries

end Containers

/-! ## Hashes -/

instance : LosslessForm (Vector UInt8 32) where
  decode_encode bytes := by
    have hlist : decode (encode bytes.toList) = some bytes.toList := decode_encode _
    show (decode (encode bytes.toList)).bind bytes32? = some bytes
    rw [hlist, Option.bind_some, bytes32?_toList]

instance : LosslessForm BlockHash where
  decode_encode h := congrArg (Option.map BlockHash.mk) (decode_encode h.bytes)

end LosslessForm
end SoftFork
