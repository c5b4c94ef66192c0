import Mathlib.Data.List.Nodup
import SoftFork.Proofs.Standing.Coherence

/-!
# What is evicted

Memories of a block are of use as long as the block may still come to lie below a tip.  Eviction is
told which tips those are, collects them with all their ancestors, and forgets the rest.

## Collecting

The walk down from a tip stops at a block that has been collected before.  That is right if all its
ancestors have been collected too, and while a walk is under way this is not so: the parent of the
last block is missing.  `ClosedBut` allows for the one block at which the walk stands.  It is kept
by every step, and when the walk ends, at a block that was there or at one without a parent,
nothing is missing any more (`Sound.addLineage_eq_ok`).  Hence it does not matter in which order
the tips are given, or how often.

A tip that is not stored cannot have been collected, so its walk is refused at once, and since
nothing is forgotten before all of them have been collected, the refusal leaves the memory as it
was.

## Counting

The answer is a difference of two sizes.  It is the number of the entries that are lost, over all
slots, and each of them is counted once (`MemoBank.length_lost`).
-/

namespace SoftFork

/-! ## The slots of a bank -/

/-- What a memo loses to a test. -/
def Memo.lost (m : Memo) (test : BlockId → Bool) : List BlockId :=
  m.keys.filter fun id => !test id

theorem Memo.mem_lost {m : Memo} {test : BlockId → Bool} {id : BlockId} :
    id ∈ m.lost test ↔ id ∈ m ∧ test id = false := by
  rw [lost, List.mem_filter, Std.ExtTreeMap.mem_keys, Bool.not_eq_true']

theorem Memo.length_lost (m : Memo) (test : BlockId → Bool) :
    (m.lost test).length + (m.keep test).size = m.size := by
  have hsplit := List.length_eq_length_filter_add (l := m.keys) test
  rw [Std.ExtTreeMap.length_keys] at hsplit
  rw [lost, keep, ← Std.ExtTreeMap.length_keys, Std.ExtTreeMap.keys_filter_key, hsplit]
  exact Nat.add_comm _ _

namespace MemoBank

/-- The memos with their slots. -/
def slots (bank : MemoBank) : List (Slot × Memo) :=
  (bank.deployments.zipIdx.map fun e => (.deployment e.2, e.1)) ++
    bank.bits.zipIdx.map fun e => (.bit e.2, e.1)

theorem mem_slots {bank : MemoBank} {slot : Slot} {m : Memo} :
    (slot, m) ∈ bank.slots ↔ bank.get slot = .ok m := by
  rw [slots, List.mem_append, List.mem_map, List.mem_map]
  cases slot with
  | deployment i =>
    have hget : bank.get (.deployment i) = .ok m ↔ bank.deployments[i]? = some m := by
      rw [get]
      cases bank.deployments[i]? <;> simp
    rw [hget]
    simp [List.mem_zipIdx_iff_getElem?]
  | bit i =>
    have hget : bank.get (.bit i) = .ok m ↔ bank.bits[i]? = some m := by
      rw [get]
      cases bank.bits[i]? <;> simp
    rw [hget]
    simp [List.mem_zipIdx_iff_getElem?]

theorem nodup_slots (bank : MemoBank) : (bank.slots.map Prod.fst).Nodup := by
  have hfst : ∀ (memos : List Memo) (slot : Nat → Slot),
      (memos.zipIdx.map fun e => (slot e.2, e.1)).map Prod.fst =
        (List.range' 0 memos.length).map slot := by
    intro memos slot
    rw [← List.zipIdx_map_snd 0 memos, List.map_map, List.map_map]
    rfl
  rw [slots, List.map_append, hfst, hfst]
  refine List.nodup_append.mpr ⟨?_, ?_, ?_⟩
  · exact List.Nodup.map (fun _ _ h => Slot.deployment.inj h) List.nodup_range'
  · exact List.Nodup.map (fun _ _ h => Slot.bit.inj h) List.nodup_range'
  · intro a ha b hb
    obtain ⟨i, -, rfl⟩ := List.mem_map.mp ha
    obtain ⟨j, -, rfl⟩ := List.mem_map.mp hb
    exact Slot.noConfusion

theorem size_eq_length (bank : MemoBank) :
    bank.size = (bank.slots.flatMap fun e => e.2.keys).length := by
  have hsnd : bank.slots.map Prod.snd = bank.deployments ++ bank.bits := by
    simp [slots, Function.comp_def]
  simp only [List.length_flatMap, Std.ExtTreeMap.length_keys]
  rw [size, ← hsnd, List.foldl_map, List.sum_eq_foldl, List.foldl_map]

theorem slots_keep (bank : MemoBank) (test : BlockId → Bool) :
    (bank.keep test).slots = bank.slots.map fun e => (e.1, e.2.keep test) := by
  simp [slots, keep, List.zipIdx_map, Function.comp_def]

/-- What all slots lose to a test. -/
def lost (bank : MemoBank) (test : BlockId → Bool) : List (Slot × BlockId) :=
  bank.slots.flatMap fun e => (e.2.lost test).map (Prod.mk e.1)

theorem mem_lost {bank : MemoBank} {test : BlockId → Bool} {slot : Slot} {id : BlockId} :
    (slot, id) ∈ bank.lost test ↔ ∃ m, bank.get slot = .ok m ∧ id ∈ m ∧ test id = false := by
  rw [lost, List.mem_flatMap]
  constructor
  · rintro ⟨⟨slot', m⟩, hslot, hid⟩
    obtain ⟨id', hlost, heq⟩ := List.mem_map.mp hid
    obtain ⟨rfl, rfl⟩ := Prod.mk.inj heq
    exact ⟨m, mem_slots.mp hslot, Memo.mem_lost.mp hlost⟩
  · rintro ⟨m, hm, hlost⟩
    exact ⟨(slot, m), mem_slots.mpr hm, List.mem_map.mpr ⟨id, Memo.mem_lost.mpr hlost, rfl⟩⟩

theorem nodup_lost (bank : MemoBank) (test : BlockId → Bool) : (bank.lost test).Nodup := by
  refine List.nodup_flatMap.mpr ⟨fun e _ => ?_, ?_⟩
  · exact (e.2.nodup_keys.filter _).map fun _ _ h => (Prod.mk.inj h).2
  · refine (List.pairwise_map.mp bank.nodup_slots).imp fun {e e'} hne x hx hx' => ?_
    obtain ⟨_, -, rfl⟩ := List.mem_map.mp hx
    obtain ⟨_, -, heq⟩ := List.mem_map.mp hx'
    exact hne (Prod.mk.inj heq).1.symm

theorem length_lost (bank : MemoBank) (test : BlockId → Bool) :
    (bank.lost test).length + (bank.keep test).size = bank.size := by
  rw [size_eq_length, size_eq_length, slots_keep, lost, List.flatMap_map]
  induction bank.slots with
  | nil => rfl
  | cons e rest ih =>
    have he := e.2.length_lost test
    simp only [List.flatMap_cons, List.length_append, List.length_map,
      Std.ExtTreeMap.length_keys] at ih ⊢
    omega

end MemoBank

namespace BlockTree

/-! ## Collecting ancestors -/

theorem mem_insert_iff {seen : Std.ExtTreeSet BlockId} {id a : BlockId} :
    a ∈ seen.insert id ↔ a = id ∨ a ∈ seen := by
  rw [Std.ExtTreeSet.mem_insert, Std.LawfulEqCmp.compare_eq_iff_eq, eq_comm]

/-- With a block of the set its parent is in the set, or is the one block that may be missing. -/
def ClosedBut (t : BlockTree) (id : BlockId) (seen : Std.ExtTreeSet BlockId) : Prop :=
  ∀ x ∈ seen, ∀ b p, t.block? x = some b → b.parent = some p → p ∈ seen ∨ p = id

/-- With a block of the set everything that it stands on is in the set. -/
def Closed (t : BlockTree) (seen : Std.ExtTreeSet BlockId) : Prop :=
  ∀ x ∈ seen, ∀ a, StandsOn t.block? x a → a ∈ seen

variable {t : BlockTree} {seen : Std.ExtTreeSet BlockId}

theorem Closed.closedBut (h : t.Closed seen) (id : BlockId) : t.ClosedBut id seen :=
  fun x hx _ _ hb hparent => Or.inl (h x hx _ (.parent .self hb hparent))

/-- When the block that may be missing is in the set, nothing is. -/
theorem ClosedBut.closed {id : BlockId} (h : t.ClosedBut id seen) (hid : id ∈ seen) :
    t.Closed seen := by
  intro x hx a ha
  induction ha with
  | self => exact hx
  | parent _ hb hparent ih =>
    rcases h _ ih _ _ hb hparent with hp | rfl
    · exact hp
    · exact hid

theorem ClosedBut.insert {id p : BlockId} {b : Block} (h : t.ClosedBut id seen)
    (hb : t.block? id = some b) (hparent : b.parent = some p) :
    t.ClosedBut p (seen.insert id) := by
  intro x hx c q hc hq
  rcases mem_insert_iff.mp hx with rfl | hx
  · obtain rfl := Option.some.inj (hc.symm.trans hb)
    exact Or.inr (Option.some.inj (hq.symm.trans hparent))
  · exact Or.inl (mem_insert_iff.mpr ((h x hx c q hc hq).symm))

section Walk

variable {id : BlockId} {b : Block} (steps : Nat)

theorem addLineage_of_mem (hid : id ∈ seen) :
    t.view.addLineage (steps + 1) id seen = .ok seen := by
  rw [View.addLineage, if_pos (Std.ExtTreeSet.contains_iff_mem.mpr hid)]

theorem addLineage_of_oldest (hid : id ∉ seen) (hb : t.block? id = some b)
    (hparent : b.parent = none) :
    t.view.addLineage (steps + 1) id seen = .ok (seen.insert id) := by
  rw [View.addLineage, if_neg (mt Std.ExtTreeSet.contains_iff_mem.mp hid),
    View.get_eq_ok (v := t.view) hb, ok_bind, hparent]
  rfl

theorem addLineage_of_parent {p : BlockId} (hid : id ∉ seen) (hb : t.block? id = some b)
    (hparent : b.parent = some p) :
    t.view.addLineage (steps + 1) id seen = t.view.addLineage steps p (seen.insert id) := by
  rw [View.addLineage, if_neg (mt Std.ExtTreeSet.contains_iff_mem.mp hid),
    View.get_eq_ok (v := t.view) hb, ok_bind, hparent]

theorem addLineage_of_unknown (hid : id ∉ seen) (hb : t.block? id = none) :
    t.view.addLineage (steps + 1) id seen = .error (.unknownBlock id) := by
  rw [View.addLineage, if_neg (mt Std.ExtTreeSet.contains_iff_mem.mp hid),
    View.get_eq_error (v := t.view) hb, error_bind]

end Walk

/-- The walk from a block adds the block and all that it stands on. -/
theorem Sound.addLineage_eq_ok (ht : t.Sound) (steps : Nat) :
    ∀ {id : BlockId} {b : Block} {seen : Std.ExtTreeSet BlockId}, t.block? id = some b →
      id < steps → t.ClosedBut id seen →
      ∃ all, t.view.addLineage steps id seen = .ok all ∧
        ∀ a, a ∈ all ↔ a ∈ seen ∨ StandsOn t.block? id a := by
  induction steps with
  | zero => exact fun _ h => absurd h (Nat.not_lt_zero _)
  | succ steps ih =>
    intro id b seen hb hlt hseen
    by_cases hid : id ∈ seen
    · refine ⟨seen, addLineage_of_mem steps hid, fun a => ⟨Or.inl, ?_⟩⟩
      exact fun ha => ha.elim (fun h => h) (hseen.closed hid id hid a)
    · cases hparent : b.parent with
      | none =>
        refine ⟨_, addLineage_of_oldest steps hid hb hparent, fun a => ?_⟩
        rw [mem_insert_iff, StandsOn.iff_of_oldest hb hparent, or_comm]
      | some p =>
        obtain ⟨hsmaller, q, hq, -⟩ := ht.parent hb hparent
        have hsteps := Nat.lt_of_lt_of_le hsmaller (Nat.le_of_lt_succ hlt)
        obtain ⟨all, hall, hmem⟩ := ih hq hsteps (hseen.insert hb hparent)
        refine ⟨all, (addLineage_of_parent steps hid hb hparent).trans hall, fun a => ?_⟩
        rw [hmem, mem_insert_iff, StandsOn.iff_of_parent hb hparent]
        tauto

/-- The walks from stored blocks add the blocks and all that they stand on. -/
theorem Sound.foldlM_addLineage (ht : t.Sound) : ∀ {tips : List BlockId},
    (∀ tip ∈ tips, ∃ b, t.block? tip = some b) → ∀ {seen : Std.ExtTreeSet BlockId},
      t.Closed seen → ∃ all,
        tips.foldlM (fun seen tip => t.view.addLineage (tip + 1) tip seen) seen = .ok all ∧
        ∀ a, a ∈ all ↔ a ∈ seen ∨ ∃ tip ∈ tips, StandsOn t.block? tip a
  | [], _, seen, _ => ⟨seen, rfl, fun a => by simp⟩
  | tip :: tips, htips, seen, hseen => by
    obtain ⟨⟨b, hb⟩, hrest⟩ := List.forall_mem_cons.mp htips
    obtain ⟨next, hnext, hmem⟩ :=
      ht.addLineage_eq_ok (tip + 1) hb (Nat.lt_succ_self tip) (hseen.closedBut tip)
    have hclosed : t.Closed next := by
      intro x hx a ha
      rcases (hmem x).mp hx with hx | hx
      · exact (hmem a).mpr (Or.inl (hseen x hx a ha))
      · exact (hmem a).mpr (Or.inr (hx.trans ha))
    obtain ⟨all, hall, hmemAll⟩ := ht.foldlM_addLineage hrest hclosed
    refine ⟨all, ?_, fun a => ?_⟩
    · rw [List.foldlM_cons, hnext, ok_bind, hall]
    · rw [hmemAll, hmem, List.exists_mem_cons_iff, or_assoc]

theorem closed_empty (t : BlockTree) : t.Closed ∅ :=
  fun _ hx => absurd hx Std.ExtTreeSet.not_mem_empty

theorem Sound.lineages_eq_ok (ht : t.Sound) {tips : List BlockId}
    (htips : ∀ tip ∈ tips, ∃ b, t.block? tip = some b) :
    ∃ all, t.view.lineages tips = .ok all ∧
      ∀ a, a ∈ all ↔ ∃ tip ∈ tips, StandsOn t.block? tip a := by
  obtain ⟨all, hall, hmem⟩ := ht.foldlM_addLineage htips t.closed_empty
  refine ⟨all, hall, fun a => (hmem a).trans (or_iff_right ?_)⟩
  exact Std.ExtTreeSet.not_mem_empty

/-- The first tip that is not stored is what the collection is refused for. -/
theorem Sound.lineages_eq_error (ht : t.Sound) {before after : List BlockId} {tip : BlockId}
    (hbefore : ∀ tip ∈ before, ∃ b, t.block? tip = some b) (htip : t.block? tip = none) :
    t.view.lineages (before ++ tip :: after) = .error (.unknownBlock tip) := by
  obtain ⟨all, hall, hmem⟩ := ht.lineages_eq_ok hbefore
  -- what has been collected is stored
  have hnew : tip ∉ all := fun htipAll => by
    obtain ⟨first, hfirst, hstands⟩ := (hmem tip).mp htipAll
    obtain ⟨_, hb⟩ := hbefore first hfirst
    obtain ⟨past, hpast⟩ := ht.exists_past hb
    obtain ⟨k, -, -, hbelow⟩ := hstands.hasPast hpast
    obtain ⟨c, hc, -⟩ := hbelow.exists_block
    exact absurd (htip.symm.trans hc) (by simp)
  rw [View.lineages] at hall ⊢
  rw [List.foldlM_append, hall, ok_bind, List.foldlM_cons, addLineage_of_unknown tip hnew htip,
    error_bind]

/-! ## Evicting -/

/-- In every tree that has grown, with anything remembered, of any blocks and in any slots, and
with any list of tips.  If they are all stored, every slot keeps the entries of the tips and of what
these stand on, as they are, and no others; the answer is the number of the entries that are lost,
in all slots.  If not, the first one that is not is refused, and nothing is lost. -/
theorem evict_exact (digest : Header → BlockHash) (acts : List Act) (live : List BlockId)
    (bank : MemoBank) :
    ((∀ tip ∈ live, ∃ b, (grown digest acts).block? tip = some b) → ∃ kept lost,
      (grown digest acts).view.evict live bank = (.ok (List.length lost), kept) ∧
      (∀ slot e, bank.get slot = .error e → kept.get slot = .error e) ∧
      (∀ slot m, bank.get slot = .ok m → ∃ m', kept.get slot = .ok m' ∧
        ∀ id s, m'[id]? = some s ↔
          m[id]? = some s ∧ ∃ tip ∈ live, StandsOn (grown digest acts).block? tip id) ∧
      lost.Nodup ∧ ∀ slot id, (slot, id) ∈ lost ↔ ∃ m, bank.get slot = .ok m ∧ id ∈ m ∧
        ¬ ∃ tip ∈ live, StandsOn (grown digest acts).block? tip id) ∧
    ((∃ tip ∈ live, (grown digest acts).block? tip = none) → ∃ before tip after,
      live = before ++ tip :: after ∧
      (∀ tip' ∈ before, ∃ b, (grown digest acts).block? tip' = some b) ∧
      (grown digest acts).block? tip = none ∧
      (grown digest acts).view.evict live bank = (.error (.unknownBlock tip), bank)) := by
  have ht := sound_grown digest acts
  constructor
  · intro hlive
    obtain ⟨all, hall, hmem⟩ := ht.lineages_eq_ok hlive
    have htest : ∀ id, all.contains id = true ↔
        ∃ tip ∈ live, StandsOn (grown digest acts).block? tip id :=
      fun id => Std.ExtTreeSet.contains_iff_mem.trans (hmem id)
    refine ⟨bank.keep all.contains, bank.lost all.contains, ?_, ?_, ?_, bank.nodup_lost _, ?_⟩
    · rw [View.evict, hall, ← bank.length_lost all.contains]
      simp only [Nat.add_sub_cancel]
    · intro slot e he
      rw [MemoBank.get_keep, he]
      rfl
    · intro slot m hm
      refine ⟨m.keep all.contains, ?_, fun id s => ?_⟩
      · rw [MemoBank.get_keep, hm]
        rfl
      · rw [Memo.getElem?_keep_eq_some_iff, htest]
    · intro slot id
      simp only [MemoBank.mem_lost, ← htest, Bool.not_eq_true]
  · rintro ⟨tip, htip, hnone⟩
    have hsome : (live.find? fun tip => ((grown digest acts).block? tip).isNone).isSome = true :=
      List.find?_isSome.mpr ⟨tip, htip, by rw [hnone]; rfl⟩
    obtain ⟨first, hfirst⟩ := Option.isSome_iff_exists.mp hsome
    obtain ⟨hunknown, before, after, rfl, hbefore⟩ := List.find?_eq_some_iff_append.mp hfirst
    have hstored : ∀ tip' ∈ before, ∃ b, (grown digest acts).block? tip' = some b := by
      intro tip' htip'
      exact Option.isSome_iff_exists.mp (by simpa using hbefore tip' htip')
    have hfirst := Option.isNone_iff_eq_none.mp hunknown
    refine ⟨before, first, after, rfl, hstored, hfirst, ?_⟩
    rw [View.evict, ht.lineages_eq_error hstored hfirst]

/-- Entries of blocks of both branches of the forked tree, and of one that is not stored, in two
slots. -/
def forkedBank : MemoBank :=
  ((MemoBank.empty 1).set (.deployment 0)
      (((Memo.empty.insert 3 ⟨.started, 4⟩).insert 7 ⟨.active, 6⟩).insert 9 ⟨.started, 4⟩)).set
    (.bit 3) ((Memo.empty.insert 10 .initial).insert 99 .initial)

/-- The tip of the row is given twice, and a block below it between.  Of five entries the three that
are not below it are lost. -/
theorem evict_forked :
    (∃ kept m, (grown nonceDigest forkedActs).view.evict [7, 3, 7] forkedBank = (.ok 3, kept) ∧
      kept.get (.deployment 0) = .ok m ∧ m[3]? = some ⟨.started, 4⟩ ∧ m[9]? = none) ∧
    (grown nonceDigest forkedActs).view.evict [7, 20] forkedBank =
      (.error (.unknownBlock 20), forkedBank) := by
  obtain ⟨hkept, -⟩ := evict_exact nonceDigest forkedActs [7, 3, 7] forkedBank
  obtain ⟨-, hrefused⟩ := evict_exact nonceDigest forkedActs [7, 20] forkedBank
  have hstored : ∀ tip ∈ [7, 3, 7], ((grown nonceDigest forkedActs).block? tip).isSome = true := by
    decide +kernel
  have hrun : ((grown nonceDigest forkedActs).view.evict [7, 3, 7] forkedBank).1.toOption =
        some 3 ∧
      (((grown nonceDigest forkedActs).view.evict [7, 3, 7] forkedBank).2.get
        (.deployment 0)).toOption.map (fun m => m[9]?) = some none := by
    decide +kernel
  constructor
  · obtain ⟨kept, lost, hevict, -, hslots, -⟩ :=
      hkept fun tip htip => Option.isSome_iff_exists.mp (hstored tip htip)
    obtain ⟨m, hm, hentries⟩ := hslots (.deployment 0) _ rfl
    rw [hevict] at hrun
    obtain ⟨hcount, hnine⟩ := hrun
    have hlength : lost.length = 3 := Option.some.inj hcount
    simp only [hm] at hnine
    refine ⟨kept, m, by rw [hevict, hlength], hm, ?_, Option.some.inj hnine⟩
    exact (hentries 3 _).mpr ⟨by decide +kernel, 3, by decide, .self⟩
  · obtain ⟨before, tip, after, heq, -, hnone, herror⟩ :=
      hrefused ⟨20, by decide, by decide +kernel⟩
    have htip : tip ∈ [7, 20] := heq ▸ List.mem_append_right before List.mem_cons_self
    rcases List.mem_pair.mp htip with rfl | rfl
    · exact absurd (hstored 7 (by decide)) (by rw [hnone]; decide)
    · exact herror

end BlockTree
end SoftFork
