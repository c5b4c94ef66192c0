import Mathlib.Data.Finset.Card
import SoftFork.Proofs.History.Growth

/-!
# What is active

The active list is kept by cutting it and adding to it.  What it holds can be said without
any of this: the tip and the blocks the tip stands on, from the lowest upwards.  The tip is
the block to which it has been moved last.  So the way that led to a tip cannot be seen,
neither the tips in between nor the forks at which the list was cut.

One half is the invariant of growth: the list is a row that stands on nothing, and such a
row holds whatever its last block stands on (`Sound.mem_active_iff`).  The other half
is that the last block is the one that was asked for, and that takes a closer look at the
walk back from it (`exists_of_branch`).  The walk collects blocks that are not active and
begins with the block itself, unless that is active already.

A block counts as active when it is listed at the place that its height says.  That is so for
every block of the list below which heights have not started again, and for no other
(`Sound.isActive_iff_mem`).

## What is cut off

A block that was active and stays so is in the part of the list that is kept, since nothing
that is added has been active before (`exists_setTip`).  Therefore the blocks that are cut off
are those that the new tip does not stand on, with those above the last of all heights, and as
no block is listed twice the number that is answered counts them (`setTip_moves`).
-/

namespace SoftFork
namespace BlockTree

variable {t : BlockTree} {digest : Header → BlockHash}

/-! ## The active list -/

/-- A block is listed at a place as far above the lowest as its past is long. -/
theorem Sound.exists_of_getElem? (ht : t.Sound) {i : Nat} {id : BlockId}
    (hi : t.active[i]? = some id) : ∃ b past, t.block? id = some b ∧
      HasPast t.block? id past ∧ past.length = i + 1 ∧ b.height = (t.base + i) % UInt64.size := by
  rw [← Array.getElem?_toList] at hi
  obtain ⟨b, hb, hheight⟩ := ht.active.height hi
  obtain ⟨past, hpast⟩ := ht.exists_past hb
  exact ⟨b, past, hb, hpast, (ht.active.hasPast hi hpast).1, hheight⟩

/-- What is listed is the tip and what the tip stands on. -/
theorem Sound.mem_active_iff (ht : t.Sound) {id : BlockId} :
    id ∈ t.active ↔ ∃ top, t.tip = some top ∧ StandsOn t.block? top id := by
  constructor
  · intro h
    obtain ⟨i, hi⟩ := Array.getElem?_of_mem h
    have hlt := (Array.getElem?_eq_some_iff.mp hi).1
    have htip : t.active[t.active.size - 1]? = some t.active[t.active.size - 1] :=
      Array.getElem?_eq_getElem (by omega)
    refine ⟨t.active[t.active.size - 1], by rw [tip, Array.back?, htip], ?_⟩
    rw [← Array.getElem?_toList] at hi htip
    exact ht.active.standsOn (by omega) htip hi
  · rintro ⟨top, htip, hid⟩
    rw [← Array.mem_toList_iff]
    exact ht.active.mem_of_standsOn (Array.mem_toList_iff.mpr (Array.mem_of_back? htip)) hid

/-- A listed block is found active where heights have not started again below it. -/
theorem Sound.isActive_iff_mem (ht : t.Sound) {id : BlockId} :
    t.isActive id = true ↔ id ∈ t.active ∧ ¬ Restarts t.block? id := by
  have hbase := ht.base
  constructor
  · intro h
    cases hb : t.block? id with
    | none =>
      rw [isActive, hb] at h
      exact absurd h (by simp)
    | some b =>
      obtain ⟨hge, hat⟩ := (isActive_iff hb).mp h
      obtain ⟨b', past, hb', hpast, hlen, -⟩ := ht.exists_of_getElem? hat
      refine ⟨Array.mem_of_getElem? hat, ?_⟩
      rw [hpast.restarts_iff (ht.consecutive hpast) hb]
      omega
  · rintro ⟨hmem, hnot⟩
    obtain ⟨i, hi⟩ := Array.getElem?_of_mem hmem
    obtain ⟨b, past, hb, hpast, hlen, hheight⟩ := ht.exists_of_getElem? hi
    rw [hpast.restarts_iff (ht.consecutive hpast) hb] at hnot
    rw [UInt64.size] at hheight hbase
    have hat : b.height = t.base + i := by omega
    refine (isActive_iff hb).mpr ⟨by omega, ?_⟩
    rw [hat, Nat.add_sub_cancel_left]
    exact hi

/-- What is active is the tip and what the tip stands on, up to the last of all heights. -/
theorem Sound.isActive_iff_standsOn (ht : t.Sound) {id : BlockId} :
    t.isActive id = true ↔
      ∃ top, t.tip = some top ∧ StandsOn t.block? top id ∧ ¬ Restarts t.block? id := by
  rw [ht.isActive_iff_mem, ht.mem_active_iff]
  constructor
  · rintro ⟨⟨top, htip, hid⟩, hnot⟩
    exact ⟨top, htip, hid, hnot⟩
  · rintro ⟨top, htip, hid, hnot⟩
    exact ⟨⟨top, htip, hid⟩, hnot⟩

/-- The active block at a height is the one that stands there. -/
theorem Sound.activeAt_eq_some_iff (ht : t.Sound) {height : Nat} (hheight : height < UInt64.size)
    {id : BlockId} : t.activeAt height = some id ↔
      t.isActive id = true ∧ ∃ b, t.block? id = some b ∧ b.height = height := by
  constructor
  · intro h
    have hactive := h
    rw [activeAt] at h
    split at h
    · exact absurd h (by simp)
    · obtain ⟨b, -, hb, -, -, hbheight⟩ := ht.exists_of_getElem? h
      rw [UInt64.size] at hbheight hheight
      have hat : b.height = height := by omega
      rw [isActive, hb, beq_iff_eq, hat]
      exact ⟨hactive, b, rfl, hat⟩
  · rintro ⟨hactive, b, hb, rfl⟩
    rwa [isActive, hb, beq_iff_eq] at hactive

/-- The walk back from a block collects blocks that are not active.  The last of them is the
block itself, and when there is none the block is active. -/
theorem exists_of_branch (steps : Nat) : ∀ {id : BlockId} {path path' : List BlockId}
    {fork : Option BlockId}, t.branch steps id path = .ok (path', fork) →
      ∃ found, path' = found ++ path ∧ (∀ a ∈ found, ¬ t.isActive a = true) ∧
        (0 < steps → found.getLast?.or fork = some id) := by
  induction steps with
  | zero =>
    intro id path path' fork h
    obtain ⟨rfl, rfl⟩ := Prod.mk.inj (Except.ok.inj h)
    exact ⟨[], rfl, fun _ ha => absurd ha List.not_mem_nil, fun hlt => absurd hlt (by simp)⟩
  | succ steps ih =>
    intro id path path' fork h
    by_cases hactive : t.isActive id = true
    · rw [branch, if_pos hactive] at h
      obtain ⟨rfl, rfl⟩ := Prod.mk.inj (Except.ok.inj h)
      exact ⟨[], rfl, fun _ ha => absurd ha List.not_mem_nil, fun _ => rfl⟩
    · have hself : ∀ a ∈ [id], ¬ t.isActive a = true := by
        intro a ha
        rwa [List.mem_singleton.mp ha]
      cases hb : t.block? id with
      | none =>
        rw [branch, if_neg hactive, get, storedBlock, hb, error_bind] at h
        exact absurd h (by simp)
      | some b =>
        cases hparent : b.parent with
        | none =>
          rw [branch_of_oldest hactive hb hparent] at h
          obtain ⟨rfl, rfl⟩ := Prod.mk.inj (Except.ok.inj h)
          exact ⟨[id], rfl, hself, fun _ => rfl⟩
        | some p =>
          rw [branch_of_parent hactive hb hparent] at h
          obtain ⟨found, rfl, hfound, -⟩ := ih h
          refine ⟨found ++ [id], by rw [List.append_assoc]; rfl, ?_, fun _ => ?_⟩
          · exact List.forall_mem_append.mpr ⟨hfound, hself⟩
          · rw [List.getLast?_concat, Option.some_or]

/-- Moving the tip to a stored block keeps the lower part of the active list, as many blocks
as are not counted, and adds blocks that were not active.  The last one is the new tip. -/
theorem exists_setTip (ht : t.Sound) {id : BlockId} {b : Block} (hb : t.block? id = some b) :
    ∃ kept added active base,
      t.setTip id = (.ok (t.active.size - kept), { t with active := active, base := base }) ∧
        active.toList = t.active.toList.take kept ++ added ∧
        (∀ a ∈ t.active.toList.take kept, t.isActive a = true) ∧
        (∀ a ∈ added, ¬ t.isActive a = true) ∧ active.back? = some id := by
  rcases exists_branch ht (id + 1) hb (Nat.lt_succ_self _) Row.nil with
    ⟨fork, f, path, hbranch, hactive, hf, -⟩ | ⟨lowest, l, rest, hbranch, hl, -⟩
  · obtain ⟨found, rfl, hfound, hlast⟩ := exists_of_branch _ hbranch
    obtain ⟨hge, hat⟩ := (isActive_iff hf).mp hactive
    have hlt := (Array.getElem?_eq_some_iff.mp hat).1
    rw [List.append_nil] at hbranch
    have hmoved := setTip_of_fork hb hbranch hf
    rw [Array.take_eq_extract, Array.size_extract, Nat.sub_zero,
      Nat.min_eq_left (by omega)] at hmoved
    refine ⟨f.height - t.base + 1, found, _, t.base, hmoved, ?_, ?_, hfound, ?_⟩
    · rw [Array.toList_append, Array.toList_extract]
      rfl
    · -- up to the fork heights do not start again
      intro a ha
      obtain ⟨i, hi⟩ := List.getElem?_of_mem ha
      have hilt := (List.getElem?_eq_some_iff.mp hi).1
      rw [List.length_take] at hilt
      rw [List.getElem?_take_of_lt (by omega), Array.getElem?_toList] at hi
      obtain ⟨c, past, hc, -, -, hheight⟩ := ht.exists_of_getElem? hi
      have hfheight := ht.height hf
      rw [UInt64.size] at hheight hfheight
      have hplace : c.height = t.base + i := by omega
      refine (isActive_iff hc).mpr ⟨by omega, ?_⟩
      rw [hplace, Nat.add_sub_cancel_left]
      exact hi
    · -- without a block in between the fork is the last one that is kept
      have hkept : (t.active.toList.take (f.height - t.base + 1)).getLast? = some fork := by
        rw [List.getLast?_take, Nat.add_sub_cancel, Array.getElem?_toList, hat]
        rfl
      rw [← Array.getLast?_toList, Array.toList_append, Array.toList_extract,
        List.getLast?_append]
      exact (congrArg found.getLast?.or hkept).trans (hlast (Nat.succ_pos _))
  · obtain ⟨found, hpath, hfound, hlast⟩ := exists_of_branch _ hbranch
    rw [List.append_nil] at hpath
    subst hpath
    refine ⟨0, lowest :: rest, _, l.height, setTip_of_oldest hb hbranch hl, rfl,
      fun a ha => absurd ha List.not_mem_nil, hfound, ?_⟩
    rw [← Array.getLast?_toList, ← Option.or_none (o := (lowest :: rest).getLast?)]
    exact hlast (Nat.succ_pos _)

/-- A stored block becomes the tip.  The number that is answered counts the blocks that were
listed and are not both below the new tip and active. -/
theorem setTip_moves (ht : t.Sound) {id : BlockId} {b : Block} (hb : t.block? id = some b) :
    ∃ count t', t.setTip id = (.ok count, t') ∧ t'.Sound ∧ t'.block? = t.block? ∧
      t'.tip = some id ∧ ∃ lost : Finset BlockId,
        (∀ a, a ∈ lost ↔ a ∈ t.active ∧ ¬ (StandsOn t.block? id a ∧ ¬ Restarts t.block? a)) ∧
        count = lost.card := by
  obtain ⟨kept, added, active, base, hmoved, hactive, hkept, hadded, hlast⟩ :=
    exists_setTip ht hb
  have hstep : Step (fun _ => BlockHash.zero) t (t.setTip id).2 := step_setTip ht id
  rw [hmoved] at hstep
  have hsound : Sound { t with active := active, base := base } := ht.of_step hstep
  have hstands : ∀ a, a ∈ active ↔ StandsOn t.block? id a := by
    intro a
    rw [hsound.mem_active_iff]
    constructor
    · rintro ⟨top, htop, ha⟩
      rwa [Option.some.inj (hlast.symm.trans htop)]
    · exact fun ha => ⟨id, hlast, ha⟩
  have hnodup := ht.active.nodup fun hc hp => (ht.parent hc hp).1
  rw [← List.take_append_drop kept t.active.toList] at hnodup
  refine ⟨_, _, hmoved, hsound, rfl, hlast, (t.active.toList.drop kept).toFinset, ?_, ?_⟩
  · intro a
    rw [List.mem_toFinset, ← hstands, ← Array.mem_toList_iff, ← Array.mem_toList_iff, hactive,
      List.mem_append]
    constructor
    · intro ha
      have hmem : a ∈ t.active.toList := List.mem_of_mem_drop ha
      refine ⟨hmem, ?_⟩
      rintro ⟨htake | hnew, hnot⟩
      · exact (List.disjoint_of_nodup_append hnodup) htake ha
      · exact hadded a hnew (ht.isActive_iff_mem.mpr ⟨Array.mem_toList_iff.mp hmem, hnot⟩)
    · rintro ⟨hmem, hnot⟩
      rw [← List.take_append_drop kept t.active.toList, List.mem_append] at hmem
      refine hmem.resolve_left fun htake => hnot ⟨Or.inl htake, ?_⟩
      exact (ht.isActive_iff_mem.mp (hkept a htake)).2
  · rw [List.toFinset_card_of_nodup (List.nodup_append.mp hnodup).2.1, List.length_drop,
      Array.length_toList]

/-! ## The tip -/

end BlockTree
end SoftFork
