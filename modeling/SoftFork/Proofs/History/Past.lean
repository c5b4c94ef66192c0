import SoftFork.History.View
import SoftFork.Proofs.Answer

/-!
# The past of a block

All that voting can learn about a block it learns by following parent links.
`HasPast` collects what there is to be read: a block and its ancestors, the oldest
first, down to the one without a parent.

It is a relation on the stored blocks alone.  How a store finds an ancestor does
not enter, nor which chain is active; so whatever is shown to be a function of the
past cannot depend on any of these.

## Heights

In a past that is `Consecutive` heights rise by one, and start again at zero after the
last of all heights.  So the height that comes next (`next`) says how many blocks to
step back to a lower height, and while no more steps are taken than that height counts,
no seam is crossed (`next_take_sub`).

## Views that know the way

A view may find ancestors in its own manner.  `Climbs` says that it finds the
ones the links lead to, and that it refuses heights below the oldest block, for
lack of history and for no other reason.  Following the links step by step is
one such manner (`climbs_ofBlocks`).
-/

namespace SoftFork

/-- A block and its ancestors, the oldest first. -/
abbrev Past := List Block

namespace Past

/-- The height of the oldest block. -/
def base (past : Past) : Nat :=
  (past.head?.map Block.height).getD 0

/-- The height of the block that comes next. -/
def next (past : Past) : Nat :=
  (base past + past.length) % UInt64.size

/-- Heights rise by one from block to block, as far as they reach. -/
def Consecutive (past : Past) : Prop :=
  ∀ k (h : k < past.length), past[k].height = (base past + k) % UInt64.size

theorem base_append {past : Past} (h : past ≠ []) (more : Past) :
    base (past ++ more) = base past := by
  obtain ⟨m, rest, rfl⟩ := List.exists_cons_of_ne_nil h
  rfl

theorem base_take {past : Past} {k : Nat} (h : 0 < k) : base (past.take k) = base past := by
  obtain ⟨k, rfl⟩ := Nat.exists_eq_succ_of_ne_zero (Nat.ne_of_gt h)
  cases past <;> rfl

theorem next_take {past : Past} {k : Nat} (h : 0 < k) (hk : k ≤ past.length) :
    next (past.take k) = (base past + k) % UInt64.size := by
  rw [next, base_take h, List.length_take, Nat.min_eq_left hk]

/-- Steps back that do not lead below height zero lead to lower heights. -/
theorem next_take_sub {past : Past} {j : Nat} (hlt : j < past.length) (hle : j ≤ next past) :
    next (past.take (past.length - j)) = next past - j := by
  rw [next_take (by omega) (Nat.sub_le _ _)]
  rw [next, UInt64.size] at hle
  rw [next, UInt64.size]
  omega

/-- The blocks after the last closing block left out, the last closed period is complete. -/
theorem next_take_closed {past : Past} {period : Nat}
    (hlt : next past % period < past.length) :
    next (past.take (past.length - next past % period)) = next past / period * period := by
  have hmul := Nat.div_add_mod' (next past) period
  rw [next_take_sub hlt (Nat.mod_le _ _)]
  omega

theorem consecutive_singleton {b : Block} (hb : b.height < UInt64.size) : Consecutive [b] := by
  intro k h
  have hk : k = 0 := by
    rw [List.length_singleton] at h
    omega
  subst hk
  exact (Nat.mod_eq_of_lt hb).symm

theorem Consecutive.take {past : Past} (h : Consecutive past) (k : Nat) :
    Consecutive (past.take k) := by
  intro i hi
  rw [List.length_take] at hi
  rw [List.getElem_take, base_take (by omega)]
  exact h i (by omega)

/-- A further block continues a past at the height that comes next. -/
theorem consecutive_snoc {past : Past} (hne : past ≠ []) (b : Block) :
    Consecutive (past ++ [b]) ↔ Consecutive past ∧ b.height = next past := by
  constructor
  · intro h
    constructor
    · have hpast := h.take past.length
      rwa [List.take_left] at hpast
    · have hb := h past.length (by simp)
      rwa [List.getElem_append_right (Nat.le_refl _), base_append hne, List.getElem_singleton] at hb
  · rintro ⟨hpast, hb⟩ k hk
    rw [base_append hne]
    rcases Nat.lt_or_ge k past.length with hlt | hge
    · rw [List.getElem_append_left hlt]
      exact hpast k hlt
    · have hlen : k = past.length := by
        rw [List.length_append, List.length_singleton] at hk
        omega
      subst hlen
      rw [List.getElem_append_right (Nat.le_refl _), List.getElem_singleton]
      exact hb

end Past

/-! ## Following the links -/

variable {block? : BlockId → Option Block}

/-- `HasPast block? id past`: among the stored blocks, the parent links from `id`
lead through the blocks of `past`, backwards, and end. -/
inductive HasPast (block? : BlockId → Option Block) : BlockId → Past → Prop where
  /-- A block without a parent is the oldest of its past. -/
  | oldest {id : BlockId} {b : Block} (hb : block? id = some b) (hparent : b.parent = none) :
    HasPast block? id [b]
  /-- A block with a parent has the parent's past and itself. -/
  | later {id p : BlockId} {b : Block} {past : Past} (hb : block? id = some b)
    (hparent : b.parent = some p) (hpast : HasPast block? p past) :
    HasPast block? id (past ++ [b])

namespace HasPast

theorem ne_nil {id : BlockId} {past : Past} (h : HasPast block? id past) : past ≠ [] := by
  cases h <;> simp

theorem length_pos {id : BlockId} {past : Past} (h : HasPast block? id past) :
    0 < past.length :=
  List.length_pos_iff.mpr h.ne_nil

/-- The last block of a past is the block itself. -/
theorem exists_block {id : BlockId} {past : Past} (h : HasPast block? id past) :
    ∃ b, block? id = some b ∧ past.getLast? = some b := by
  cases h with
  | oldest hb _ => exact ⟨_, hb, rfl⟩
  | later hb _ _ => exact ⟨_, hb, List.getLast?_concat⟩

/-- A block has at most one past. -/
theorem unique {id : BlockId} {past past' : Past} (h : HasPast block? id past)
    (h' : HasPast block? id past') : past = past' := by
  induction h generalizing past' with
  | oldest hb hparent =>
    cases h' with
    | oldest hb' _ =>
      rw [hb] at hb'
      rw [Option.some.inj hb']
    | later hb' hparent' _ =>
      rw [hb] at hb'
      rw [Option.some.inj hb', hparent'] at hparent
      exact absurd hparent (by simp)
  | later hb hparent _ ih =>
    cases h' with
    | oldest hb' hparent' =>
      rw [hb] at hb'
      rw [Option.some.inj hb', hparent'] at hparent
      exact absurd hparent (by simp)
    | later hb' hparent' hpast' =>
      rw [hb] at hb'
      obtain rfl := Option.some.inj hb'
      rw [hparent] at hparent'
      obtain rfl := Option.some.inj hparent'
      rw [ih hpast']

/-- A block with a consecutive past stands as many places above the oldest as there are blocks
below it. -/
theorem height_eq {id : BlockId} {past : Past} {b : Block} (h : HasPast block? id past)
    (hcon : past.Consecutive) (hb : block? id = some b) :
    b.height = (past.base + (past.length - 1)) % UInt64.size := by
  obtain ⟨b', hb', hlast⟩ := h.exists_block
  obtain rfl := Option.some.inj (hb.symm.trans hb')
  have hpos := h.length_pos
  rw [List.getLast?_eq_getElem?, List.getElem?_eq_getElem (by omega)] at hlast
  rw [← Option.some.inj hlast]
  exact hcon (past.length - 1) (by omega)

/-- The block on top of it has the height that comes next. -/
theorem above_eq {id : BlockId} {past : Past} {b : Block} (h : HasPast block? id past)
    (hcon : past.Consecutive) (hb : block? id = some b) : b.above = past.next := by
  rw [Block.above, Past.next, h.height_eq hcon hb, Nat.mod_add_mod, Nat.add_assoc,
    Nat.sub_add_cancel h.length_pos]

theorem height_lt {id : BlockId} {past : Past} {b : Block} (h : HasPast block? id past)
    (hcon : past.Consecutive) (hb : block? id = some b) : b.height < UInt64.size := by
  rw [h.height_eq hcon hb]
  exact Nat.mod_lt _ (by decide)

theorem base_lt {id : BlockId} {past : Past} (h : HasPast block? id past)
    (hcon : past.Consecutive) : past.base < UInt64.size := by
  have hfirst := hcon 0 h.length_pos
  rw [List.getElem_zero, Nat.add_zero] at hfirst
  obtain ⟨first, rest, rfl⟩ := List.exists_cons_of_ne_nil h.ne_nil
  rw [List.head_cons] at hfirst
  show first.height < _
  rw [hfirst]
  exact Nat.mod_lt _ (by decide)

/-- Where the heights do not start again, a block is one below the height that comes next. -/
theorem height_succ {id : BlockId} {past : Past} {b : Block} (h : HasPast block? id past)
    (hcon : past.Consecutive) (hb : block? id = some b) (hpos : 0 < past.next) :
    b.height + 1 = past.next := by
  have habove := h.above_eq hcon hb
  have hlt := h.height_lt hcon hb
  rw [Block.above, UInt64.size] at habove
  rw [UInt64.size] at hlt
  omega

/-- What holds of all stored blocks holds of those in a past. -/
theorem forall_mem {p : Block → Prop} {id : BlockId} {past : Past} (h : HasPast block? id past)
    (hp : ∀ {id b}, block? id = some b → p b) : ∀ m ∈ past, p m := by
  induction h with
  | oldest hb _ => exact List.forall_mem_singleton.mpr (hp hb)
  | later hb _ _ ih =>
    exact List.forall_mem_append.mpr ⟨ih, List.forall_mem_singleton.mpr (hp hb)⟩

/-- Blocks that are stored later do not change a past. -/
theorem mono {more? : BlockId → Option Block} {id : BlockId} {past : Past}
    (h : HasPast block? id past)
    (hsub : ∀ id b, block? id = some b → more? id = some b) : HasPast more? id past := by
  induction h with
  | oldest hb hparent => exact .oldest (hsub _ _ hb) hparent
  | later hb hparent _ ih => exact .later (hsub _ _ hb) hparent ih

/-- The past of a block's parent is that of the block without the block. -/
theorem parent {id p : BlockId} {b : Block} {past : Past} (h : HasPast block? id past)
    (hb : block? id = some b) (hparent : b.parent = some p) :
    HasPast block? p (past.take (past.length - 1)) := by
  cases h with
  | oldest hb' hparent' =>
    rw [hb] at hb'
    rw [← Option.some.inj hb', hparent] at hparent'
    exact absurd hparent' (by simp)
  | later hb' hparent' hpast =>
    rw [hb] at hb'
    rw [← Option.some.inj hb', hparent] at hparent'
    obtain rfl := Option.some.inj hparent'
    rw [List.length_append, List.length_singleton, Nat.add_sub_cancel, List.take_left]
    exact hpast

/-- The past of a block, if it is found within so many blocks. -/
def read (block? : BlockId → Option Block) : Nat → BlockId → Option Past
  | 0, _ => none
  | blocks + 1, id =>
    match block? id with
    | none => none
    | some b =>
      match b.parent with
      | none => some [b]
      | some p => (read block? blocks p).map (· ++ [b])

theorem of_read {blocks : Nat} : ∀ {id : BlockId} {past : Past},
    read block? blocks id = some past → HasPast block? id past := by
  induction blocks with
  | zero => exact fun h => absurd h (by simp [read])
  | succ blocks ih =>
    intro id past h
    rw [read] at h
    cases hb : block? id with
    | none =>
      rw [hb] at h
      exact absurd h (by simp)
    | some b =>
      simp only [hb] at h
      cases hparent : b.parent with
      | none =>
        rw [hparent] at h
        obtain rfl := Option.some.inj h
        exact .oldest hb hparent
      | some p =>
        simp only [hparent] at h
        obtain ⟨before, hbefore, rfl⟩ := Option.map_eq_some_iff.mp h
        exact .later hb hparent (ih hbefore)

theorem read_length {id : BlockId} {past : Past} (h : HasPast block? id past) :
    read block? past.length id = some past := by
  induction h with
  | oldest hb hparent =>
    rw [List.length_singleton, read]
    simp only [hb, hparent]
  | later hb hparent _ ih =>
    rw [List.length_append, List.length_singleton, read]
    simp only [hb, hparent, ih, Option.map_some]

instance (id : BlockId) (past : Past) : Decidable (HasPast block? id past) :=
  decidable_of_iff (read block? past.length id = some past) ⟨of_read, read_length⟩

end HasPast

/-! ## What lies before a block -/

/-- What lies before the block after `prev`; nothing before genesis. -/
def PastBefore (block? : BlockId → Option Block) : Option BlockId → Past → Prop
  | none, past => past = []
  | some id, past => HasPast block? id past

/-- A block is the last of its past, and its parent has the rest before it. -/
theorem HasPast.exists_before {id : BlockId} {b : Block} {past : Past}
    (h : HasPast block? id past) (hb : block? id = some b) :
    ∃ before, past = before ++ [b] ∧ PastBefore block? b.parent before := by
  cases h with
  | oldest hb' hparent =>
    obtain rfl := Option.some.inj (hb'.symm.trans hb)
    exact ⟨[], rfl, by rw [hparent]; rfl⟩
  | later hb' hparent hbefore =>
    obtain rfl := Option.some.inj (hb'.symm.trans hb)
    exact ⟨_, rfl, by rw [hparent]; exact hbefore⟩

/-- The last block of what lies before is `prev`, and its parent has the rest before it. -/
theorem PastBefore.of_snoc {prev : Option BlockId} {before : Past} {b : Block}
    (h : PastBefore block? prev (before ++ [b])) :
    ∃ id, prev = some id ∧ block? id = some b ∧ PastBefore block? b.parent before := by
  cases prev with
  | none => exact absurd h (by simp [PastBefore])
  | some id =>
    obtain ⟨b', hb', -⟩ := HasPast.exists_block h
    obtain ⟨before', heq, hbefore⟩ := HasPast.exists_before h hb'
    obtain ⟨rfl, hlast⟩ := List.append_inj' heq rfl
    obtain rfl := List.singleton_inj.mp hlast
    exact ⟨id, rfl, hb', hbefore⟩

/-! ## Ancestors -/

/-- `StandsOn block? id a`: among the stored blocks, the parent links from `id` lead to
`a`, which may be `id` itself. -/
inductive StandsOn (block? : BlockId → Option Block) (id : BlockId) : BlockId → Prop where
  | self : StandsOn block? id id
  | parent {p a : BlockId} {b : Block} (hp : StandsOn block? id p) (hb : block? p = some b)
    (hparent : b.parent = some a) : StandsOn block? id a

/-- What a block stands on has a beginning of its past. -/
theorem StandsOn.hasPast {id a : BlockId} {past : Past} (ha : StandsOn block? id a)
    (h : HasPast block? id past) :
    ∃ k, 0 < k ∧ k ≤ past.length ∧ HasPast block? a (past.take k) := by
  induction ha with
  | self => exact ⟨past.length, h.length_pos, Nat.le_refl _, by rwa [List.take_length]⟩
  | parent hp hb hparent ih =>
    obtain ⟨k, hk, hle, hpast⟩ := ih
    have ha := hpast.parent hb hparent
    have hpos := ha.length_pos
    rw [List.length_take, List.length_take, Nat.min_eq_left hle] at hpos
    rw [List.length_take, Nat.min_eq_left hle, List.take_take] at ha
    refine ⟨min (k - 1) k, by omega, by omega, ha⟩

theorem StandsOn.trans {id a c : BlockId} (ha : StandsOn block? id a)
    (hc : StandsOn block? a c) : StandsOn block? id c := by
  induction hc with
  | self => exact ha
  | parent _ hb hparent ih => exact ih.parent hb hparent

/-- What a block stands on does not depend on the other blocks. -/
theorem StandsOn.congr {other? : BlockId → Option Block} {id a : BlockId}
    (h : ∀ a, StandsOn block? id a → other? a = block? a) :
    StandsOn other? id a ↔ StandsOn block? id a := by
  constructor
  · intro ha
    induction ha with
    | self => exact .self
    | parent _ hb hparent ih => exact ih.parent ((h _ ih).symm.trans hb) hparent
  · intro ha
    induction ha with
    | self => exact .self
    | parent hp hb hparent ih => exact ih.parent ((h _ hp).trans hb) hparent

/-- What a block stands on is the block itself, or its parent stands on it. -/
theorem StandsOn.eq_or_parent {id a : BlockId} (ha : StandsOn block? id a) :
    a = id ∨ ∃ b p, block? id = some b ∧ b.parent = some p ∧ StandsOn block? p a := by
  induction ha with
  | self => exact Or.inl rfl
  | parent _ hb hparent ih =>
    rcases ih with rfl | ⟨b', p, hb', hparent', hp⟩
    · exact Or.inr ⟨_, _, hb, hparent, .self⟩
    · exact Or.inr ⟨b', p, hb', hparent', hp.parent hb hparent⟩

/-- A block without a parent stands on itself. -/
theorem StandsOn.iff_of_oldest {id a : BlockId} {b : Block} (hb : block? id = some b)
    (hparent : b.parent = none) : StandsOn block? id a ↔ a = id := by
  constructor
  · intro ha
    rcases ha.eq_or_parent with heq | ⟨b', p, hb', hparent', -⟩
    · exact heq
    · obtain rfl := Option.some.inj (hb'.symm.trans hb)
      rw [hparent'] at hparent
      exact absurd hparent (by simp)
  · rintro rfl
    exact .self

/-- A block with a parent stands on itself and on what the parent stands on. -/
theorem StandsOn.iff_of_parent {id p a : BlockId} {b : Block} (hb : block? id = some b)
    (hparent : b.parent = some p) : StandsOn block? id a ↔ a = id ∨ StandsOn block? p a := by
  constructor
  · intro ha
    refine ha.eq_or_parent.imp_right fun ⟨b', p', hb', hparent', ha'⟩ => ?_
    obtain rfl := Option.some.inj (hb'.symm.trans hb)
    obtain rfl := Option.some.inj (hparent'.symm.trans hparent)
    exact ha'
  · rintro (rfl | ha)
    · exact .self
    · exact StandsOn.trans (.parent .self hb hparent) ha

/-- A block stands on at most one block with a past of a given length. -/
theorem StandsOn.unique {id a c : BlockId} {past before : Past} (h : HasPast block? id past)
    (ha : StandsOn block? id a) (hc : StandsOn block? id c) (hpast : HasPast block? a before)
    (hpast' : HasPast block? c before) : a = c := by
  induction h with
  | @oldest id b hb hparent =>
    rw [(StandsOn.iff_of_oldest hb hparent).mp ha, (StandsOn.iff_of_oldest hb hparent).mp hc]
  | @later id p b past hb hparent hp ih =>
    have hcases : ∀ {x}, StandsOn block? id x → x = id ∨ StandsOn block? p x :=
      (StandsOn.iff_of_parent hb hparent).mp
    -- what stands below the block has a shorter past than the block
    have hshorter : ∀ {x}, StandsOn block? p x → HasPast block? x before →
        ¬ HasPast block? id before := by
      intro x hx hpx hid
      obtain ⟨k, -, -, htake⟩ := hx.hasPast hp
      have hlen := congrArg List.length (hpx.unique htake)
      rw [hid.unique (.later hb hparent hp), List.length_append, List.length_take,
        List.length_singleton] at hlen
      omega
    rcases hcases ha with rfl | hap
    · rcases hcases hc with rfl | hcp
      · rfl
      · exact absurd hpast (hshorter hcp hpast')
    · rcases hcases hc with rfl | hcp
      · exact absurd hpast' (hshorter hap hpast)
      · exact ih hap hcp

/-! ## Views that know the way -/

namespace View

/-- The ancestors that the view finds are those that the links lead to. -/
structure Climbs (v : View) : Prop where
  /-- So many steps down, within the past, there is an ancestor, with the past up to there. -/
  found : ∀ {id past b up}, HasPast v.block? id past → v.block? id = some b → up ≤ b.height →
    up < past.length → ∃ a, v.ancestor id (b.height - up) = .ok a ∧
      HasPast v.block? a (past.take (past.length - up))
  /-- Below the past history is missing. -/
  missing : ∀ {id past b up}, HasPast v.block? id past → v.block? id = some b → up ≤ b.height →
    past.length ≤ up → ∃ m, v.ancestor id (b.height - up) = .error (.historyMissing m)

/-- Where an ancestor is found, history goes as far down. -/
theorem Climbs.lt_length {v : View} (hv : v.Climbs) {id a : BlockId} {b : Block} {past : Past}
    {up : Nat} (h : HasPast v.block? id past) (hb : v.block? id = some b) (hup : up ≤ b.height)
    (hfound : v.ancestor id (b.height - up) = .ok a) : up < past.length := by
  rcases Nat.lt_or_ge up past.length with hlt | hge
  · exact hlt
  · obtain ⟨m, hm⟩ := hv.missing h hb hup hge
    rw [hm] at hfound
    exact absurd hfound (by simp)

/-- At or below a block an ancestor is refused for lack of history only. -/
theorem Climbs.missing_of_error {v : View} (hv : v.Climbs) {id : BlockId} {b : Block}
    {past : Past} (h : HasPast v.block? id past) (hb : v.block? id = some b) {up : Nat} {e : Fault}
    (hup : up ≤ b.height) (he : v.ancestor id (b.height - up) = .error e) :
    ∃ m, e = .historyMissing m := by
  rcases Nat.lt_or_ge up past.length with hlt | hge
  · obtain ⟨a, ha, -⟩ := hv.found h hb hup hlt
    rw [ha] at he
    exact absurd he (by simp)
  · obtain ⟨m, hm⟩ := hv.missing h hb hup hge
    rw [hm] at he
    exact ⟨m, (Except.error.inj he).symm⟩

/-- Everything that is stored has a past, and the view knows its way in it. -/
structure Lawful (v : View) : Prop extends v.Climbs where
  /-- From every stored block links lead down, one at a time, until they end. -/
  past : ∀ {id b}, v.block? id = some b → ∃ past, HasPast v.block? id past ∧ past.Consecutive

/-- A question is about no block, about one that is not stored, or about one with a past. -/
theorem Lawful.tip_cases {v : View} (hv : v.Lawful) (tip : Option BlockId) :
    tip = none ∨ (∃ id, tip = some id ∧ v.block? id = none) ∨
      ∃ id past, tip = some id ∧ HasPast v.block? id past ∧ past.Consecutive := by
  cases tip with
  | none => exact Or.inl rfl
  | some id =>
    cases hb : v.block? id with
    | none => exact Or.inr (Or.inl ⟨id, rfl, hb⟩)
    | some b =>
      obtain ⟨past, hpast, hcon⟩ := hv.past hb
      exact Or.inr (Or.inr ⟨id, past, rfl, hpast, hcon⟩)

theorem get_eq_ok {v : View} {id : BlockId} {b : Block} (hb : v.block? id = some b) :
    v.get id = .ok b := by
  rw [get, storedBlock, hb]

theorem get_eq_error {v : View} {id : BlockId} (hb : v.block? id = none) :
    v.get id = .error (.unknownBlock id) := by
  rw [get, storedBlock, hb]

theorem climb_succ_of_parent {v : View} {id p : BlockId} {b : Block}
    (hb : v.block? id = some b) (hparent : b.parent = some p) (steps : Nat) :
    v.climb (steps + 1) id = v.climb steps p := by
  rw [climb, get_eq_ok hb, ok_bind, hparent]

theorem climb_succ_of_oldest {v : View} {id : BlockId} {b : Block}
    (hb : v.block? id = some b) (hparent : b.parent = none) (steps : Nat) :
    v.climb (steps + 1) id = .error (.historyMissing (b.height - 1)) := by
  rw [climb, get_eq_ok hb, ok_bind, hparent]

/-- Fewer steps than there are blocks lead to an ancestor. -/
theorem climb_eq_ok {v : View} {id : BlockId} {past : Past} (h : HasPast v.block? id past)
    (steps : Nat) (hlt : steps < past.length) :
    ∃ a, v.climb steps id = .ok a ∧ HasPast v.block? a (past.take (past.length - steps)) := by
  induction h generalizing steps with
  | @oldest id b hb hparent =>
    have hzero : steps = 0 := by
      rw [List.length_singleton] at hlt
      omega
    subst hzero
    exact ⟨id, rfl, .oldest hb hparent⟩
  | @later id p b past hb hparent hpast ih =>
    cases steps with
    | zero =>
      refine ⟨id, rfl, ?_⟩
      rw [Nat.sub_zero, List.take_length]
      exact .later hb hparent hpast
    | succ steps =>
      rw [List.length_append, List.length_singleton] at hlt
      obtain ⟨a, hclimb, ha⟩ := ih steps (by omega)
      refine ⟨a, ?_, ?_⟩
      · rw [climb_succ_of_parent hb hparent]
        exact hclimb
      · have hk : (past ++ [b]).length - (steps + 1) = past.length - steps := by
          rw [List.length_append, List.length_singleton]
          omega
        rw [hk, List.take_append_of_le_length (by omega)]
        exact ha

/-- As many steps as there are blocks lead out of the stored history, at the height just below
the oldest block. -/
theorem climb_eq_error {v : View} {id : BlockId} {past : Past} (h : HasPast v.block? id past)
    (steps : Nat) (hle : past.length ≤ steps) :
    v.climb steps id = .error (.historyMissing (past.base - 1)) := by
  induction h generalizing steps with
  | @oldest id b hb hparent =>
    cases steps with
    | zero => exact absurd hle (by simp)
    | succ steps => exact climb_succ_of_oldest hb hparent steps
  | @later id p b past hb hparent hpast ih =>
    rw [List.length_append, List.length_singleton] at hle
    cases steps with
    | zero => exact absurd hle (by omega)
    | succ steps =>
      rw [climb_succ_of_parent hb hparent, Past.base_append hpast.ne_nil]
      exact ih steps (by omega)

/-- Climbing leads to a block that one stands on. -/
theorem standsOn_of_climb {v : View} (steps : Nat) : ∀ {id a : BlockId},
    v.climb steps id = .ok a → StandsOn v.block? id a := by
  induction steps with
  | zero =>
    intro id a h
    obtain rfl := Except.ok.inj h
    exact .self
  | succ steps ih =>
    intro id a h
    cases hb : v.block? id with
    | none =>
      rw [climb, get_eq_error hb, error_bind] at h
      exact absurd h (by simp)
    | some b =>
      cases hparent : b.parent with
      | none =>
        rw [climb_succ_of_oldest hb hparent] at h
        exact absurd h (by simp)
      | some p =>
        rw [climb_succ_of_parent hb hparent] at h
        exact StandsOn.trans (.parent .self hb hparent) (ih h)

theorem climbTo_eq_climb {v : View} {id : BlockId} {b : Block} (hb : v.block? id = some b)
    {height : Nat} (h : height ≤ b.height) :
    v.climbTo id height = v.climb (b.height - height) id := by
  rw [climbTo, get_eq_ok hb, ok_bind, if_neg (by omega)]

theorem ancestor_ofBlocks {block? : BlockId → Option Block} {id : BlockId} {b : Block}
    (hb : block? id = some b) {height : Nat} (h : height ≤ b.height) :
    (ofBlocks block?).ancestor id height = (ofBlocks block?).climb (b.height - height) id := by
  have hclimb : ∀ (v : View), v.block? = block? →
      ∀ steps id, v.climb steps id = (ofBlocks block?).climb steps id := by
    intro v hv steps
    induction steps with
    | zero => exact fun _ => rfl
    | succ steps ih =>
      intro id
      rw [climb, climb, get, get, hv]
      simp only [ih]
      rfl
  let v : View := ⟨block?, fun id _ => .error (.unknownBlock id)⟩
  calc (ofBlocks block?).ancestor id height = v.climbTo id height := rfl
    _ = v.climb (b.height - height) id := climbTo_eq_climb hb h
    _ = (ofBlocks block?).climb (b.height - height) id := hclimb v rfl _ _

/-- A view that knows its blocks and nothing else finds what their links lead to. -/
theorem climbs_ofBlocks (block? : BlockId → Option Block) : (ofBlocks block?).Climbs where
  found {id past b up} h hb hup hlt := by
    obtain ⟨a, hclimb, ha⟩ := climb_eq_ok h up hlt
    have hancestor := ancestor_ofBlocks hb (Nat.sub_le b.height up)
    rw [Nat.sub_sub_self hup] at hancestor
    exact ⟨a, hancestor.trans hclimb, ha⟩
  missing {id past b up} h hb hup hle := by
    have hancestor := ancestor_ofBlocks hb (Nat.sub_le b.height up)
    rw [Nat.sub_sub_self hup] at hancestor
    exact ⟨_, hancestor.trans (climb_eq_error h up hle)⟩

end View

/-- At every height of a past there is a block, on which the block at its end stands. -/
theorem HasPast.exists_standsOn {block? : BlockId → Option Block} {id : BlockId} {past : Past}
    (h : HasPast block? id past) {k : Nat} (hk : k < past.length) :
    ∃ a, StandsOn block? id a ∧ HasPast block? a (past.take (k + 1)) := by
  have hblocks : HasPast (View.ofBlocks block?).block? id past := h
  obtain ⟨a, hclimb, ha⟩ := View.climb_eq_ok hblocks (past.length - (k + 1)) (by omega)
  rw [show past.length - (past.length - (k + 1)) = k + 1 by omega] at ha
  exact ⟨a, View.standsOn_of_climb _ hclimb, ha⟩

/-- Above the oldest block of a past every block has a parent, whose past is what lies below. -/
theorem HasPast.exists_child {block? : BlockId → Option Block} {id : BlockId} {past : Past}
    (h : HasPast block? id past) {k : Nat} (hk : 0 < k) (hlt : k < past.length) :
    ∃ a p, StandsOn block? id a ∧ block? a = some past[k] ∧ past[k].parent = some p ∧
      HasPast block? p (past.take k) := by
  obtain ⟨a, ha, hpast⟩ := h.exists_standsOn hlt
  obtain ⟨b, hb, hlast⟩ := hpast.exists_block
  rw [List.getLast?_take, Nat.add_sub_cancel, if_neg (Nat.succ_ne_zero k),
    List.getElem?_eq_getElem hlt] at hlast
  obtain rfl : past[k] = b := Option.some.inj hlast
  cases hparent : past[k].parent with
  | none =>
    have hshort := congrArg List.length (hpast.unique (.oldest hb hparent))
    rw [List.length_take, List.length_singleton] at hshort
    omega
  | some p =>
    have hp := hpast.parent hb hparent
    rw [List.length_take, List.take_take,
      show min (min (k + 1) past.length - 1) (k + 1) = k by omega] at hp
    exact ⟨a, p, ha, hb, rfl, hp⟩

/-! ## Heights that start again -/

/-- Heights have started again on the way up to a block: it stands on a block at height zero that
has a parent. -/
def Restarts (block? : BlockId → Option Block) (id : BlockId) : Prop :=
  ∃ a b, StandsOn block? id a ∧ block? a = some b ∧ b.height = 0 ∧ b.parent ≠ none

theorem Restarts.of_standsOn {id a : BlockId} (ha : StandsOn block? id a)
    (h : Restarts block? a) : Restarts block? id := by
  obtain ⟨c, b, hc, hplace⟩ := h
  exact ⟨c, b, ha.trans hc, hplace⟩

/-- Whether they have does not depend on the other blocks. -/
theorem Restarts.congr {other? : BlockId → Option Block} {id : BlockId}
    (h : ∀ a, StandsOn block? id a → other? a = block? a) :
    Restarts other? id ↔ Restarts block? id := by
  constructor
  · rintro ⟨a, b, ha, hb, hplace⟩
    have ha' := (StandsOn.congr h).mp ha
    exact ⟨a, b, ha', (h a ha').symm.trans hb, hplace⟩
  · rintro ⟨a, b, ha, hb, hplace⟩
    exact ⟨a, b, (StandsOn.congr h).mpr ha, (h a ha).trans hb, hplace⟩

/-- Where heights have started again the past has more blocks than there are heights up to that of
the block. -/
theorem HasPast.restarts_iff {id : BlockId} {b : Block} {past : Past}
    (h : HasPast block? id past) (hcon : past.Consecutive) (hb : block? id = some b) :
    Restarts block? id ↔ b.height + 1 < past.length := by
  have hbase := h.base_lt hcon
  have hheight := h.height_eq hcon hb
  rw [UInt64.size] at hbase hheight
  constructor
  · rintro ⟨a, c, ha, hc, hzero, hparent⟩
    obtain ⟨k, hk, hle, hpast⟩ := ha.hasPast h
    have hat := hpast.height_eq (hcon.take k) hc
    rw [Past.base_take hk, List.length_take, Nat.min_eq_left hle, UInt64.size] at hat
    -- a block with a parent is not the oldest
    have hlater : 1 < k := by
      refine Nat.lt_of_le_of_ne hk ?_
      rintro rfl
      obtain ⟨p, hp⟩ := Option.ne_none_iff_exists'.mp hparent
      have hpos := (hpast.parent hc hp).length_pos
      rw [List.length_take, List.length_take] at hpos
      omega
    omega
  · intro hlt
    obtain ⟨a, p, ha, hc, hp, -⟩ := h.exists_child
      (show 0 < past.length - (b.height + 1) by omega) (by omega)
    refine ⟨a, _, ha, hc, ?_, by rw [hp]; exact Option.some_ne_none p⟩
    rw [hcon _ (by omega), UInt64.size]
    omega

/-- Otherwise each block of the past adds one to the height of the oldest. -/
theorem HasPast.height_of_not_restarts {id : BlockId} {b : Block} {past : Past}
    (h : HasPast block? id past) (hcon : past.Consecutive) (hb : block? id = some b)
    (hnot : ¬ Restarts block? id) : b.height + 1 = past.base + past.length := by
  have hheight := h.height_eq hcon hb
  have hbase := h.base_lt hcon
  have hpos := h.length_pos
  rw [h.restarts_iff hcon hb] at hnot
  rw [UInt64.size] at hheight hbase
  omega

end SoftFork
