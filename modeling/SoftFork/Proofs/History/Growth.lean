import SoftFork.History.ActiveChain
import SoftFork.Signal.Ballot
import SoftFork.Proofs.History.Reading
import SoftFork.Proofs.History.Row

/-!
# How trees grow

A tree starts empty and is changed by four acts: three ways of storing a block
and moving the tip.  `grown` is the tree after any list of acts, refused ones
included, and nothing below depends on which hash function is used.

## What an act can do

Whatever the act, a tree is left in one of three ways (`Step`): it stays as it is, or
one block is added, whose hash is new and which stands on its parent, or the active
list is replaced by another row of stored blocks.  To find that out an act
has to be taken apart once (`step_after`), and moving the tip is the one that takes
an argument, because `branch` has to find the row's continuation
(`exists_branch`).  Everything that is kept by all acts is then kept by three
kinds of steps.

## What every tree satisfies

`Sound` is the invariant of growth.  Parents were stored earlier and stand one
lower, unless they stand at the last of all heights; the index finds exactly the
stored hashes; and the active list is a row of blocks from a block without a parent
upwards.  `Sound.of_step` keeps it through one step and `sound_grown` through a whole
run.

The tree's own ancestors are read off the active list where a block is on it.  By
the invariant they are those the links lead to (`Sound.climbs`).
-/

namespace SoftFork

namespace BlockTree

/-! ## Acts -/

/-- One way of changing a tree. -/
inductive Act where
  | genesis (h : Header)
  | detached (h : Header) (height : UInt64)
  | insert (h : Header)
  | setTip (id : BlockId)

/-- What comes of an act: a number or a refusal, and the tree afterwards. -/
def attempt (digest : Header → BlockHash) (t : BlockTree) : Act → Except Fault Nat × BlockTree
  | .genesis h => t.insertGenesis digest h
  | .detached h height => t.insertDetached digest h height
  | .insert h => t.insert digest h
  | .setTip id => t.setTip id

/-- The tree after an act. -/
def after (digest : Header → BlockHash) (t : BlockTree) (act : Act) : BlockTree :=
  (t.attempt digest act).2

/-- The tree that some acts have made of the empty one. -/
def grown (digest : Header → BlockHash) (acts : List Act) : BlockTree :=
  acts.foldl (after digest) empty

/-! ## The invariant -/

/-- What holds of every tree that has grown. -/
structure Sound (t : BlockTree) : Prop where
  /-- A parent was stored earlier and stands one lower, as far as heights reach. -/
  parent : ∀ {id p : BlockId} {b : Block}, t.block? id = some b → b.parent = some p →
    p < id ∧ ∃ q, t.block? p = some q ∧ b.height = q.above
  /-- Heights have sixty-four bits. -/
  height : ∀ {id : BlockId} {b : Block}, t.block? id = some b → b.height < UInt64.size
  /-- A hash is found exactly where a block with that hash is stored. -/
  find : ∀ {hash : BlockHash} {id : BlockId},
    t.find? hash = some id ↔ ∃ b, t.block? id = some b ∧ b.hash = hash
  /-- The active blocks stand one on top of the other, the lowest on nothing. -/
  active : Row t.block? none t.base t.active.toList
  /-- So has the height of the lowest of them. -/
  base : t.base < UInt64.size

theorem sound_empty : empty.Sound where
  parent {id p b} hb := by simp [block?, empty] at hb
  height {id b} hb := by simp [block?, empty] at hb
  find {hash id} := by simp [find?, block?, empty]
  active := trivial
  base := by decide

/-! ## Adding a block -/

theorem block?_push (t : BlockTree) (b : Block) (id : BlockId) :
    (t.push b).block? id = if id = t.size then some b else t.block? id := by
  rw [push, block?, block?, size, Array.getElem?_push]

theorem block?_size (t : BlockTree) : t.block? t.size = none := by
  rw [block?, size, Array.getElem?_eq_none (Nat.le_refl _)]

theorem find?_push (t : BlockTree) (b : Block) (hash : BlockHash) :
    (t.push b).find? hash = if b.hash = hash then some t.size else t.find? hash := by
  rw [push, find?, find?]
  simp only [Std.ExtTreeMap.getElem?_insert, Std.LawfulEqCmp.compare_eq_iff_eq]

theorem block?_push_of_some {t : BlockTree} {id : BlockId} {c : Block} (b : Block)
    (h : t.block? id = some c) : (t.push b).block? id = some c := by
  rw [block?_push, if_neg, h]
  rintro rfl
  rw [block?_size] at h
  exact absurd h (by simp)

/-- A block may be stored when its hash is new and it stands on its parent. -/
theorem Sound.push {t : BlockTree} (ht : t.Sound) {b : Block} (hhash : t.find? b.hash = none)
    (hparent : ∀ p, b.parent = some p → ∃ q, t.block? p = some q ∧ b.height = q.above)
    (hheight : b.height < UInt64.size) : (t.push b).Sound where
  parent {id p c} hc hp := by
    rw [block?_push] at hc
    split at hc
    · next hid =>
      obtain rfl := Option.some.inj hc
      obtain ⟨q, hq, hheight⟩ := hparent p hp
      refine ⟨?_, q, block?_push_of_some b hq, hheight⟩
      rw [hid]
      exact (Array.getElem?_eq_some_iff.mp hq).1
    · obtain ⟨hlt, q, hq, hheight⟩ := ht.parent hc hp
      exact ⟨hlt, q, block?_push_of_some b hq, hheight⟩
  height {id c} hc := by
    rw [block?_push] at hc
    split at hc
    · rwa [← Option.some.inj hc]
    · exact ht.height hc
  find {hash id} := by
    rw [find?_push]
    constructor
    · intro h
      split at h
      · next hb =>
        obtain rfl := Option.some.inj h
        exact ⟨b, by rw [block?_push, if_pos rfl], hb⟩
      · obtain ⟨c, hc, hchash⟩ := ht.find.mp h
        exact ⟨c, block?_push_of_some b hc, hchash⟩
    · rintro ⟨c, hc, hchash⟩
      rw [block?_push] at hc
      split at hc
      · next hid =>
        obtain rfl := Option.some.inj hc
        rw [if_pos hchash, hid]
      · have hfound : t.find? hash = some id := ht.find.mpr ⟨c, hc, hchash⟩
        rw [if_neg, hfound]
        rintro rfl
        rw [hhash] at hfound
        exact absurd hfound (by simp)
  active := ht.active.mono fun _ _ => block?_push_of_some b
  base := ht.base

/-! ## The walk to a new tip -/

theorem get_eq_ok {t : BlockTree} {id : BlockId} {b : Block} (hb : t.block? id = some b) :
    t.get id = .ok b := by
  rw [get, storedBlock, hb]

/-- An active block stands in the active list at the place its height says. -/
theorem isActive_iff {t : BlockTree} {id : BlockId} {b : Block} (hb : t.block? id = some b) :
    t.isActive id = true ↔ t.base ≤ b.height ∧ t.active[b.height - t.base]? = some id := by
  rw [isActive, hb]
  simp only [activeAt, beq_iff_eq]
  split
  · next hlt => exact ⟨fun h => absurd h (by simp), fun h => absurd h.1 (by omega)⟩
  · next hge => exact ⟨fun h => ⟨by omega, h⟩, fun h => h.2⟩

section Branch

variable {t : BlockTree} {id : BlockId} {b : Block} {steps : Nat} {path : List BlockId}

theorem branch_of_oldest (hactive : ¬ t.isActive id = true) (hb : t.block? id = some b)
    (hparent : b.parent = none) : t.branch (steps + 1) id path = .ok (id :: path, none) := by
  rw [branch, if_neg hactive, get_eq_ok hb, ok_bind, hparent]
  rfl

theorem branch_of_parent (hactive : ¬ t.isActive id = true) (hb : t.block? id = some b)
    {p : BlockId} (hparent : b.parent = some p) :
    t.branch (steps + 1) id path = t.branch steps p (id :: path) := by
  rw [branch, if_neg hactive, get_eq_ok hb, ok_bind, hparent]

end Branch

/-- What stands on a block is in a row with what stands on that. -/
theorem Sound.row_cons {t : BlockTree} (ht : t.Sound) {id p : BlockId} {b q : Block}
    {path : List BlockId} (hb : t.block? id = some b) (hparent : b.parent = some p)
    (hq : t.block? p = some q) (hpath : Row t.block? (some id) (b.height + 1) path) :
    Row t.block? (some p) (q.height + 1) (id :: path) := by
  obtain ⟨-, q', hq', hheight⟩ := ht.parent hb hparent
  obtain rfl := Option.some.inj (hq.symm.trans hq')
  rw [Block.above] at hheight
  have hsame : (b.height + 1) % UInt64.size = (q.height + 1 + 1) % UInt64.size := by
    rw [hheight, Nat.mod_add_mod]
  exact ⟨⟨b, hb, hparent, hheight⟩, hpath.congr hsame⟩

/-- The walk back from a block ends at an active block, or at one without a parent,
and has collected a row from there up to what it was given. -/
theorem exists_branch {t : BlockTree} (ht : t.Sound) (steps : Nat) :
    ∀ {id : BlockId} {b : Block} {path : List BlockId}, t.block? id = some b → id < steps →
      Row t.block? (some id) (b.height + 1) path →
      (∃ fork f path', t.branch steps id path = .ok (path', some fork) ∧ t.isActive fork = true ∧
        t.block? fork = some f ∧ Row t.block? (some fork) (f.height + 1) path') ∨
      (∃ lowest l rest, t.branch steps id path = .ok (lowest :: rest, none) ∧
        t.block? lowest = some l ∧ Row t.block? none l.height (lowest :: rest)) := by
  induction steps with
  | zero => exact fun _ h => absurd h (Nat.not_lt_zero _)
  | succ steps ih =>
    intro id b path hb hlt hpath
    by_cases hactive : t.isActive id = true
    · refine Or.inl ⟨id, b, path, ?_, hactive, hb, hpath⟩
      rw [branch, if_pos hactive]
    · cases hparent : b.parent with
      | none =>
        exact Or.inr ⟨id, b, path, branch_of_oldest hactive hb hparent, hb,
          ⟨b, hb, hparent, (Nat.mod_eq_of_lt (ht.height hb)).symm⟩, hpath⟩
      | some p =>
        obtain ⟨hp, q, hq, -⟩ := ht.parent hb hparent
        rw [branch_of_parent hactive hb hparent]
        have hlt' : p < steps := Nat.lt_of_lt_of_le hp (Nat.le_of_lt_succ hlt)
        exact ih hq hlt' (ht.row_cons hb hparent hq hpath)

/-- Moving the tip to a block above an active one keeps the active list up to there. -/
theorem setTip_of_fork {t : BlockTree} {id fork : BlockId} {b f : Block} {path : List BlockId}
    (hb : t.block? id = some b) (hbranch : t.branch (id + 1) id [] = .ok (path, some fork))
    (hf : t.block? fork = some f) :
    t.setTip id =
      (.ok (t.active.size - (t.active.take (f.height - t.base + 1)).size),
        { t with active := t.active.take (f.height - t.base + 1) ++ path.toArray }) := by
  have hget : ∀ active, BlockTree.get { t with active := active } id = .ok b :=
    fun _ => get_eq_ok hb
  rw [setTip, hbranch]
  simp only [cutTo, rewindTo, get_eq_ok hf, hget]

/-- Moving the tip to a block above no active one starts the active list afresh. -/
theorem setTip_of_oldest {t : BlockTree} {id lowest : BlockId} {b l : Block} {rest : List BlockId}
    (hb : t.block? id = some b)
    (hbranch : t.branch (id + 1) id [] = .ok (lowest :: rest, none))
    (hl : t.block? lowest = some l) :
    t.setTip id =
      (.ok t.active.size, { t with active := (lowest :: rest).toArray, base := l.height }) := by
  have hget : ∀ active base, BlockTree.get { t with active := active, base := base } id = .ok b :=
    fun _ _ => get_eq_ok hb
  rw [setTip, hbranch]
  simp only [cutTo, restartAt, get_eq_ok hl, hget, List.size_toArray, List.length_nil,
    Nat.sub_zero, Array.empty_append]

/-- The tip does not move to a block that is not stored. -/
theorem setTip_of_unknown {t : BlockTree} {id : BlockId} (hb : t.block? id = none) :
    t.setTip id = (.error (.unknownBlock id), t) := by
  have hget : t.get id = .error (.unknownBlock id) := by rw [get, storedBlock, hb]
  have hactive : ¬ t.isActive id = true := by
    rw [isActive, hb]
    exact Bool.false_ne_true
  rw [setTip, branch, if_neg hactive, hget]
  rfl

/-! ## What an act can do -/

/-- The ways in which an act can leave a tree. -/
inductive Step (digest : Header → BlockHash) (t : BlockTree) : BlockTree → Prop where
  /-- Nothing happens. -/
  | same : Step digest t t
  /-- A block is added, with a new hash, and on its parent, if it has one. -/
  | stored {h : Header} {parent : Option BlockId} {height : Nat} (hfits : h.timeFits = true)
    (hfind : t.find? (digest h) = none)
    (hparent : ∀ p, parent = some p → ∃ q, t.block? p = some q ∧ height = q.above)
    (hheight : height < UInt64.size) :
    Step digest t (t.push ⟨digest h, height, h.time.toNat, h.version, parent⟩)
  /-- Another row of blocks becomes active. -/
  | moved {active : Array BlockId} {base : Nat} (hrow : Row t.block? none base active.toList)
    (hbase : base < UInt64.size) : Step digest t { t with active := active, base := base }

variable {digest : Header → BlockHash} {t : BlockTree}

theorem step_store {h : Header} {parent : Option BlockId} {height : Nat}
    (hparent : ∀ p, parent = some p → ∃ q, t.block? p = some q ∧ height = q.above)
    (hheight : height < UInt64.size) : Step digest t (t.store digest h parent height).2 := by
  rw [store]
  split
  · exact .same
  · next hfits =>
    split
    · exact .same
    · next hfind => exact .stored (by simpa using hfits) hfind hparent hheight

theorem step_insert (ht : t.Sound) (h : Header) : Step digest t (t.insert digest h).2 := by
  rw [insert]
  split
  · exact .same
  · next p hp =>
    obtain ⟨q, hq, _⟩ := ht.find.mp hp
    rw [get_eq_ok hq]
    refine step_store (fun p' hp' => ?_) (Nat.mod_lt _ (by decide))
    obtain rfl := Option.some.inj hp'
    exact ⟨q, hq, rfl⟩

theorem step_setTip (ht : t.Sound) (id : BlockId) : Step digest t (t.setTip id).2 := by
  cases hb : t.block? id with
  | none =>
    rw [setTip_of_unknown hb]
    exact .same
  | some b =>
    rcases exists_branch ht (id + 1) hb (Nat.lt_succ_self _) Row.nil with
      ⟨fork, f, path, hbranch, hactive, hf, hpath⟩ | ⟨lowest, l, rest, hbranch, hl, hpath⟩
    · obtain ⟨hbase, hat⟩ := (isActive_iff hf).mp hactive
      rw [setTip_of_fork hb hbranch hf]
      refine .moved ?_ ht.base
      -- the part that is kept ends with the fork, and the path goes on from there
      have hlt := (Array.getElem?_eq_some_iff.mp hat).1
      have hlast : (t.active.toList.take (f.height - t.base + 1)).getLast? = some fork := by
        rw [List.getLast?_take, Nat.add_sub_cancel, Array.getElem?_toList, hat]
        rfl
      have hlen : (t.active.toList.take (f.height - t.base + 1)).length =
          f.height - t.base + 1 := by
        rw [List.length_take, Array.length_toList]
        omega
      have hkept := ht.active.take (f.height - t.base + 1)
      rw [Array.toList_append, Array.toList_extract]
      refine hkept.append ?_
      rw [hlast, hlen, show t.base + (f.height - t.base + 1) = f.height + 1 by omega]
      exact hpath
    · rw [setTip_of_oldest hb hbranch hl]
      exact .moved hpath (ht.height hl)

theorem step_after (ht : t.Sound) (act : Act) : Step digest t (t.after digest act) := by
  cases act with
  | genesis h => exact step_store (fun _ hp => absurd hp (by simp)) (by decide)
  | detached h height => exact step_store (fun _ hp => absurd hp (by simp)) height.toNat_lt
  | insert h => exact step_insert ht h
  | setTip id => exact step_setTip ht id

/-! ## Runs -/

/-- A step keeps the invariant. -/
theorem Sound.of_step (ht : t.Sound) {t' : BlockTree} (h : Step digest t t') : t'.Sound := by
  cases h with
  | same => exact ht
  | stored _ hfind hparent hheight => exact ht.push hfind hparent hheight
  | moved hrow hbase => exact ⟨ht.parent, ht.height, ht.find, hrow, hbase⟩

/-- A step leaves every stored block as it is. -/
theorem Step.block? {t' : BlockTree} (h : Step digest t t') {id : BlockId} {b : Block}
    (hb : t.block? id = some b) : t'.block? id = some b := by
  cases h with
  | same => exact hb
  | stored _ _ _ _ => exact block?_push_of_some _ hb
  | moved _ _ => exact hb

theorem Sound.foldl_after (ht : t.Sound) (digest : Header → BlockHash) (acts : List Act) :
    (acts.foldl (after digest) t).Sound := by
  induction acts generalizing t with
  | nil => exact ht
  | cons act acts ih => exact ih (ht.of_step (step_after ht act))

/-- Every tree that has grown is sound. -/
theorem sound_grown (digest : Header → BlockHash) (acts : List Act) :
    (grown digest acts).Sound :=
  sound_empty.foldl_after digest acts

/-- A step adds no block that is later than the wire form of a header can say. -/
theorem Step.time_lt {t' : BlockTree} (h : Step digest t t')
    (htimes : ∀ {id b}, t.block? id = some b → b.time < UInt32.size) {id : BlockId} {b : Block}
    (hb : t'.block? id = some b) : b.time < UInt32.size := by
  cases h with
  | same => exact htimes hb
  | @stored h _ _ hfits _ _ _ =>
    rw [block?_push] at hb
    split at hb
    · rw [← Option.some.inj hb]
      exact Nat.lt_succ_of_le (UInt64.le_iff_toNat_le.mp (of_decide_eq_true hfits))
    · exact htimes hb
  | moved _ _ => exact htimes hb

theorem Sound.time_lt_foldl_after (ht : t.Sound)
    (htimes : ∀ {id b}, t.block? id = some b → b.time < UInt32.size) (acts : List Act)
    {id : BlockId} {b : Block} (hb : (acts.foldl (after digest) t).block? id = some b) :
    b.time < UInt32.size := by
  induction acts generalizing t with
  | nil => exact htimes hb
  | cons act acts ih =>
    have hstep : Step digest t (t.after digest act) := step_after ht act
    exact ih (ht.of_step hstep) (fun h => hstep.time_lt htimes h) hb

theorem time_lt_of_grown {digest : Header → BlockHash} {acts : List Act} {id : BlockId} {b : Block}
    (hb : (grown digest acts).block? id = some b) : b.time < UInt32.size :=
  sound_empty.time_lt_foldl_after (fun h => absurd h (by simp [block?, empty])) acts hb

/-! ## Pasts in a tree -/

namespace Sound

/-- Heights rise by one along the links of a tree. -/
theorem consecutive (ht : t.Sound) {id : BlockId} {past : Past}
    (h : HasPast t.block? id past) : past.Consecutive := by
  induction h with
  | oldest hb _ => exact Past.consecutive_singleton (ht.height hb)
  | later hb hparent hpast ih =>
    refine (Past.consecutive_snoc hpast.ne_nil _).mpr ⟨ih, ?_⟩
    obtain ⟨_, q, hq, hheight⟩ := ht.parent hb hparent
    rw [← hpast.above_eq ih hq]
    exact hheight

/-- A block that is not at height zero stands one above its parent. -/
theorem height_parent (ht : t.Sound) {id p : BlockId} {b : Block} (hb : t.block? id = some b)
    (hparent : b.parent = some p) (hpos : 0 < b.height) :
    ∃ q, t.block? p = some q ∧ b.height = q.height + 1 := by
  obtain ⟨_, q, hq, hheight⟩ := ht.parent hb hparent
  have hlt := ht.height hq
  rw [Block.above, UInt64.size] at hheight
  rw [UInt64.size] at hlt
  exact ⟨q, hq, by omega⟩

/-- Every stored block has a past. -/
theorem exists_past (ht : t.Sound) {id : BlockId} {b : Block} (hb : t.block? id = some b) :
    ∃ past, HasPast t.block? id past := by
  induction id using Nat.strongRecOn generalizing b with
  | ind id ih =>
    cases hparent : b.parent with
    | none => exact ⟨_, .oldest hb hparent⟩
    | some p =>
      obtain ⟨hlt, q, hq, _⟩ := ht.parent hb hparent
      obtain ⟨past, hpast⟩ := ih p hlt hq
      exact ⟨_, .later hb hparent hpast⟩

/-- A past has no more blocks than there are numbers up to that of its last. -/
theorem length_le (ht : t.Sound) {id : BlockId} {past : Past} (h : HasPast t.block? id past) :
    past.length ≤ id + 1 := by
  induction h with
  | oldest _ _ => exact Nat.le_add_left 1 _
  | later hb hparent _ ih =>
    obtain ⟨hlt, -⟩ := ht.parent hb hparent
    rw [List.length_append, List.length_singleton]
    exact Nat.le_trans (Nat.succ_le_succ ih) (Nat.succ_le_succ hlt)

/-- While numbers have sixty-four bits, a past goes down to genesis as soon as its oldest block
stands at height zero. -/
theorem rooted_iff (ht : t.Sound) (hsize : t.size < UInt64.size) {id : BlockId} {past : Past}
    (h : HasPast t.block? id past) : past.Rooted ↔ past.base = 0 := by
  obtain ⟨b, hb, -⟩ := h.exists_block
  have hid : id < t.size := (Array.getElem?_eq_some_iff.mp hb).1
  have hlen := Nat.lt_of_le_of_lt (Nat.le_trans (ht.length_le h) hid) hsize
  exact ⟨And.left, fun hbase => ⟨hbase, hlen⟩⟩

/-- Reading an ancestor off the active list gives what the links lead to. -/
theorem hasPast_activeAt (ht : t.Sound) {id : BlockId} {b : Block} {past : Past}
    (h : HasPast t.block? id past) (hactive : t.activeAt b.height = some id) {up : Nat}
    (hup : up ≤ b.height) :
    if past.length ≤ up then t.activeAt (b.height - up) = none
    else ∃ a, t.activeAt (b.height - up) = some a ∧
      HasPast t.block? a (past.take (past.length - up)) := by
  rw [activeAt] at hactive
  split at hactive
  · exact absurd hactive (by simp)
  · next hge =>
    have hi : t.active.toList[b.height - t.base]? = some id := by
      rw [Array.getElem?_toList]
      exact hactive
    obtain ⟨hlen, -, hbelow⟩ := ht.active.hasPast hi h
    have hlt := (List.getElem?_eq_some_iff.mp hi).1
    rw [Array.length_toList] at hlt
    rw [activeAt]
    split
    · rw [if_pos (by omega)]
    · next hup' =>
      rw [if_neg (by omega)]
      refine ⟨t.active[b.height - up - t.base], Array.getElem?_eq_getElem (by omega), ?_⟩
      rw [show past.length - up = b.height - up - t.base + 1 by omega]
      refine hbelow (by omega) ?_
      rw [Array.getElem?_toList]
      exact Array.getElem?_eq_getElem (by omega)

/-- Going down the links, or off them at an active block, leads to the ancestor at
the height, and fails exactly below the past. -/
theorem descendTo_spec (ht : t.Sound) (height steps : Nat) :
    ∀ {id : BlockId} {b : Block} {past : Past}, t.block? id = some b →
      HasPast t.block? id past → b.height = height + steps →
      if past.length ≤ steps then
        ∃ m, t.descendTo height steps id = .error (.historyMissing m)
      else ∃ a, t.descendTo height steps id = .ok a ∧
        HasPast t.block? a (past.take (past.length - steps)) := by
  induction steps with
  | zero =>
    intro id b past hb h hheight
    rw [if_neg (Nat.not_le.mpr h.length_pos), Nat.sub_zero, List.take_length]
    exact ⟨id, rfl, h⟩
  | succ steps ih =>
    intro id b past hb h hheight
    by_cases hactive : t.activeAt b.height = some id
    · have hread := ht.hasPast_activeAt h hactive (show steps + 1 ≤ b.height by omega)
      rw [show b.height - (steps + 1) = height by omega] at hread
      rw [descendTo, get_eq_ok hb, ok_bind, if_pos hactive]
      split at hread
      · next hle =>
        rw [if_pos hle, hread]
        exact ⟨height, rfl⟩
      · next hlt =>
        obtain ⟨a, ha, hpast⟩ := hread
        rw [if_neg hlt, ha]
        exact ⟨a, rfl, hpast⟩
    · rw [descendTo, get_eq_ok hb, ok_bind, if_neg hactive]
      cases h with
      | oldest hb' hparent =>
        rw [hb] at hb'
        obtain rfl := Option.some.inj hb'
        rw [if_pos (by simp), hparent]
        exact ⟨b.height - 1, rfl⟩
      | @later _ p b' past hb' hparent hpast =>
        rw [hb] at hb'
        obtain rfl := Option.some.inj hb'
        obtain ⟨q, hq, hqheight⟩ := ht.height_parent hb hparent (by omega)
        have hbelow := ih hq hpast (by omega)
        rw [hparent, List.length_append, List.length_singleton, Nat.add_sub_add_right]
        by_cases hle : past.length ≤ steps
        · rw [if_pos hle] at hbelow
          rw [if_pos (Nat.succ_le_succ hle)]
          exact hbelow
        · rw [if_neg hle] at hbelow
          rw [if_neg (mt Nat.le_of_succ_le_succ hle),
            List.take_append_of_le_length (Nat.sub_le _ _)]
          exact hbelow

/-- Going down leads to a block that one stands on. -/
theorem standsOn_of_descendTo (ht : t.Sound) (height steps : Nat) :
    ∀ {id a : BlockId} {b : Block}, t.block? id = some b → b.height = height + steps →
      t.descendTo height steps id = .ok a → StandsOn t.block? id a := by
  induction steps with
  | zero =>
    intro id a b _ _ h
    obtain rfl := Except.ok.inj h
    exact .self
  | succ steps ih =>
    intro id a b hb hheight h
    rw [descendTo, get_eq_ok hb, ok_bind] at h
    split at h
    · next hactive =>
      cases hread : t.activeAt height with
      | none =>
        rw [hread] at h
        exact absurd h (by simp)
      | some a' =>
        rw [hread] at h
        obtain rfl := Except.ok.inj h
        rw [activeAt] at hread hactive
        split at hread
        · exact absurd hread (by simp)
        · split at hactive
          · exact absurd hactive (by simp)
          · rw [← Array.getElem?_toList] at hread hactive
            exact ht.active.standsOn (by omega) hactive hread
    · cases hparent : b.parent with
      | none =>
        rw [hparent] at h
        exact absurd h (by simp)
      | some p =>
        rw [hparent] at h
        obtain ⟨q, hq, hqheight⟩ := ht.height_parent hb hparent (by omega)
        exact StandsOn.trans (.parent .self hb hparent) (ih hq (by omega) h)

/-- The tree finds an ancestor only where the links lead. -/
theorem standsOn_of_ancestor (ht : t.Sound) {id a : BlockId} {height : Nat}
    (h : t.ancestor id height = .ok a) : StandsOn t.block? id a := by
  cases hb : t.block? id with
  | none =>
    rw [ancestor, get, storedBlock, hb, error_bind] at h
    exact absurd h (by simp)
  | some b =>
    rw [ancestor, get_eq_ok hb, ok_bind] at h
    split at h
    · exact absurd h (by simp)
    · exact ht.standsOn_of_descendTo height (b.height - height) hb (by omega) h

theorem standsOn_of_closing (ht : t.Sound) {period : Nat} {id a : BlockId}
    (h : t.view.closing period id = .ok (some a)) : StandsOn t.block? id a := by
  rw [View.closing] at h
  cases hget : t.view.get id with
  | error e =>
    rw [hget] at h
    exact absurd h (by simp)
  | ok b =>
    rw [hget, ok_bind] at h
    split at h
    · exact absurd h (by simp)
    · split at h
      · exact absurd h (by simp)
      · cases hancestor : t.view.ancestor id (b.height - b.above % period) with
        | error e =>
          rw [hancestor] at h
          exact absurd h (by simp)
        | ok a' =>
          rw [hancestor] at h
          obtain rfl := Option.some.inj (Except.ok.inj h)
          exact ht.standsOn_of_ancestor hancestor

/-- The past of what a block stands on is as long as its height says, when it goes down
to genesis. -/
theorem hasPast_of_standsOn (ht : t.Sound) {tip id : BlockId} {b : Block} {past : Past}
    (h : HasPast t.block? tip past) (hroot : past.Rooted) (hid : StandsOn t.block? tip id)
    (hb : t.block? id = some b) :
    b.height < past.length ∧ HasPast t.block? id (past.take (b.height + 1)) := by
  obtain ⟨k, hk, hle, hpast⟩ := hid.hasPast h
  have hnext := hroot.next_take hle
  have hheight := hpast.height_succ (ht.consecutive hpast) hb (by omega)
  rw [hheight, hnext]
  exact ⟨by omega, hpast⟩

/-- A grown tree's own way to ancestors leads where the links lead. -/
theorem climbs (ht : t.Sound) : t.view.Climbs where
  found {id past b up} h hb hup hlt := by
    have hfound := ht.descendTo_spec (b.height - up) up hb h (by omega)
    rw [if_neg (Nat.not_le.mpr hlt)] at hfound
    obtain ⟨a, ha, hpast⟩ := hfound
    refine ⟨a, ?_, hpast⟩
    show t.ancestor id (b.height - up) = .ok a
    rw [ancestor, get_eq_ok hb, ok_bind, if_neg (by omega), Nat.sub_sub_self hup, ha]
  missing {id past b up} h hb hup hle := by
    have hmissing := ht.descendTo_spec (b.height - up) up hb h (by omega)
    rw [if_pos hle] at hmissing
    obtain ⟨m, hm⟩ := hmissing
    refine ⟨m, ?_⟩
    show t.ancestor id (b.height - up) = .error (.historyMissing m)
    rw [ancestor, get_eq_ok hb, ok_bind, if_neg (by omega), Nat.sub_sub_self hup, hm]

/-- Both ways of looking at a grown tree are lawful. -/
theorem lawful_view (ht : t.Sound) : t.view.Lawful where
  toClimbs := ht.climbs
  past hb := (ht.exists_past hb).imp fun _ h => ⟨h, ht.consecutive h⟩

theorem lawful_plainView (ht : t.Sound) : t.plainView.Lawful where
  toClimbs := View.climbs_ofBlocks t.block?
  past hb := (ht.exists_past hb).imp fun _ h => ⟨h, ht.consecutive h⟩

end Sound

/-! ## A tree with a fork, and a ballot -/

/-- A hash function for small trees, whose headers differ in their nonces. -/
def nonceDigest (h : Header) : BlockHash :=
  ⟨Vector.replicate 32 h.nonce.toUInt8⟩

/-- A header on top of the one with the nonce `parent`. -/
def headerOn (parent nonce : UInt8) (time : UInt64) (version : UInt32) : Header where
  version := version
  parent := ⟨Vector.replicate 32 parent⟩
  merkleRoot := Vector.replicate 32 0
  time := time
  bits := 0
  nonce := nonce.toUInt32

/-- Eight blocks in a row, all of which vote; then a branch of three that leaves the
row after the fifth, whose first block does not vote and whose last is the tip. -/
def forkedActs : List Act :=
  [.genesis (headerOn 0 1 10 0x20000001),
   .insert (headerOn 1 2 20 0x20000001),
   .insert (headerOn 2 3 21 0x20000001),
   .insert (headerOn 3 4 30 0x20000001),
   .insert (headerOn 4 5 22 0x20000001),
   .insert (headerOn 5 6 40 0x20000001),
   .insert (headerOn 6 7 50 0x20000001),
   .insert (headerOn 7 8 60 0x20000001),
   .setTip 7,
   .insert (headerOn 5 9 41 4),
   .insert (headerOn 9 10 51 0x20000001),
   .insert (headerOn 10 11 61 0x20000001),
   .setTip 10]

/-- A ballot with periods of two blocks, both of which have to vote. -/
def pairBallot : Ballot where
  startTime := 21
  timeout := 1000
  period := 2
  threshold := 2
  minActivationHeight := 0
  votes b := Version.signals b.version 0

/-- A block of a small tree, with the nonce of its header and its place. -/
def blockOn (parent : Option BlockId) (nonce : UInt8) (height time : Nat) (version : UInt32) :
    Block :=
  ⟨⟨Vector.replicate 32 nonce⟩, height, time, version, parent⟩

/-- The past of the last of the eight. -/
def forkedPast : Past :=
  [blockOn none 1 0 10 0x20000001, blockOn (some 0) 2 1 20 0x20000001,
   blockOn (some 1) 3 2 21 0x20000001, blockOn (some 2) 4 3 30 0x20000001,
   blockOn (some 3) 5 4 22 0x20000001, blockOn (some 4) 6 5 40 0x20000001,
   blockOn (some 5) 7 6 50 0x20000001, blockOn (some 6) 8 7 60 0x20000001]

theorem hasPast_forked : HasPast (grown nonceDigest forkedActs).block? 7 forkedPast := by
  decide +kernel

end BlockTree
end SoftFork
