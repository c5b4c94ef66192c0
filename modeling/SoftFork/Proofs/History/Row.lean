import SoftFork.Proofs.History.Past

/-!
# Blocks in a row

A list of blocks is a `Row` when each of them stands on the one before.  The links
of a row lead down the list, so heights can be counted along it (`Row.height`), from
the foot of the row and modulo the number of all heights.  When nothing is below the
first block the whole past of each of them lies in the row: the pasts are the
beginnings of one past, each as long as the part of the row up to its block
(`Row.hasPast`).

That is what makes a list of blocks as good as their links.  Whoever has the list
can read an ancestor off it at a known place.
-/

namespace SoftFork

/-- Blocks one on top of the other, the first on `parent` and at `height`, or where this leads
when heights have started again. -/
def Row (block? : BlockId → Option Block) : Option BlockId → Nat → List BlockId → Prop
  | _, _, [] => True
  | parent, height, id :: rest =>
    (∃ b, block? id = some b ∧ b.parent = parent ∧ b.height = height % UInt64.size) ∧
      Row block? (some id) (height + 1) rest

namespace Row

variable {block? : BlockId → Option Block}

theorem nil {parent : Option BlockId} {height : Nat} : Row block? parent height [] :=
  trivial

theorem mono {more? : BlockId → Option Block}
    (hsub : ∀ id b, block? id = some b → more? id = some b) {ids : List BlockId} :
    ∀ {parent : Option BlockId} {height : Nat}, Row block? parent height ids →
      Row more? parent height ids := by
  induction ids with
  | nil => exact fun _ => trivial
  | cons id rest ih =>
    rintro parent height ⟨⟨b, hb, hparent, hheight⟩, hrest⟩
    exact ⟨⟨b, hsub _ _ hb, hparent, hheight⟩, ih hrest⟩

/-- Which of the heights is meant that agree when heights start again does not matter. -/
theorem congr {ids : List BlockId} : ∀ {parent : Option BlockId} {height height' : Nat},
    height % UInt64.size = height' % UInt64.size → Row block? parent height ids →
      Row block? parent height' ids := by
  induction ids with
  | nil => exact fun _ _ => trivial
  | cons id rest ih =>
    rintro parent height height' heq ⟨⟨b, hb, hparent, hheight⟩, hrest⟩
    have hnext : (height + 1) % UInt64.size = (height' + 1) % UInt64.size := by
      rw [UInt64.size] at heq ⊢
      omega
    exact ⟨⟨b, hb, hparent, hheight.trans heq⟩, ih hnext hrest⟩

theorem take {ids : List BlockId} : ∀ {parent : Option BlockId} {height : Nat},
    Row block? parent height ids → ∀ n, Row block? parent height (ids.take n) := by
  induction ids with
  | nil =>
    intro parent height _ n
    rw [List.take_nil]
    exact trivial
  | cons id rest ih =>
    rintro parent height ⟨hid, hrest⟩ n
    cases n with
    | zero => exact trivial
    | succ n => exact ⟨hid, ih hrest n⟩

/-- A row continues another at the block on which the other ends. -/
theorem append {ids more : List BlockId} : ∀ {parent : Option BlockId} {height : Nat},
    Row block? parent height ids →
      Row block? (ids.getLast?.or parent) (height + ids.length) more →
      Row block? parent height (ids ++ more) := by
  induction ids with
  | nil => exact fun _ hmore => hmore
  | cons id rest ih =>
    rintro parent height ⟨hid, hrest⟩ hmore
    refine ⟨hid, ih hrest ?_⟩
    have hlen : height + 1 + rest.length = height + (id :: rest).length := by
      rw [List.length_cons]
      omega
    rw [hlen]
    have hlast : rest.getLast?.or (some id) = (id :: rest).getLast?.or parent := by
      cases rest with
      | nil => rfl
      | cons x rest =>
        rw [List.getLast?_cons_cons, List.getLast?_eq_some_getLast (List.cons_ne_nil x rest)]
        rfl
    rw [hlast]
    exact hmore

/-- The last block of a row stands on the block before it, or on what the row stands on. -/
theorem last {ids : List BlockId} {id : BlockId} : ∀ {parent : Option BlockId} {height : Nat},
    Row block? parent height (ids ++ [id]) →
      ∃ b, block? id = some b ∧ b.parent = ids.getLast?.or parent ∧
        b.height = (height + ids.length) % UInt64.size := by
  induction ids with
  | nil => exact fun h => h.1
  | cons x rest ih =>
    rintro parent height ⟨-, hrest⟩
    obtain ⟨b, hb, hparent, hheight⟩ := ih hrest
    refine ⟨b, hb, ?_, by rw [hheight, List.length_cons, Nat.add_assoc, Nat.add_comm 1]⟩
    rw [hparent]
    cases rest with
    | nil => rfl
    | cons y rest =>
      rw [List.getLast?_cons_cons, List.getLast?_eq_some_getLast (List.cons_ne_nil y rest)]
      rfl

/-- A block of a row stands as high above the row's foot as its position says. -/
theorem height {ids : List BlockId} : ∀ {parent : Option BlockId} {height : Nat},
    Row block? parent height ids → ∀ {i : Nat} {id : BlockId}, ids[i]? = some id →
      ∃ b, block? id = some b ∧ b.height = (height + i) % UInt64.size := by
  induction ids with
  | nil => exact fun _ _ _ h => absurd h (by simp)
  | cons x rest ih =>
    rintro parent height ⟨⟨b, hb, _, hheight⟩, hrest⟩ i id hi
    cases i with
    | zero =>
      rw [List.getElem?_cons_zero] at hi
      obtain rfl := Option.some.inj hi
      exact ⟨b, hb, hheight⟩
    | succ i =>
      rw [List.getElem?_cons_succ] at hi
      obtain ⟨b', hb', hheight'⟩ := ih hrest hi
      exact ⟨b', hb', by rw [hheight', Nat.add_assoc, Nat.add_comm 1]⟩

/-- When parents have smaller numbers, the numbers rise along a row. -/
theorem lt_of_mem (hlt : ∀ {id p : BlockId} {b : Block}, block? id = some b →
    b.parent = some p → p < id) {ids : List BlockId} : ∀ {p : BlockId} {height : Nat},
    Row block? (some p) height ids → ∀ id ∈ ids, p < id := by
  induction ids with
  | nil => exact fun _ _ hid => absurd hid List.not_mem_nil
  | cons x rest ih =>
    rintro p height ⟨⟨b, hb, hparent, _⟩, hrest⟩ id hid
    have hx := hlt hb hparent
    rcases List.mem_cons.mp hid with rfl | hid
    · exact hx
    · exact Nat.lt_trans hx (ih hrest id hid)

/-- So no block stands twice in a row. -/
theorem nodup (hlt : ∀ {id p : BlockId} {b : Block}, block? id = some b →
    b.parent = some p → p < id) {ids : List BlockId} : ∀ {parent : Option BlockId} {height : Nat},
    Row block? parent height ids → ids.Nodup := by
  induction ids with
  | nil => exact fun _ => List.nodup_nil
  | cons x rest ih =>
    rintro parent height ⟨-, hrest⟩
    exact List.nodup_cons.mpr ⟨fun hx => absurd (lt_of_mem hlt hrest x hx) (Nat.lt_irrefl x),
      ih hrest⟩

/-- The parent of a block in a row is in the row, or the row stands on it. -/
theorem parent_mem {ids : List BlockId} : ∀ {parent : Option BlockId} {height : Nat},
    Row block? parent height ids → ∀ {id a : BlockId} {b : Block}, id ∈ ids →
      block? id = some b → b.parent = some a → a ∈ ids ∨ parent = some a := by
  induction ids with
  | nil => exact fun _ _ _ _ hid => absurd hid List.not_mem_nil
  | cons x rest ih =>
    rintro parent height ⟨⟨b, hb, hparent, _⟩, hrest⟩ id a b' hid hb' ha
    rcases List.mem_cons.mp hid with rfl | hid
    · rw [hb] at hb'
      obtain rfl := Option.some.inj hb'
      exact Or.inr (hparent.symm.trans ha)
    · rcases ih hrest hid hb' ha with hmem | hx
      · exact Or.inl (List.mem_cons_of_mem x hmem)
      · exact Or.inl (Option.some.inj hx ▸ List.mem_cons_self)

/-- A row that stands on nothing holds whatever its blocks stand on. -/
theorem mem_of_standsOn {ids : List BlockId} {height : Nat} (h : Row block? none height ids)
    {id a : BlockId} (hid : id ∈ ids) (ha : StandsOn block? id a) : a ∈ ids := by
  induction ha with
  | self => exact hid
  | parent _ hb hparent ih => exact (h.parent_mem ih hb hparent).resolve_right (by simp)

/-- The pasts of the blocks in a row are beginnings of one past: a row on top of a
block with the past `before` adds its own blocks to it. -/
theorem hasPast_above {ids : List BlockId} : ∀ {p : BlockId} {height : Nat} {before : Past},
    Row block? (some p) height ids → HasPast block? p before → ∃ blocks : List Block,
      blocks.length = ids.length ∧ ∀ {i : Nat} {id : BlockId}, ids[i]? = some id →
        HasPast block? id (before ++ blocks.take (i + 1)) := by
  induction ids with
  | nil => exact fun _ _ => ⟨[], rfl, fun h => absurd h (by simp)⟩
  | cons x rest ih =>
    rintro p height before ⟨⟨b, hb, hparent, _⟩, hrest⟩ hp
    have hx := HasPast.later hb hparent hp
    obtain ⟨blocks, hlen, hblocks⟩ := ih hrest hx
    refine ⟨b :: blocks, by rw [List.length_cons, List.length_cons, hlen], ?_⟩
    intro i id hi
    cases i with
    | zero =>
      rw [List.getElem?_cons_zero] at hi
      obtain rfl := Option.some.inj hi
      exact hx
    | succ i =>
      rw [List.getElem?_cons_succ] at hi
      have hid := hblocks hi
      rwa [List.append_assoc] at hid

/-- The past of a block in a row that starts without a parent is as long as the
part of the row up to the block, and the blocks before it have its beginnings. -/
theorem hasPast {ids : List BlockId} {foot : Nat} (h : Row block? none foot ids) {i : Nat}
    {id : BlockId} {past : Past} (hi : ids[i]? = some id) (hpast : HasPast block? id past) :
    past.length = i + 1 ∧ past.base = foot % UInt64.size ∧
      ∀ {j : Nat} {a : BlockId}, j ≤ i → ids[j]? = some a →
        HasPast block? a (past.take (j + 1)) := by
  cases ids with
  | nil => exact absurd hi (by simp)
  | cons x rest =>
    obtain ⟨⟨b, hb, hparent, hheight⟩, hrest⟩ := h
    have hx := HasPast.oldest hb hparent
    obtain ⟨blocks, hlen, hblocks⟩ := hasPast_above hrest hx
    have hall : ∀ {k : Nat} {a : BlockId}, (x :: rest)[k]? = some a →
        k ≤ blocks.length ∧ HasPast block? a ((b :: blocks).take (k + 1)) := by
      intro k a hk
      cases k with
      | zero =>
        rw [List.getElem?_cons_zero] at hk
        obtain rfl := Option.some.inj hk
        exact ⟨Nat.zero_le _, hx⟩
      | succ k =>
        rw [List.getElem?_cons_succ] at hk
        have hk' := (List.getElem?_eq_some_iff.mp hk).1
        exact ⟨by omega, hblocks hk⟩
    obtain ⟨hle, hid⟩ := hall hi
    obtain rfl := hpast.unique hid
    refine ⟨?_, ?_, ?_⟩
    · rw [List.length_take, List.length_cons]
      omega
    · rw [Past.base_take (Nat.succ_pos i)]
      exact hheight
    · intro j a hj ha
      rw [List.take_take, Nat.min_eq_left (by omega)]
      exact (hall ha).2

/-- A block of a row stands on those before it. -/
theorem standsOn {ids : List BlockId} : ∀ {parent : Option BlockId} {height : Nat},
    Row block? parent height ids → ∀ {i j : Nat} {id a : BlockId}, i ≤ j → ids[j]? = some id →
      ids[i]? = some a → StandsOn block? id a := by
  induction ids with
  | nil => exact fun _ _ _ _ _ _ h => absurd h (by simp)
  | cons x rest ih =>
    rintro parent height ⟨_, hrest⟩ i j id a hij hj hi
    cases j with
    | zero =>
      obtain rfl := Nat.le_zero.mp hij
      rw [hj] at hi
      obtain rfl := Option.some.inj hi
      exact .self
    | succ j =>
      rw [List.getElem?_cons_succ] at hj
      cases i with
      | succ i => exact ih hrest (Nat.le_of_succ_le_succ hij) hj hi
      | zero =>
        -- the row begins with the parent of the first block after it
        obtain rfl := Option.some.inj hi
        cases rest with
        | nil => exact absurd hj (by simp)
        | cons y rest =>
          have hfirst := hrest
          obtain ⟨⟨b, hb, hparent, _⟩, -⟩ := hfirst
          exact (ih hrest (Nat.zero_le j) hj rfl).parent hb hparent

end Row

end SoftFork
