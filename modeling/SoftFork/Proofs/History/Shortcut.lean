import SoftFork.Proofs.History.Tip

/-!
# The shortcut to an ancestor

A tree looks for an ancestor along the links and leaves them at the first block that is
active, since from there on the active list has the answer.  A view that knows the blocks
and nothing else follows the links to the end.  The two find the same block, and they
refuse the same questions.

That the block is the same needs no comparison of the two walks.  Each of them leads to
something that the first block stands on, with the past up to the height that was asked for,
and there is only one such block (`StandsOn.unique`).

## What a refusal names

Below the oldest block of a past nothing can be found.  The plain walk sees the oldest block
and names the height under it.  The walk of the tree sees that block only when nothing on the
way is active.  Otherwise it ends at the active list, which is cut off below its own oldest
block but does not say where, and the height that is named is the one that was asked for
(`Sound.ancestor_below`).  Whether anything on the way is active can be told from the oldest
block alone: whatever an active block stands on is active too.
-/

namespace SoftFork

/-! ## The oldest block -/

/-- The links from a block with a past end at a block without a parent. -/
theorem HasPast.exists_lowest {block? : BlockId → Option Block} {id : BlockId} {past : Past}
    (h : HasPast block? id past) :
    ∃ low l, StandsOn block? id low ∧ block? low = some l ∧ l.parent = none ∧
      l.height = past.base := by
  induction h with
  | @oldest id b hb hparent => exact ⟨id, b, .self, hb, hparent, rfl⟩
  | @later id p b past hb hparent hpast ih =>
    obtain ⟨low, l, hstands, hl, hnone, hheight⟩ := ih
    refine ⟨low, l, StandsOn.trans (.parent .self hb hparent) hstands, hl, hnone, ?_⟩
    rw [Past.base_append hpast.ne_nil, hheight]

/-- They end at one block only. -/
theorem HasPast.height_of_lowest {block? : BlockId → Option Block} {id low : BlockId}
    {past : Past} {l : Block} (h : HasPast block? id past) (hstands : StandsOn block? id low)
    (hl : block? low = some l) (hnone : l.parent = none) : l.height = past.base := by
  obtain ⟨k, hk, -, hpast⟩ := hstands.hasPast h
  rw [← Past.base_take hk, hpast.unique (.oldest hl hnone)]
  rfl

/-- Everything in between stands on that block. -/
theorem StandsOn.of_lowest {block? : BlockId → Option Block} {id a low : BlockId} {l : Block}
    (ha : StandsOn block? id a) (hstands : StandsOn block? id low) (hl : block? low = some l)
    (hnone : l.parent = none) : StandsOn block? a low := by
  induction ha with
  | self => exact hstands
  | @parent p a b _ hb hparent ih =>
    rcases ih.eq_or_parent with rfl | ⟨b', p', hb', hparent', hp⟩
    · rw [hl] at hb
      rw [Option.some.inj hb, hparent] at hnone
      exact absurd hnone (by simp)
    · rw [hb] at hb'
      rw [← Option.some.inj hb', hparent] at hparent'
      rwa [Option.some.inj hparent']

namespace BlockTree

variable {t : BlockTree} {id low : BlockId} {b l : Block} {height : Nat}

/-- Whatever an active block stands on is active. -/
theorem Sound.isActive_of_standsOn (ht : t.Sound) {a : BlockId} (hid : t.isActive id = true)
    (ha : StandsOn t.block? id a) : t.isActive a = true := by
  obtain ⟨top, htop, hstands, hrises⟩ := ht.isActive_iff_standsOn.mp hid
  exact ht.isActive_iff_standsOn.mpr ⟨top, htop, hstands.trans ha, mt (.of_standsOn ha) hrises⟩

/-! ## Below the oldest block -/

/-- Going down more steps than there are blocks fails, at the height that was asked for once the
walk has come to an active block, and under the oldest block otherwise. -/
theorem Sound.descendTo_below (ht : t.Sound) (hl : t.block? low = some l)
    (hnone : l.parent = none) (steps : Nat) :
    ∀ {id : BlockId} {b : Block} {past : Past}, t.block? id = some b →
      HasPast t.block? id past → b.height = height + steps → past.length ≤ steps →
      StandsOn t.block? id low →
      t.descendTo height steps id =
        .error (.historyMissing (if t.isActive low then height else l.height - 1)) := by
  induction steps with
  | zero =>
    intro id b past _ hpast _ hlen _
    exact absurd hpast.length_pos (Nat.not_lt.mpr hlen)
  | succ steps ih =>
    intro id b past hb hpast hheight hlen hstands
    rw [descendTo, get_eq_ok hb, ok_bind]
    by_cases hactive : t.activeAt b.height = some id
    · -- the active list has nothing below its oldest block, which is `low`
      have hread := ht.hasPast_activeAt hpast hactive (show steps + 1 ≤ b.height by omega)
      rw [if_pos hlen, show b.height - (steps + 1) = height by omega] at hread
      have hid : t.isActive id = true := ((ht.activeAt_eq_some_iff (ht.height hb)).mp hactive).1
      rw [if_pos hactive, hread, if_pos (ht.isActive_of_standsOn hid hstands)]
    · rw [if_neg hactive]
      cases hparent : b.parent with
      | none =>
        obtain rfl : low = id := by
          refine hstands.eq_or_parent.resolve_right ?_
          rintro ⟨b', p, hb', hparent', -⟩
          rw [hb] at hb'
          rw [Option.some.inj hb', hparent'] at hparent
          exact absurd hparent (by simp)
        rw [hl] at hb
        obtain rfl := Option.some.inj hb
        have hlow : ¬ t.isActive low = true := by rwa [isActive, hl, beq_iff_eq]
        rw [if_neg hlow]
      | some p =>
        obtain ⟨q, hq, hqheight⟩ := ht.height_parent hb hparent (by omega)
        refine ih hq (hpast.parent hb hparent) (by omega) ?_
          (StandsOn.of_lowest (.parent .self hb hparent) hstands hl hnone)
        rw [List.length_take]
        omega

/-- Below the oldest block both ways are refused for lack of history.  The plain way names
the height under that block; the tree's names the height that was asked for, when it has come
to the active chain before. -/
theorem Sound.ancestor_below (ht : t.Sound) (hb : t.block? id = some b)
    (hstands : StandsOn t.block? id low) (hl : t.block? low = some l)
    (hnone : l.parent = none) (hlt : height < l.height) (hrises : ¬ Restarts t.block? id) :
    t.plainView.ancestor id height = .error (.historyMissing (l.height - 1)) ∧
      t.view.ancestor id height =
        .error (.historyMissing (if t.isActive low then height else l.height - 1)) := by
  obtain ⟨past, hpast⟩ := ht.exists_past hb
  have hbase := hpast.height_of_lowest hstands hl hnone
  have hheight := hpast.height_of_not_restarts (ht.consecutive hpast) hb hrises
  have hpos := hpast.length_pos
  constructor
  · have hclimb : (View.ofBlocks t.block?).climb (b.height - height) id = _ :=
      View.climb_eq_error hpast _ (by omega)
    rw [plainView, View.ancestor_ofBlocks hb (by omega), hclimb, hbase]
  · show t.ancestor id height = _
    rw [ancestor, get_eq_ok hb, ok_bind, if_neg (by omega)]
    exact ht.descendTo_below hl hnone _ hb hpast (by omega) (by omega) hstands

/-! ## From the oldest block upwards -/

/-- From the oldest block up to the block itself, and where heights have started again from height
zero, both ways find the one block that stands there. -/
theorem Sound.ancestor_above (ht : t.Sound) (hb : t.block? id = some b)
    (hle : height ≤ b.height) (hstands : StandsOn t.block? id low) (hl : t.block? low = some l)
    (hnone : l.parent = none) (hge : l.height ≤ height ∨ Restarts t.block? id) :
    ∃ x c, t.view.ancestor id height = .ok x ∧ t.plainView.ancestor id height = .ok x ∧
      StandsOn t.block? id x ∧ t.block? x = some c ∧ c.height = height := by
  obtain ⟨past, hpast⟩ := ht.exists_past hb
  have hcon := ht.consecutive hpast
  have hbase := hpast.height_of_lowest hstands hl hnone
  have hpos := hpast.length_pos
  have hlen : b.height - height < past.length := by
    by_cases hrestarts : Restarts t.block? id
    · have hlong := (hpast.restarts_iff hcon hb).mp hrestarts
      omega
    · have hheight := hpast.height_of_not_restarts hcon hb hrestarts
      have hlow := hge.resolve_right hrestarts
      omega
  obtain ⟨x, hx, hxpast⟩ := ht.climbs.found hpast hb (Nat.sub_le _ _) hlen
  obtain ⟨y, hy, hypast⟩ := (View.climbs_ofBlocks t.block?).found hpast hb (Nat.sub_le _ _) hlen
  rw [Nat.sub_sub_self hle] at hx hy
  have hxstands := ht.standsOn_of_ancestor hx
  have hystands : StandsOn t.block? id y := by
    rw [View.ancestor_ofBlocks hb hle] at hy
    exact View.standsOn_of_climb _ hy
  obtain rfl := StandsOn.unique hpast hxstands hystands hxpast hypast
  obtain ⟨c, hc, -⟩ := hxpast.exists_block
  have hlow := hxpast.height_eq (hcon.take _) hc
  have hhigh := hpast.height_eq hcon hb
  rw [Past.base_take (by omega), List.length_take, Nat.min_eq_left (Nat.sub_le _ _),
    UInt64.size] at hlow
  rw [UInt64.size] at hhigh
  exact ⟨x, c, hx, hy, hxstands, hc, by omega⟩

/-! ## Both ways together -/

theorem ancestor_of_unknown (hb : t.block? id = none) (height : Nat) :
    t.view.ancestor id height = .error (.unknownBlock id) ∧
      t.plainView.ancestor id height = .error (.unknownBlock id) := by
  constructor
  · show t.ancestor id height = _
    rw [ancestor, get, storedBlock, hb, error_bind]
  · show View.climbTo _ id height = _
    rw [View.climbTo, View.get_eq_error hb, error_bind]

theorem ancestor_of_above (hb : t.block? id = some b) (hlt : b.height < height) :
    t.view.ancestor id height = .error (.aboveBlock height b.height) ∧
      t.plainView.ancestor id height = .error (.aboveBlock height b.height) := by
  constructor
  · show t.ancestor id height = _
    rw [ancestor, get_eq_ok hb, ok_bind, if_pos hlt]
  · show View.climbTo _ id height = _
    rw [View.climbTo, View.get_eq_ok hb, ok_bind, if_pos hlt]

/-- In every tree that has grown, for every number and every height.  The tree finds an ancestor
exactly where the plain walk does, and the same one.  A block that is not stored is refused as
such both times, and so is a height above the block.  For every other question there is the
oldest block that the links lead to.  At its height and above, and at every height where heights
have started again, both find what stands there; below, history is missing for both.  The plain
walk then names the height under the oldest block.  The tree names it as well when nothing on the
way is active, and otherwise the height that was asked for. -/
theorem ancestor_agrees (digest : Header → BlockHash) (acts : List Act) (id : BlockId)
    (height : Nat) :
    (∀ x, (grown digest acts).view.ancestor id height = .ok x ↔
      (grown digest acts).plainView.ancestor id height = .ok x) ∧
    ((grown digest acts).block? id = none →
      (grown digest acts).view.ancestor id height = .error (.unknownBlock id) ∧
      (grown digest acts).plainView.ancestor id height = .error (.unknownBlock id)) ∧
    ∀ b, (grown digest acts).block? id = some b →
      (b.height < height →
        (grown digest acts).view.ancestor id height = .error (.aboveBlock height b.height) ∧
        (grown digest acts).plainView.ancestor id height = .error (.aboveBlock height b.height)) ∧
      ∃ low l, StandsOn (grown digest acts).block? id low ∧
        (grown digest acts).block? low = some l ∧ l.parent = none ∧
        (l.height ≤ height ∨ Restarts (grown digest acts).block? id → height ≤ b.height → ∃ x c,
          (grown digest acts).view.ancestor id height = .ok x ∧
          (grown digest acts).plainView.ancestor id height = .ok x ∧
          StandsOn (grown digest acts).block? id x ∧
          (grown digest acts).block? x = some c ∧ c.height = height) ∧
        (height < l.height → ¬ Restarts (grown digest acts).block? id →
          (grown digest acts).plainView.ancestor id height =
            .error (.historyMissing (l.height - 1)) ∧
          ((∃ a, StandsOn (grown digest acts).block? id a ∧
              (grown digest acts).isActive a = true) →
            (grown digest acts).view.ancestor id height = .error (.historyMissing height)) ∧
          ((∀ a, StandsOn (grown digest acts).block? id a →
              (grown digest acts).isActive a = false) →
            (grown digest acts).view.ancestor id height =
              .error (.historyMissing (l.height - 1)))) := by
  have ht := sound_grown digest acts
  generalize grown digest acts = t at ht
  cases hb : t.block? id with
  | none =>
    obtain ⟨hview, hplain⟩ := ancestor_of_unknown hb height
    refine ⟨fun x => by rw [hview, hplain], fun _ => ⟨hview, hplain⟩, fun b hb' => ?_⟩
    exact absurd hb' (by simp)
  | some b =>
    obtain ⟨past, hpast⟩ := ht.exists_past hb
    obtain ⟨low, l, hstands, hl, hnone, -⟩ := hpast.exists_lowest
    have hfound : l.height ≤ height ∨ Restarts t.block? id → height ≤ b.height → _ :=
      fun hge hle => ht.ancestor_above hb hle hstands hl hnone hge
    have hmissing : height < l.height → ¬ Restarts t.block? id → _ :=
      fun hlt hrises => ht.ancestor_below hb hstands hl hnone hlt hrises
    refine ⟨fun x => ?_, fun hnot => absurd hnot (by simp), fun b' hb' => ?_⟩
    · rcases Nat.lt_or_ge b.height height with habove | hle
      · obtain ⟨hview, hplain⟩ := ancestor_of_above hb habove
        simp [hview, hplain]
      · by_cases hbelow : height < l.height ∧ ¬ Restarts t.block? id
        · obtain ⟨hplain, hview⟩ := hmissing hbelow.1 hbelow.2
          simp [hview, hplain]
        · have hge : l.height ≤ height ∨ Restarts t.block? id := by
            rwa [not_and_or, not_not, Nat.not_lt] at hbelow
          obtain ⟨y, c, hview, hplain, -⟩ := hfound hge hle
          rw [hview, hplain]
    · obtain rfl := Option.some.inj hb'
      refine ⟨ancestor_of_above hb, low, l, hstands, hl, hnone, hfound, fun hlt hrises => ?_⟩
      obtain ⟨hplain, hview⟩ := hmissing hlt hrises
      refine ⟨hplain, ?_, fun hquiet => ?_⟩
      · rintro ⟨a, ha, hactive⟩
        have hlow := ht.isActive_of_standsOn hactive (ha.of_lowest hstands hl hnone)
        rw [hview, if_pos hlow]
      · rw [hview, if_neg (by rw [hquiet low hstands]; exact Bool.false_ne_true)]

/-- A detached block with two on it and the tip on top, a branch that leaves the detached block,
and, without any link to these, another detached block with one on it. -/
def splitActs : List Act :=
  [.detached (headerOn 200 1 10 4) 4,
   .insert (headerOn 1 2 20 4),
   .insert (headerOn 2 3 30 4),
   .setTip 2,
   .insert (headerOn 1 4 25 4),
   .insert (headerOn 4 5 35 4),
   .detached (headerOn 201 6 50 4) 9,
   .insert (headerOn 6 7 60 4)]

/-- The end of the branch finds the detached block, where it comes to the active chain; further
down the two ways name different heights.  The other pair of blocks never comes to it. -/
theorem ancestor_split :
    (grown nonceDigest splitActs).view.ancestor 4 4 = .ok 0 ∧
    (grown nonceDigest splitActs).view.ancestor 4 1 = .error (.historyMissing 1) ∧
    (grown nonceDigest splitActs).plainView.ancestor 4 1 = .error (.historyMissing 3) ∧
    (grown nonceDigest splitActs).view.ancestor 6 2 = .error (.historyMissing 8) ∧
    (grown nonceDigest splitActs).plainView.ancestor 6 2 = .error (.historyMissing 8) ∧
    (grown nonceDigest splitActs).view.ancestor 6 11 = .error (.aboveBlock 11 10) ∧
    (grown nonceDigest splitActs).view.ancestor 7 0 = .error (.unknownBlock 7) := by
  have hrun : (grown nonceDigest splitActs).plainView.ancestor 4 4 = .ok 0 ∧
      HasPast (grown nonceDigest splitActs).block? 4
        [blockOn none 1 4 10 4, blockOn (some 0) 4 5 25 4, blockOn (some 3) 5 6 35 4] ∧
      HasPast (grown nonceDigest splitActs).block? 6
        [blockOn none 6 9 50 4, blockOn (some 5) 7 10 60 4] ∧
      (grown nonceDigest splitActs).block? 4 =
        some ⟨nonceDigest (headerOn 4 5 35 4), 6, 35, 4, some 3⟩ ∧
      (grown nonceDigest splitActs).block? 6 =
        some ⟨nonceDigest (headerOn 6 7 60 4), 10, 60, 4, some 5⟩ ∧
      (grown nonceDigest splitActs).block? 5 =
        some ⟨nonceDigest (headerOn 201 6 50 4), 9, 50, 4, none⟩ ∧
      (grown nonceDigest splitActs).block? 7 = none ∧
      (grown nonceDigest splitActs).isActive 0 = true ∧
      (grown nonceDigest splitActs).isActive 5 = false ∧
      (grown nonceDigest splitActs).isActive 6 = false := by
    decide +kernel
  obtain ⟨hplain, hbranch, hpair, hfour, hsix, hfive, hseven, hzero, hbase, htop⟩ := hrun
  have ht := sound_grown nonceDigest splitActs
  have hstands : StandsOn (grown nonceDigest splitActs).block? 4 0 :=
    ht.standsOn_of_ancestor (((ancestor_agrees nonceDigest splitActs 4 4).1 0).mpr hplain)
  obtain ⟨-, -, hall⟩ := ancestor_agrees nonceDigest splitActs 4 1
  obtain ⟨-, low, l, hlow, hl, hnone, -, hbelow⟩ := hall _ hfour
  have hheight : l.height = 4 := hbranch.height_of_lowest hlow hl hnone
  have hrises : ¬ Restarts (grown nonceDigest splitActs).block? 4 := by
    rw [hbranch.restarts_iff (ht.consecutive hbranch) hfour]
    decide
  have hrises' : ¬ Restarts (grown nonceDigest splitActs).block? 6 := by
    rw [hpair.restarts_iff (ht.consecutive hpair) hsix]
    decide
  obtain ⟨hplain', hactive, -⟩ := hbelow (by omega) hrises
  rw [hheight] at hplain'
  obtain ⟨-, -, hall'⟩ := ancestor_agrees nonceDigest splitActs 6 2
  obtain ⟨-, low', l', hlow', hl', hnone', -, hbelow'⟩ := hall' _ hsix
  have hheight' : l'.height = 9 := hpair.height_of_lowest hlow' hl' hnone'
  obtain ⟨hplain'', -, hquiet⟩ := hbelow' (by omega) hrises'
  rw [hheight'] at hplain'' hquiet
  refine ⟨((ancestor_agrees nonceDigest splitActs 4 4).1 0).mpr hplain, hactive ⟨0, hstands, hzero⟩,
    hplain', hquiet fun a ha => ?_, hplain'', ?_,
    ((ancestor_agrees nonceDigest splitActs 7 0).2.1 hseven).1⟩
  · -- the pair is all that the upper block stands on
    rcases ha.eq_or_parent with rfl | ⟨b, p, hb, hp, ha⟩
    · exact htop
    · rw [hsix] at hb
      obtain rfl := Option.some.inj hb
      obtain rfl := Option.some.inj hp
      rcases ha.eq_or_parent with rfl | ⟨b, p, hb, hp, -⟩
      · exact hbase
      · rw [hfive] at hb
        obtain rfl := Option.some.inj hb
        exact absurd hp (by simp)
  · exact (((ancestor_agrees nonceDigest splitActs 6 11).2.2 _ hsix).1 (by decide)).1

end BlockTree
end SoftFork
