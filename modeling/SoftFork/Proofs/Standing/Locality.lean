import SoftFork.Proofs.History.Growth
import SoftFork.Proofs.Standing.Likeness

/-!
# Standings belong to pasts

Two stores may have come to the same blocks in different ways: in another order,
under other hashes, between other branches, above another block whose history is
missing, with another chain active.  When the pasts of two blocks have the same marks,
none of this makes a difference to what follows them.

One of the two stores is a tree that has grown, and the other one either such a
tree too, or any blocks at all, read by their links (`FromStore`).  That the
links of the latter rise by one from block to block does not have to be asked:
it can be seen in the past, which has the marks of the tree's.

Whether a block votes has to be a matter of its mark.  A ballot may see all that is stored
of a block, and one that votes by hashes gets different tallies from the two stores
(`tallies_by_hash`).

A refusal is the one thing that is not the same on both sides.  It names the
height at which the way down ended, and ways differ.  `Alike` leaves that height
open and nothing else: history suffices on one side exactly when it does on the
other.
-/

namespace SoftFork

/-- The ways in which a store gives access to history: a tree by its active chain
and its links, any other store by links alone. -/
inductive View.FromStore : View → Prop where
  | tree (digest : Header → BlockHash) (acts : List BlockTree.Act) :
    FromStore (BlockTree.grown digest acts).view
  | links (block? : BlockId → Option Block) : FromStore (.ofBlocks block?)

theorem View.FromStore.climbs {v : View} (hv : v.FromStore) : v.Climbs := by
  cases hv with
  | tree digest acts => exact (BlockTree.sound_grown digest acts).climbs
  | links block? => exact View.climbs_ofBlocks block?

namespace BlockTree

/-- Blocks whose pasts have the same marks, in a tree that has grown and in a store of
whatever origin, and a ballot that goes by the marks of their blocks: the standings after them
are alike, and so are their tallies. -/
theorem alike_of_hasPast (digest : Header → BlockHash) (acts : List Act) {v : View}
    (hv : v.FromStore) {a b : BlockId} {past past' : Past}
    (ha : HasPast (grown digest acts).block? a past) (hb : HasPast v.block? b past')
    (hmarks : past.map Block.mark = past'.map Block.mark) (clock : Clock) (ballot : Ballot)
    (hperiod : 0 < ballot.period)
    (hvotes : ∀ x ∈ past, ∀ y ∈ past', x.mark = y.mark → ballot.votes x = ballot.votes y) :
    Alike ((grown digest acts).view.standing clock ballot (some a) .empty).1
        (v.standing clock ballot (some b) .empty).1 ∧
      Alike ((grown digest acts).view.tally ballot (some a)) (v.tally ballot (some b)) := by
  have ht := sound_grown digest acts
  have hcon := ht.consecutive ha
  have hlike := Past.Like.of_marks hmarks hvotes
  have hcon' := hlike.consecutive hcon
  constructor
  · have hanswer := View.standing_tells hv.climbs hb hcon' clock hperiod
    rw [← hlike.verdict?_eq] at hanswer
    exact (View.standing_tells ht.climbs ha hcon clock hperiod).alike hanswer
  · have hanswer := View.tally_tells hb hcon' ballot hperiod
    rw [← hlike.tally?_eq] at hanswer
    exact Tells.alike (View.tally_tells ha hcon ballot hperiod) hanswer

/-- The forked tree once more, under other hashes: above an unrelated block without
history, the branch before the row, and the branch's first block for a tip. -/
def regrownActs : List Act :=
  [.detached (headerOn 200 201 5 4) 90,
   .genesis (headerOn 0 101 10 0x20000001),
   .insert (headerOn 101 102 20 0x20000001),
   .insert (headerOn 102 103 21 0x20000001),
   .insert (headerOn 103 104 30 0x20000001),
   .insert (headerOn 104 105 22 0x20000001),
   .insert (headerOn 105 109 41 4),
   .insert (headerOn 105 106 40 0x20000001),
   .insert (headerOn 106 107 50 0x20000001),
   .setTip 8,
   .setTip 6]

/-- The past of the last block but one of the row, in that tree. -/
def regrownPast : Past :=
  [blockOn none 101 0 10 0x20000001, blockOn (some 1) 102 1 20 0x20000001,
   blockOn (some 2) 103 2 21 0x20000001, blockOn (some 3) 104 3 30 0x20000001,
   blockOn (some 4) 105 4 22 0x20000001, blockOn (some 5) 106 5 40 0x20000001,
   blockOn (some 7) 107 6 50 0x20000001]

theorem hasPast_regrown :
    HasPast (grown nonceDigest forkedActs).block? 6 (forkedPast.take 7) ∧
      HasPast (grown nonceDigest regrownActs).block? 8 regrownPast ∧
      (forkedPast.take 7).map Block.mark = regrownPast.map Block.mark := by
  decide +kernel

/-- The last block but one of the row, in both trees. -/
theorem alike_regrown :
    Alike
        ((grown nonceDigest forkedActs).view.standing .medianTimePast pairBallot (some 6)
          .empty).1
        ((grown nonceDigest regrownActs).view.standing .medianTimePast pairBallot (some 8)
          .empty).1 ∧
      Alike ((grown nonceDigest forkedActs).view.tally pairBallot (some 6))
        ((grown nonceDigest regrownActs).view.tally pairBallot (some 8)) := by
  obtain ⟨ha, hb, hmarks⟩ := hasPast_regrown
  refine alike_of_hasPast nonceDigest forkedActs (.tree nonceDigest regrownActs) ha hb hmarks
    .medianTimePast pairBallot (by decide) fun x _ y _ hmark => ?_
  have hversion : x.version = y.version := congrArg (·.2.2) hmark
  show Version.signals x.version 0 = Version.signals y.version 0
  rw [hversion]

/-- A ballot on which one block votes, which it knows by its hash. -/
def hashBallot : Ballot :=
  { pairBallot with votes := fun b => b.hash == ⟨Vector.replicate 32 7⟩ }

/-- The last block but one of the row, once more.  The marks of its past are the same in both
trees, and the hashes are not: it votes in one of them only. -/
theorem tallies_by_hash :
    HasPast (grown nonceDigest forkedActs).block? 6 (forkedPast.take 7) ∧
      HasPast (grown nonceDigest regrownActs).block? 8 regrownPast ∧
      (forkedPast.take 7).map Block.mark = regrownPast.map Block.mark ∧
      0 < hashBallot.period ∧
      ¬ Alike ((grown nonceDigest forkedActs).view.tally hashBallot (some 6))
        ((grown nonceDigest regrownActs).view.tally hashBallot (some 8)) := by
  have htallies : ((grown nonceDigest forkedActs).view.tally hashBallot (some 6)).toOption =
        some ⟨3, 2, 2, 1, 1, true⟩ ∧
      ((grown nonceDigest regrownActs).view.tally hashBallot (some 8)).toOption =
        some ⟨3, 2, 2, 1, 0, false⟩ := by
    decide +kernel
  obtain ⟨ha, hb, hmarks⟩ := hasPast_regrown
  refine ⟨ha, hb, hmarks, by decide, ?_⟩
  rw [eq_ok_of_toOption htallies.1, eq_ok_of_toOption htallies.2]
  rintro (⟨tally, h, h'⟩ | ⟨_, _, h, -⟩)
  · exact absurd (h.trans h'.symm) (by decide)
  · exact absurd h (by simp)

end BlockTree
end SoftFork
