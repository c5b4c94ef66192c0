import Mathlib.Data.List.Forall2
import SoftFork.Proofs.Standing.OnPast

/-!
# Pasts that a ballot does not tell apart

The rules see three things of a block: its height, its time, and whether it votes.
`Ballot.Confuses` says that two blocks are the same in these, and `Past.Like` that
two pasts are, block by block.  Everything that is read off a past is then the same
for both (`Like.tally?_eq`, `Like.verdict?_eq`).

What else is stored of a block may differ, its hash, say, or the number under which
its parent is stored.  A ballot whose votes go by such things tells more blocks
apart; it is never the rules that do.

## Marks

`Block.mark` has what a block carries along from one store to another: its height,
its time and its version.  Pasts with the same marks are alike to each ballot that
votes alike on blocks with the same mark (`Like.of_marks`).
-/

namespace SoftFork

/-- Two blocks at one height, with one time and one vote. -/
structure Ballot.Confuses (ballot : Ballot) (b b' : Block) : Prop where
  height : b.height = b'.height
  time : b.time = b'.time
  votes : ballot.votes b = ballot.votes b'

/-- The height, the time and the version of a block. -/
def Block.mark (b : Block) : Nat × Nat × UInt32 :=
  (b.height, b.time, b.version)

namespace Past

/-- Two pasts that a ballot does not tell apart. -/
def Like (ballot : Ballot) : Past → Past → Prop :=
  List.Forall₂ ballot.Confuses

namespace Like

variable {past past' : Past} {clock : Clock} {ballot : Ballot}

/-- Pasts with the same marks, to a ballot that goes by the marks of their blocks. -/
theorem of_marks (hmarks : past.map Block.mark = past'.map Block.mark)
    (hvotes : ∀ b ∈ past, ∀ b' ∈ past', b.mark = b'.mark → ballot.votes b = ballot.votes b') :
    Like ballot past past' := by
  have hlen : past.length = past'.length := by
    simpa only [List.length_map] using congrArg List.length hmarks
  refine List.forall₂_iff_get.mpr ⟨hlen, fun i hi hi' => ?_⟩
  simp only [List.get_eq_getElem]
  have hmark : past[i].mark = past'[i].mark := by
    have hget := congrArg (·[i]?) hmarks
    simpa only [List.getElem?_map, List.getElem?_eq_getElem hi, List.getElem?_eq_getElem hi',
      Option.map_some, Option.some.injEq] using hget
  exact ⟨congrArg (·.1) hmark, congrArg (·.2.1) hmark,
    hvotes _ (List.getElem_mem hi) _ (List.getElem_mem hi') hmark⟩

theorem snoc (h : Like ballot past past') {b b' : Block} (hb : ballot.Confuses b b') :
    Like ballot (past ++ [b]) (past' ++ [b']) :=
  List.rel_append h (.cons hb .nil)

theorem take (h : Like ballot past past') (k : Nat) :
    Like ballot (past.take k) (past'.take k) :=
  List.forall₂_take k h

/-! ## Readings -/

theorem length_eq (h : Like ballot past past') : past.length = past'.length :=
  List.Forall₂.length_eq h

theorem base_eq (h : Like ballot past past') : base past = base past' := by
  cases h with
  | nil => rfl
  | cons hb _ => exact hb.height

theorem next_eq (h : Like ballot past past') : next past = next past' := by
  rw [next, next, h.base_eq, h.length_eq]

theorem consecutive (h : Like ballot past past') (hcon : Consecutive past) :
    Consecutive past' := by
  intro k hk
  have hk' : k < past.length := by rwa [h.length_eq]
  rw [← h.base_eq, ← hcon k hk']
  exact (List.Forall₂.get h hk' hk).height.symm

theorem times_eq (h : Like ballot past past') : times past = times past' := by
  induction h with
  | nil => rfl
  | cons hb _ ih =>
    rw [times, times, List.map_cons, List.map_cons, hb.time]
    exact congrArg _ ih

theorem countP_eq (h : Like ballot past past') :
    past.countP ballot.votes = past'.countP ballot.votes := by
  induction h with
  | nil => rfl
  | cons hb _ ih => rw [List.countP_cons, List.countP_cons, ih, hb.votes]

theorem countVotes_eq (h : Like ballot past past') (blocks : Nat) :
    countVotes past ballot.votes blocks = countVotes past' ballot.votes blocks := by
  rw [countVotes, countVotes, h.length_eq]
  exact countP_eq (List.forall₂_drop _ h)

theorem tally?_eq (h : Like ballot past past') : tally? past ballot = tally? past' ballot := by
  rw [tally?, tally?, countVotes?, countVotes?, h.next_eq, h.length_eq, h.countVotes_eq]

theorem legible_iff (h : Like ballot past past') : Legible past clock ↔ Legible past' clock := by
  cases clock with
  | blockTime => exact Iff.rfl
  | medianTimePast => rw [Legible, Legible, h.length_eq, h.base_eq]

theorem clockTime_eq (h : Like ballot past past') (clock : Clock) :
    clockTime past clock = clockTime past' clock := by
  cases clock <;> rw [clockTime, clockTime, h.times_eq]

theorem clockTime?_eq (h : Like ballot past past') (clock : Clock) :
    clockTime? past clock = clockTime? past' clock := by
  simp only [clockTime?, h.legible_iff, h.clockTime_eq]

/-! ## Rules -/

theorem isQuiet?_eq (h : Like ballot past past') :
    isQuiet? past clock ballot = isQuiet? past' clock ballot := by
  rw [isQuiet?, isQuiet?, h.clockTime?_eq]

theorem suffices_iff (h : Like ballot past past') (phase : Phase) :
    Suffices past clock ballot phase ↔ Suffices past' clock ballot phase := by
  cases phase with
  | defined => exact h.legible_iff
  | started => rw [Suffices, Suffices, h.legible_iff, h.clockTime_eq, h.length_eq]
  | lockedIn => exact Iff.rfl
  | active => exact Iff.rfl
  | failed => exact Iff.rfl

theorem nextPhase_eq (h : Like ballot past past') (phase : Phase) :
    nextPhase past clock ballot phase = nextPhase past' clock ballot phase := by
  cases phase with
  | defined => rw [nextPhase, nextPhase, h.clockTime_eq]
  | started => rw [nextPhase, nextPhase, h.clockTime_eq, h.countVotes_eq]
  | lockedIn => rw [nextPhase, nextPhase, h.next_eq]
  | active => rfl
  | failed => rfl

theorem nextStanding?_eq (h : Like ballot past past') (s : Standing) :
    nextStanding? past clock ballot s = nextStanding? past' clock ballot s := by
  simp only [nextStanding?, nextStanding, h.suffices_iff, h.nextPhase_eq, h.next_eq]

theorem settled?_eq {periods : Nat} : ∀ {past past' : Past}, Like ballot past past' →
    settled? clock ballot periods past = settled? clock ballot periods past' := by
  induction periods with
  | zero => exact fun _ => rfl
  | succ periods ih =>
    intro past past' h
    have hbelow := ih (h.take (past.length - ballot.period))
    rw [settled?, settled?, h.isQuiet?_eq, h.next_eq, ← h.length_eq, hbelow]
    simp only [h.nextStanding?_eq]

theorem verdict?_eq (h : Like ballot past past') :
    verdict? past clock ballot = verdict? past' clock ballot := by
  rw [verdict?, verdict?, h.next_eq, ← h.length_eq, settled?_eq (h.take _)]

end Like
end Past
end SoftFork
