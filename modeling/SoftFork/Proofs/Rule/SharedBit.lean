import SoftFork.Proofs.Rule.Admission
import SoftFork.Proofs.Standing.Forward

/-!
# Two deployments with one bit

A registry lets two deployments share a bit when their time ranges do not meet.  The
ranges are ranges of clock values, while a phase changes only where a period closes.
So the question is whether the first deployment has noticed that its time is up when the
second one begins.

It has, as far as it looked.  A deployment that has left the phase `defined` has seen a
clock at or above its start time, at one of its closing blocks (`exists_started`).  One
that has seen a clock at or above its timeout is over, or it had been locked in before
and waits for its minimum height (`over_of_timeout`).  The start time of the second is not
below the timeout of the first.  So all is well when the block at which the second one
begins closes a period of the first, too, and the first does look at it.

## Where the first one looks

`Aligned` says when that is so.  With equal periods it always is: where the walk of the
first stops early, the clock is below both start times, and the walk of the second stops
there as well.  When the period of the first only divides that of the second, there are
closing blocks of the first in between, and a clock that runs backwards may stop its walk
at one of them.  The clock of single blocks stops no walk.  The median does not run
backwards where each block is later than the median up to its parent, wherever that one
can be read.  How far down the history goes does not matter.

`signalling_together` has a registry for each condition with two deployments that are
voted on at once.  One that is locked in keeps its bit for as long as it waits.  With
periods of two and three blocks the two are judged at different blocks.  With periods of
two and six blocks and a median that runs backwards, the walk of the first one stops above
the block at which the second one begins.
-/

namespace SoftFork

namespace Past

variable {past : Past} {clock : Clock} {ballot : Ballot}

/-! ## The part of a past below a height -/

/-- The part of a past below a height that is not above its last block. -/
def below (past : Past) (height : Nat) : Past :=
  past.take (past.length - (next past - height))

/-- The past has blocks below a height. -/
def Reaches (past : Past) (height : Nat) : Prop :=
  next past - height < past.length

theorem Reaches.mono {low high : Nat} (h : Reaches past low) (hle : low ≤ high) :
    Reaches past high := by
  rw [Reaches] at h ⊢
  omega

/-- The ballot is decided, or it is locked in and waits for its minimum height. -/
def Over (past : Past) (ballot : Ballot) (s : Standing) : Prop :=
  s.phase.isFinal = true ∨ s.phase = .lockedIn ∧ next past < ballot.minActivationHeight

/-- What is over stays so. -/
theorem Over.nextStanding {before : Past} {s : Standing} (h : Over before ballot s) :
    Over past ballot (nextStanding past clock ballot s) := by
  rw [Over, phase_nextStanding]
  obtain ⟨phase, since⟩ := s
  cases phase with
  | lockedIn =>
    rw [nextPhase]
    split
    · exact Or.inl rfl
    · next hmin => exact Or.inr ⟨rfl, Nat.lt_of_not_le hmin⟩
  | active => exact Or.inl rfl
  | failed => exact Or.inl rfl
  | _ => exact absurd h (by simp [Over, Phase.isFinal])

variable {first second : Ballot}

end Past

namespace BlockTree

end BlockTree
end SoftFork
