import SoftFork.Signal.Phase
import SoftFork.Signal.Tally

/-!
# One period closes

The rules of voting.  When a period closes, the phase of its blocks, the clock
at the closing block and the votes within the period decide the phase of the
blocks that follow.

The timeout goes first: a ballot that is undecided when it runs out has failed,
however many votes the period brought.  Votes count only in a period whose
blocks were all in the phase `started`, so the period in which voting starts
cannot decide anything.  A locked-in rule comes into force one period later, or
still later if it has to wait for its minimum height.  The final phases stay.
-/

namespace SoftFork
namespace View

/-- The phase after the period that `closing` closes, when `phase` was the phase
of the period itself. -/
def nextPhase (v : View) (clock : Clock) (ballot : Ballot) (closing : BlockId) :
    Phase → Except Fault Phase
  | .defined => do
    let time ← v.clockTime clock closing
    return if ballot.timeout ≤ time then .failed
      else if ballot.startTime ≤ time then .started
      else .defined
  | .started => do
    let time ← v.clockTime clock closing
    if ballot.timeout ≤ time then return .failed
    let count ← v.countWhere ballot.votes ballot.period closing
    return if ballot.threshold ≤ count then .lockedIn else .started
  | .lockedIn => do
    let b ← v.get closing
    return if ballot.minActivationHeight ≤ b.above then .active else .lockedIn
  | .active => return .active
  | .failed => return .failed

/-- The standing after the period that `closing` closes. -/
def nextStanding (v : View) (clock : Clock) (ballot : Ballot) (closing : BlockId)
    (s : Standing) : Except Fault Standing := do
  let b ← v.get closing
  return s.advance (← v.nextPhase clock ballot closing s.phase) b.above

end View
end SoftFork
