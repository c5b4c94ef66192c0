import SoftFork.History.View
import SoftFork.Signal.Ballot

/-!
# Counting votes

Votes are counted backwards from a block, over as many blocks as are asked for.
The last of the blocks is counted without a look at its parent, so that a count
may end with the oldest block that is stored.  It is refused when history ends
before the blocks do: a count over fewer blocks than asked for would be read as a
count over all of them.

A `Tally` is the state of the period that is still open: how many of its blocks
are there, how many of them voted, and whether the threshold can still be met.
It can as long as the votes so far and the blocks to come, all voting, would be
enough.
-/

namespace SoftFork

namespace View

/-- How many of the given number of blocks, ending at a block, meet a condition. -/
def countWhere (v : View) (meets : Block → Bool) : Nat → BlockId → Except Fault Nat
  | 0, _ => .ok 0
  | blocks + 1, id => do
    let b ← v.get id
    let one := if meets b then 1 else 0
    if blocks = 0 then return one
    match b.parent with
    | none => .error (.historyMissing (b.height - 1))
    | some p => return one + (← v.countWhere meets blocks p)

end View

/-- The state of the period that the next block belongs to. -/
structure Tally where
  /-- How many periods lie before this one. -/
  periodIndex : Nat
  /-- The length of a period in blocks. -/
  period : Nat
  /-- The votes that decide. -/
  threshold : Nat
  /-- The blocks of the period that are there. -/
  elapsed : Nat
  /-- The votes among them. -/
  count : Nat
  /-- Whether the threshold can still be met. -/
  possible : Bool
  deriving DecidableEq, Repr, Inhabited

namespace Tally

/-- Whether the threshold can still be met, if every block to come votes. -/
def canLockIn (period threshold elapsed count : Nat) : Bool :=
  threshold ≤ count + (period - elapsed)

/-- The tally with the given numbers. -/
def of (periodIndex period threshold elapsed count : Nat) : Tally :=
  ⟨periodIndex, period, threshold, elapsed, count, canLockIn period threshold elapsed count⟩

/-- The blocks still to come before the period closes. -/
def remaining (t : Tally) : Nat :=
  t.period - t.elapsed

end Tally

/-- The tally of a ballot in the period of the block that follows `tip`; without
a tip that block is genesis. -/
def View.tally (v : View) (ballot : Ballot) : Option BlockId → Except Fault Tally
  | none => .ok (Tally.of 0 ballot.period ballot.threshold 0 0)
  | some tip => do
    let b ← v.get tip
    if ballot.period = 0 then .error .emptyPeriod
    else
      let elapsed := b.above % ballot.period
      let count ← v.countWhere ballot.votes elapsed tip
      return Tally.of (b.above / ballot.period) ballot.period ballot.threshold elapsed count

end SoftFork
