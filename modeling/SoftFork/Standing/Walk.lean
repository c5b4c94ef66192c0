import SoftFork.Standing.Memo
import SoftFork.Standing.Step

/-!
# The standing for the next block

The standing for the block after `prev` is what the rules make of all the
periods closed below it, oldest first.  Most of them have been looked at before,
so the work is done in two parts.

## Backwards

`trail` steps from closing block to closing block until it meets one whose
standing is known.  It is known when it is remembered, or when no period is left
below, or, with a clock that cannot run backwards, when that clock has not
reached the start time: then no earlier period can have seen it reached either.
The clock that *can* run backwards gets no such shortcut.

The trail does not write.  It returns the standing it met and the closing blocks
still to be dealt with, so that when history turns out to be missing, the
question is refused before anything has been remembered.

## Forwards

`replay` applies the rules to those closing blocks, oldest first, and remembers
the standing after each.

The number of periods closed below a block bounds the trail, and a shorter list
bounds the replay.
-/

namespace SoftFork

/-- Where a walk backwards has ended: the standing known there, the closing
blocks still to be dealt with, oldest first, and the block at which the clock
had not reached the start time, if that is what ended the walk. -/
structure Trail where
  known : Standing
  pending : List BlockId
  quiet : Option BlockId

namespace Trail

/-- What the end of the walk itself adds to the memory. -/
def remember (t : Trail) (m : Memo) : Memo :=
  match t.quiet with
  | some id => m.insert id .initial
  | none => m

end Trail

namespace View

/-- Whether the clock shows at a closing block that voting has not begun, and
that it had not begun at any earlier one. -/
def isQuiet (v : View) (clock : Clock) (ballot : Ballot) (id : BlockId) : Except Fault Bool :=
  if clock.isMonotone then do
    let time ← v.clockTime clock id
    return decide (time < ballot.startTime)
  else .ok false

/-- The walk backwards from the closing block `id`, below which, itself
included, so many periods are closed. -/
def trail (v : View) (clock : Clock) (ballot : Ballot) (m : Memo) :
    Nat → BlockId → List BlockId → Except Fault Trail
  | 0, _, pending => .ok ⟨.initial, pending, none⟩
  | periods + 1, id, pending =>
    match m[id]? with
    | some s => .ok ⟨s, pending, none⟩
    | none => do
      if ← v.isQuiet clock ballot id then return ⟨.initial, pending, some id⟩
      let b ← v.get id
      if b.height < ballot.period then return ⟨.initial, id :: pending, none⟩
      let earlier ← v.ancestor id (b.height - ballot.period)
      v.trail clock ballot m periods earlier (id :: pending)

/-- The rules applied to closing blocks, oldest first, remembering the standing
after each. -/
def replay (v : View) (clock : Clock) (ballot : Ballot) :
    List BlockId → Standing → Memo → Except Fault Standing × Memo
  | [], s, m => (.ok s, m)
  | id :: rest, s, m =>
    match v.nextStanding clock ballot id s with
    | .error e => (.error e, m)
    | .ok next => v.replay clock ballot rest next (m.insert id next)

/-- The trail from the latest closing block at or below `prev`. -/
def trailFrom (v : View) (clock : Clock) (ballot : Ballot) (m : Memo) (prev : BlockId) :
    Except Fault Trail := do
  match ← v.closing ballot.period prev with
  | none => return ⟨.initial, [], none⟩
  | some id =>
    let b ← v.get id
    v.trail clock ballot m (b.above / ballot.period) id []

/-- The standing for the block that follows `prev`, and the memory afterwards;
without `prev` that block is genesis. -/
def standing (v : View) (clock : Clock) (ballot : Ballot) (prev : Option BlockId) (m : Memo) :
    Except Fault Standing × Memo :=
  match prev with
  | none => (.ok .initial, m)
  | some id =>
    match v.trailFrom clock ballot m id with
    | .error e => (.error e, m)
    | .ok t => v.replay clock ballot t.pending t.known (t.remember m)

end View
end SoftFork
