import SoftFork.Fault
import SoftFork.History.Clock
import SoftFork.History.MedianTime

/-!
# Reading history

Everything this library knows about a chain it learns by following parent links
backwards from a block.  A `View` is the access that takes: which block a number
stands for, and which ancestor a block has at a height.

Ancestors are a part of the view, and not a consequence of the blocks, because a
store may know a shorter way than the links; `View.ofBlocks` is the access of a
store that knows none and climbs.

## Walks end

A block that has a parent stands one higher than it.  So a walk back to height
`h` takes as many steps as the block stands above `h`, and each walk below
recurses on that number.  A block without a parent ends the walk early: when it
is genesis, at height zero, there is nothing more to know, and at any other
height the history below it is not stored and the question is refused.  Every
walk makes that distinction, since answering from a part of history as if it
were the whole would be the worst thing to do.

## Heights start again

Heights have sixty-four bits.  Nobody will see a chain from genesis that uses them
up, but the lowest stored block of a part of history may be given any height, and on
a block at the last of all heights the next one stands at height zero
(`Block.above`).  Walks that count heights stop there, and those that count blocks
go on.
-/

namespace SoftFork

/-- The number by which a stored block is known. -/
abbrev BlockId := Nat

/-- A block as far as signalling is concerned. -/
structure Block where
  hash : BlockHash
  height : Nat
  time : Nat
  version : UInt32
  parent : Option BlockId
  deriving DecidableEq, Inhabited

/-- The height of a block on top of this one, which is zero again after the last of all
heights. -/
def Block.above (b : Block) : Nat :=
  (b.height + 1) % UInt64.size

/-- The block that a number must stand for, in a store that finds blocks by
number. -/
def storedBlock (block? : BlockId → Option Block) (id : BlockId) : Except Fault Block :=
  match block? id with
  | some b => .ok b
  | none => .error (.unknownBlock id)

/-- Read access to a chain's history. -/
structure View where
  /-- The block with the given number. -/
  block? : BlockId → Option Block
  /-- The ancestor of a block at a height. -/
  ancestor : BlockId → Nat → Except Fault BlockId

namespace View

/-- The block that a number must stand for. -/
def get (v : View) : BlockId → Except Fault Block :=
  storedBlock v.block?

/-! ## Ancestors by climbing -/

/-- The block reached by following so many parent links. -/
def climb (v : View) : Nat → BlockId → Except Fault BlockId
  | 0, id => .ok id
  | steps + 1, id => do
    let b ← v.get id
    match b.parent with
    | none => .error (.historyMissing (b.height - 1))
    | some p => v.climb steps p

/-- The ancestor of a block at a height, by parent links alone. -/
def climbTo (v : View) (id : BlockId) (height : Nat) : Except Fault BlockId := do
  let b ← v.get id
  if b.height < height then .error (.aboveBlock height b.height)
  else v.climb (b.height - height) id

/-- The access of a store that knows its blocks and no shorter way to an
ancestor than their links. -/
def ofBlocks (block? : BlockId → Option Block) : View where
  block? := block?
  ancestor := climbTo ⟨block?, fun id _ => .error (.unknownBlock id)⟩

/-! ## Clocks -/

/-- The times of a block and of those before it, latest first, as many as asked
for or down to genesis. -/
def timesBack (v : View) : Nat → BlockId → Except Fault (List Nat)
  | 0, _ => .ok []
  | count + 1, id => do
    let b ← v.get id
    if count = 0 then return [b.time]
    match b.parent with
    | some p => return b.time :: (← v.timesBack count p)
    | none =>
      if b.height = 0 then return [b.time] else .error (.historyMissing (b.height - 1))

/-- The median of the times of a block and the ten before it. -/
def medianTimePast (v : View) (id : BlockId) : Except Fault Nat := do
  return MedianTime.median (← v.timesBack MedianTime.span id)

/-- What a clock shows at a block. -/
def clockTime (v : View) (clock : Clock) (id : BlockId) : Except Fault Nat :=
  match clock with
  | .blockTime => do return (← v.get id).time
  | .medianTimePast => v.medianTimePast id

/-! ## Periods -/

/-- The last block of the latest period that has closed at or below a block, if
one has closed.  Periods are counted from height zero. -/
def closing (v : View) (period : Nat) (id : BlockId) : Except Fault (Option BlockId) := do
  let b ← v.get id
  if b.above < period then return none
  else if period = 0 then .error .emptyPeriod
  else return some (← v.ancestor id (b.height - b.above % period))

end View
end SoftFork
