import SoftFork.History.Tree

/-!
# The active chain

Of all the branches in the tree one is active.  The tree lists it by height, so
that a block on it finds an ancestor in one step instead of climbing, and a
block on a side branch climbs only until it meets it.

## Moving the tip

`setTip` makes a block the tip.  It walks back from the new tip to the first
block that is active already, keeps the list up to there and appends the path.
When the walk meets none, the new chain shares nothing with the old one, and the
list starts afresh at the height of its lowest block.  The answer counts the
blocks that were active and are not kept.

The walk comes first and does not write.  Once it has been made nothing is refused
any more, although the list has been cut down before the last look-ups are made.

## Ancestors

`ancestor` climbs like any view does, except that it leaves the links as soon as
it stands on the active chain.  What it finds is the same block; only the
refusals differ, in the height they name, because a walk that has left the links
no longer knows where they would have ended.
-/

namespace SoftFork
namespace BlockTree

/-- The tip of the active chain. -/
def tip (t : BlockTree) : Option BlockId :=
  t.active.back?

/-- The active block at a height. -/
def activeAt (t : BlockTree) (height : Nat) : Option BlockId :=
  if height < t.base then none else t.active[height - t.base]?

/-- Whether a block is on the active chain. -/
def isActive (t : BlockTree) (id : BlockId) : Bool :=
  match t.block? id with
  | some b => t.activeAt b.height == some id
  | none => false

/-! ## Moving the tip -/

/-- The blocks below and at `id` that are not active, lowest first in front of
`path`, and the active block under them, if the walk meets one.  A parent has a
smaller number than its child, so the number of a block bounds the walk from it. -/
def branch (t : BlockTree) : Nat → BlockId → List BlockId →
    Except Fault (List BlockId × Option BlockId)
  | 0, _, path => .ok (path, none)
  | steps + 1, id, path =>
    if t.isActive id then .ok (path, some id)
    else do
      let b ← t.get id
      match b.parent with
      | none => return (id :: path, none)
      | some p => t.branch steps p (id :: path)

/-- Cuts the active list down to the blocks up to `fork`. -/
def rewindTo (t : BlockTree) (fork : BlockId) : Except Fault Unit × BlockTree :=
  match t.get fork with
  | .error e => (.error e, t)
  | .ok b => (.ok (), { t with active := t.active.take (b.height - t.base + 1) })

/-- Empties the active list, and makes it ready for a chain whose lowest block is the
first of `path`. -/
def restartAt (t : BlockTree) (path : List BlockId) : Except Fault Unit × BlockTree :=
  match path with
  | [] => (.ok (), { t with active := #[] })
  | lowest :: _ =>
    match t.get lowest with
    | .error e => (.error e, { t with active := #[] })
    | .ok b => (.ok (), { t with active := #[], base := b.height })

/-- Cuts the active list down to what a new chain shares with it. -/
def cutTo (t : BlockTree) (path : List BlockId) : Option BlockId → Except Fault Unit × BlockTree
  | some fork => t.rewindTo fork
  | none => t.restartAt path

/-- Makes a block the tip of the active chain, and counts the blocks that were
active before and are not below the fork. -/
def setTip (t : BlockTree) (id : BlockId) : Except Fault Nat × BlockTree :=
  match t.branch (id + 1) id [] with
  | .error e => (.error e, t)
  | .ok (path, fork) =>
    match t.cutTo path fork with
    | (.error e, kept) => (.error e, kept)
    | (.ok (), kept) =>
      let moved := { kept with active := kept.active ++ path.toArray }
      match moved.get id with
      | .error e => (.error e, moved)
      | .ok _ => (.ok (t.active.size - kept.active.size), moved)

/-! ## Ancestors -/

/-- The ancestor at `height` of a block that stands so many steps above it. -/
def descendTo (t : BlockTree) (height : Nat) : Nat → BlockId → Except Fault BlockId
  | 0, id => .ok id
  | steps + 1, id => do
    let b ← t.get id
    if t.activeAt b.height = some id then
      match t.activeAt height with
      | some a => return a
      | none => .error (.historyMissing height)
    else
      match b.parent with
      | none => .error (.historyMissing (b.height - 1))
      | some p => t.descendTo height steps p

/-- The ancestor of a block at a height. -/
def ancestor (t : BlockTree) (id : BlockId) (height : Nat) : Except Fault BlockId := do
  let b ← t.get id
  if b.height < height then .error (.aboveBlock height b.height)
  else t.descendTo height (b.height - height) id

/-- The access to history that uses the active chain. -/
def view (t : BlockTree) : View where
  block? := t.block?
  ancestor := t.ancestor

/-- The access to history that uses parent links alone. -/
def plainView (t : BlockTree) : View :=
  View.ofBlocks t.block?

end BlockTree
end SoftFork
