import Std.Data.ExtTreeMap
import SoftFork.History.Header
import SoftFork.History.View

/-!
# The tree of blocks

All the blocks a node has ever accepted, on whatever branch, together with the
chain that counts at present.

Blocks are kept in the order in which they came and are known by their position
in it.  Nothing is ever removed or changed, so a position names the same block
for good, and a parent, which had to be there first, always has the smaller
one.

Besides, the tree keeps two indexes.  `byHash` finds the position of a hash.
`active` lists the positions of the active chain from the height `base` upwards;
how it is kept is the matter of `History.ActiveChain`.

## Storing a block

There are three ways in: genesis, a block whose history is deliberately not
stored, and a block whose parent is.  They differ in the parent and the height
and share `store`.  Storing is the same with any way of computing hashes, and
none of its properties depends on SHA-256, so the hash function is an argument.
A block whose hash is already known is not stored again.

Whatever changes the tree hands the tree on beside its result, so that what a
refusal leaves behind can be told from it.
-/

namespace SoftFork

/-- The stored blocks, with the chain that is active among them. -/
structure BlockTree where
  blocks : Array Block := #[]
  byHash : Std.ExtTreeMap BlockHash BlockId := ∅
  active : Array BlockId := #[]
  base : Nat := 0

namespace BlockTree

/-- The tree without any blocks. -/
def empty : BlockTree := {}

instance : Inhabited BlockTree := ⟨empty⟩

/-- How many blocks are stored. -/
def size (t : BlockTree) : Nat :=
  t.blocks.size

/-- The block with the given number. -/
def block? (t : BlockTree) (id : BlockId) : Option Block :=
  t.blocks[id]?

/-- The block that a number must stand for. -/
def get (t : BlockTree) : BlockId → Except Fault Block :=
  storedBlock t.block?

/-- The number of the block with the given hash. -/
def find? (t : BlockTree) (hash : BlockHash) : Option BlockId :=
  t.byHash[hash]?

/-- The number of the block that a hash must name. -/
def find (t : BlockTree) (hash : BlockHash) : Except Fault BlockId :=
  match t.find? hash with
  | some id => .ok id
  | none => .error (.unknownHash hash)

/-! ## Storing -/

/-- The tree with a block stored under the next free number. -/
def push (t : BlockTree) (b : Block) : BlockTree :=
  { t with blocks := t.blocks.push b, byHash := t.byHash.insert b.hash t.size }

/-- Stores a header with the given parent and height, unless its hash is known;
either way the answer is the number of the block with that hash. -/
def store (t : BlockTree) (digest : Header → BlockHash) (h : Header) (parent : Option BlockId)
    (height : Nat) : Except Fault BlockId × BlockTree :=
  if !h.timeFits then (.error (.timeTooLarge h.time), t)
  else match t.find? (digest h) with
  | some id => (.ok id, t)
  | none => (.ok t.size, t.push ⟨digest h, height, h.time.toNat, h.version, parent⟩)

/-- Stores a block without a parent at height zero. -/
def insertGenesis (t : BlockTree) (digest : Header → BlockHash) (h : Header) :
    Except Fault BlockId × BlockTree :=
  t.store digest h none 0

/-- Stores a block whose height is known and whose ancestors are not stored. -/
def insertDetached (t : BlockTree) (digest : Header → BlockHash) (h : Header) (height : UInt64) :
    Except Fault BlockId × BlockTree :=
  t.store digest h none height.toNat

/-- Stores a block on top of its parent, which has to be there. -/
def insert (t : BlockTree) (digest : Header → BlockHash) (h : Header) :
    Except Fault BlockId × BlockTree :=
  match t.find? h.parent with
  | none => (.error (.orphan (digest h) h.parent), t)
  | some p =>
    match t.get p with
    | .error e => (.error e, t)
    | .ok b => t.store digest h (some p) b.above

end BlockTree
end SoftFork
