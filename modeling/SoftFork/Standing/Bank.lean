import Std.Data.ExtTreeSet
import SoftFork.Signal.Version
import SoftFork.Standing.Memo

/-!
# All the memory there is

One memo for each deployment, in registry order, and one for each of the
twenty-nine bits, used while nobody claims the bit.  A `Slot` says which memo is
meant.

Forgetting is always allowed, because what is forgotten can be worked out again.
`evict` forgets what belongs to blocks that are on the way back from no live
tip.
-/

namespace SoftFork

/-- One of the memos. -/
inductive Slot where
  /-- That of the deployment at a position of the registry. -/
  | deployment (position : Nat)
  /-- That of a bit. -/
  | bit (bit : Nat)
  deriving DecidableEq, Repr

/-- The memos of all deployments and of all bits. -/
structure MemoBank where
  deployments : List Memo
  bits : List Memo

namespace MemoBank

/-- Empty memos for so many deployments and for every bit. -/
def empty (deployments : Nat) : MemoBank :=
  ⟨List.replicate deployments .empty, List.replicate Version.bitCount .empty⟩

/-- The memo of a slot. -/
def get (bank : MemoBank) : Slot → Except Fault Memo
  | .deployment position =>
    match bank.deployments[position]? with
    | some m => .ok m
    | none => .error (.unknownPosition position)
  | .bit bit =>
    match bank.bits[bit]? with
    | some m => .ok m
    | none => .error (.misconfigured (.noSuchBit bit))

/-- The bank with another memo in a slot; slots that are not there stay so. -/
def set (bank : MemoBank) : Slot → Memo → MemoBank
  | .deployment position, m => { bank with deployments := bank.deployments.set position m }
  | .bit bit, m => { bank with bits := bank.bits.set bit m }

/-- How many standings are remembered in all. -/
def size (bank : MemoBank) : Nat :=
  (bank.deployments ++ bank.bits).foldl (fun total m => total + m.size) 0

/-- The bank with nothing remembered. -/
def clear (bank : MemoBank) : MemoBank :=
  ⟨bank.deployments.map fun _ => .empty, bank.bits.map fun _ => .empty⟩

/-- The bank restricted to the blocks that pass a test. -/
def keep (bank : MemoBank) (test : BlockId → Bool) : MemoBank :=
  ⟨bank.deployments.map (Memo.keep · test), bank.bits.map (Memo.keep · test)⟩

end MemoBank

namespace View

/-- A set of blocks with a block and its ancestors added, of which there are at
most so many.  An ancestor that is in the set has its own there already. -/
def addLineage (v : View) :
    Nat → BlockId → Std.ExtTreeSet BlockId → Except Fault (Std.ExtTreeSet BlockId)
  | 0, _, seen => .ok seen
  | steps + 1, id, seen =>
    if seen.contains id then .ok seen
    else do
      let b ← v.get id
      match b.parent with
      | none => return seen.insert id
      | some p => v.addLineage steps p (seen.insert id)

/-- The given blocks and all their ancestors, each of which has a smaller number than the block
it is below. -/
def lineages (v : View) (tips : List BlockId) : Except Fault (Std.ExtTreeSet BlockId) :=
  tips.foldlM (fun seen tip => v.addLineage (tip + 1) tip seen) ∅

/-- Forgets the standings of blocks that are neither a live tip nor an ancestor
of one, and counts them.  All the links are followed before anything is forgotten. -/
def evict (v : View) (live : List BlockId) (bank : MemoBank) : Except Fault Nat × MemoBank :=
  match v.lineages live with
  | .error e => (.error e, bank)
  | .ok reachable =>
    let kept := bank.keep reachable.contains
    (.ok (bank.size - kept.size), kept)

end View
end SoftFork
