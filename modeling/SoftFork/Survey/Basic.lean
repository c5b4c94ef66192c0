import SoftFork.Rule.Registry
import SoftFork.Standing.Bank
import SoftFork.Standing.Walk

/-!
# Asking about deployments

A `Survey` fixes what a question is asked about: the deployments, the clock that
decides, and the history.  A `Query` is a question.  It may be refused, and it
may remember what it has worked out, and the two do not cancel: what had been
remembered before a refusal stays remembered, because it was right.

Every question comes down to `standing`, which works with the memo of one slot
and leaves the others alone.
-/

namespace SoftFork

/-- A question that uses and extends the memory. -/
abbrev Query (α : Type) := ExceptT Fault (StateM MemoBank) α

namespace Query

/-- The question's answer and the memory after it. -/
def ask {α : Type} (q : Query α) (bank : MemoBank) : Except Fault α × MemoBank :=
  StateT.run (ExceptT.run q) bank

/-- The question that works with the memo of one slot. -/
def onMemo {α : Type} (slot : Slot) (f : Memo → Except Fault α × Memo) : Query α :=
  ExceptT.mk fun bank =>
    match bank.get slot with
    | .error e => (.error e, bank)
    | .ok m => ((f m).1, bank.set slot (f m).2)

end Query

/-- What questions are asked about. -/
structure Survey where
  registry : Registry
  clock : Clock
  view : View

namespace Survey

/-- The standing of a ballot for the block that follows `prev`, with the memo of
the given slot. -/
def standing (s : Survey) (slot : Slot) (ballot : Ballot) (prev : Option BlockId) :
    Query Standing :=
  .onMemo slot (s.view.standing s.clock ballot prev)

/-- The deployments with their positions. -/
def entries (s : Survey) : List (Deployment × Nat) :=
  s.registry.deployments.zipIdx

/-- The standing of the deployment at a position. -/
def standingAt (s : Survey) (prev : Option BlockId) (entry : Deployment × Nat) :
    Query Standing :=
  s.standing (.deployment entry.2) entry.1.ballot prev

/-- The deployment with the given name and its position. -/
def entry (s : Survey) (name : String) : Except Fault (Deployment × Nat) := do
  let position ← s.registry.position name
  let d ← s.registry.get name
  return (d, position)

/-- The standing of the deployment with the given name. -/
def standingOf (s : Survey) (name : String) (prev : Option BlockId) : Query Standing := do
  let entry ← s.entry name
  s.standingAt prev entry

/-- Whether the rule with the given name is in force for the block that follows
`prev`. -/
def isActive (s : Survey) (name : String) (prev : Option BlockId) : Query Bool := do
  let standing ← s.standingOf name prev
  return standing.phase == .active

/-- The open period's votes for the deployment with the given name. -/
def tallyOf (s : Survey) (name : String) (tip : Option BlockId) : Query Tally := do
  let entry ← s.entry name
  s.view.tally entry.1.ballot tip

end Survey
end SoftFork
