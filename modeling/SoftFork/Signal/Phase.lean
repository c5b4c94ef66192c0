/-!
# The phases of a deployment

A candidate rule waits, is voted on, is locked in, and is in force; or it runs
out of time and has failed.

    defined ──▶ started ──▶ locked in ──▶ active
       │           │
       └───────────┴──────▶ failed

A phase holds for whole signalling periods, so besides the phase itself the one
thing worth knowing is the height of the first block it held for.  The two
together are a `Standing`.  Before anything has happened the phase is `defined`,
and it has been so since height zero.
-/

namespace SoftFork

/-- How far a deployment has come. -/
inductive Phase where
  /-- Its time has not come yet. -/
  | defined
  /-- Votes are counted in every period. -/
  | started
  /-- Enough votes came in one period; the rule will be in force. -/
  | lockedIn
  /-- The rule is in force for good. -/
  | active
  /-- Time ran out before enough votes came; nothing will change that. -/
  | failed
  deriving DecidableEq, Repr, Inhabited

namespace Phase

/-- Every phase. -/
def all : List Phase :=
  [.defined, .started, .lockedIn, .active, .failed]

/-- The name used in records. -/
def name : Phase → String
  | .defined => "defined"
  | .started => "started"
  | .lockedIn => "locked_in"
  | .active => "active"
  | .failed => "failed"

/-- The phase with the given name. -/
def ofName? (s : String) : Option Phase :=
  all.find? fun p => p.name == s

/-- Whether the phase is never left. -/
def isFinal : Phase → Bool
  | .active | .failed => true
  | _ => false

/-- Whether miners set the deployment's bit during the phase. -/
def isSignalling : Phase → Bool
  | .started | .lockedIn => true
  | _ => false

/-- Whether the rule will be or is enforced. -/
def isSettled : Phase → Bool
  | .lockedIn | .active => true
  | _ => false

/-- How far along the path the phase lies.  A failed deployment has left the
path behind `started` and shares its number with a phase it never meets. -/
def rank : Phase → Nat
  | .defined => 0
  | .started => 1
  | .lockedIn => 2
  | .failed => 2
  | .active => 3

theorem isSignalling_iff (p : Phase) : p.isSignalling = true ↔ p = .started ∨ p = .lockedIn := by
  cases p <;> decide

theorem ofName?_name (p : Phase) : ofName? p.name = some p := by
  cases p <;> decide

end Phase

/-- A phase with the height of the first block to which it applied. -/
structure Standing where
  phase : Phase
  since : Nat
  deriving DecidableEq, Repr, Inhabited

namespace Standing

/-- Where every deployment begins: defined, since genesis. -/
def initial : Standing :=
  ⟨.defined, 0⟩

/-- The standing after the phase was found to be `next` for the blocks from
`height` on; nothing changes while the phase stays the same. -/
def advance (s : Standing) (next : Phase) (height : Nat) : Standing :=
  if next = s.phase then s else ⟨next, height⟩

theorem phase_advance (s : Standing) (next : Phase) (height : Nat) :
    (s.advance next height).phase = next := by
  rw [advance]
  split
  · next h => exact h.symm
  · rfl

end Standing
end SoftFork
