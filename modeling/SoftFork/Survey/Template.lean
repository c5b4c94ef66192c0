import Std.Data.ExtTreeMap
import SoftFork.Survey.Basic

/-!
# What to put into the next block

A miner votes for every deployment whose votes are being counted or that is
about to be in force, and the version of the next block says so.

A client that builds blocks is told more: which rules are in force, which bits
are being voted with, and the version.  A rule that must not be ignored binds
the client.  While it is being voted on, a client that does not know it does not
vote for it; once it is in force, such a client cannot build a valid block and
is turned away.
-/

namespace SoftFork

/-- What a client needs to know about versions and rules. -/
structure Template where
  /-- The version of the next block. -/
  version : UInt32
  /-- The rules in force, in registry order. -/
  rules : List String := []
  /-- The bits being voted with, by rule. -/
  available : Std.ExtTreeMap String UInt8 := ∅
  /-- The bits that a client has to set. -/
  required : UInt32 := 0
  deriving Inhabited

namespace Template

/-- The template with a bit that is being voted with. -/
def offer (t : Template) (d : Deployment) : Template :=
  { t with available := t.available.insert d.clientName d.bit }

/-- The template without a deployment's vote. -/
def withoutVote (t : Template) (d : Deployment) : Template :=
  { t with version := t.version &&& ~~~d.mask }

/-- The template with a further rule in force. -/
def enforce (t : Template) (d : Deployment) : Template :=
  { t with rules := t.rules ++ [d.clientName] }

/-- The template after a deployment in the given phase, for a client that knows
the given rules. -/
def consider (t : Template) (client : List String) (d : Deployment) :
    Phase → Except Fault Template
  | .defined => .ok t
  | .failed => .ok t
  | .started =>
    if d.ignorable || client.contains d.name then .ok (t.offer d)
    else .ok ((t.offer d).withoutVote d)
  | .lockedIn => .ok (t.offer d)
  | .active =>
    if d.ignorable || client.contains d.name then .ok (t.enforce d)
    else .error (.unsupportedRule d.name)

end Template

namespace Survey

/-- The version of the block that follows `prev`. -/
def nextVersion (s : Survey) (prev : Option BlockId) : Query UInt32 :=
  s.entries.foldlM (fun version entry => do
    let standing ← s.standingAt prev entry
    return if standing.phase.isSignalling then version ||| entry.1.mask else version)
    Version.topBits

/-- The template for the block that follows `tip`, for a client that knows the
given rules. -/
def template (s : Survey) (tip : Option BlockId) (client : List String) : Query Template := do
  let version ← s.nextVersion tip
  s.entries.foldlM (fun t entry => do
    let standing ← s.standingAt tip entry
    t.consider client entry.1 standing.phase) { version := version }

end Survey
end SoftFork
