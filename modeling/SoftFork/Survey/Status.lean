import Std.Data.ExtTreeMap
import SoftFork.Survey.Basic

/-!
# Status reports

What an operator is shown about a deployment: where it stands and since when,
and, while votes are being counted, how the count is going.  In every other
phase a count would mean nothing, and none is given.

The report lists all deployments by name.  It is refused as a whole when any one
of them cannot be answered.
-/

namespace SoftFork

/-- The state of a deployment as it is shown. -/
structure Status where
  phase : Phase
  bit : UInt8
  startTime : UInt64
  timeout : UInt64
  /-- The height of the first block to which the phase applied. -/
  since : Nat
  /-- The open period's votes, while the phase is `started`. -/
  tally : Option Tally := none
  deriving DecidableEq, Repr, Inhabited

/-- The status of every deployment, by name. -/
abbrev Report := Std.ExtTreeMap String Status

namespace Survey

/-- The open period's votes in the one phase in which they are counted. -/
def shownTally (s : Survey) (ballot : Ballot) (tip : Option BlockId) (phase : Phase) :
    Except Fault (Option Tally) :=
  if phase = .started then do
    return some (← s.view.tally ballot tip)
  else .ok none

/-- The status of the deployment at a position. -/
def statusAt (s : Survey) (tip : Option BlockId) (entry : Deployment × Nat) : Query Status := do
  let standing ← s.standingAt tip entry
  let tally ← s.shownTally entry.1.ballot tip standing.phase
  return {
    phase := standing.phase
    bit := entry.1.bit
    startTime := entry.1.startTime
    timeout := entry.1.timeout
    since := standing.since
    tally := tally }

/-- The status of the deployment with the given name. -/
def statusOf (s : Survey) (name : String) (tip : Option BlockId) : Query Status := do
  let entry ← s.entry name
  s.statusAt tip entry

/-- The status of every deployment. -/
def report (s : Survey) (tip : Option BlockId) : Query Report :=
  s.entries.foldlM (fun found entry => do
    let status ← s.statusAt tip entry
    return found.insert entry.1.name status) ∅

end Survey
end SoftFork
