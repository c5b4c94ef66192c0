import SoftFork.Fault
import SoftFork.Text.Blank
import SoftFork.Text.Numeral

/-!
# Overrides of deployment times

On test networks an operator may move the times of a deployment.  An override
names the deployment and gives both times, written `name:start:timeout`.

Blanks are welcome around the entry and around each of its parts, and the name
may even be empty; whether a deployment of that name exists is not asked here.
What is refused is an entry that has not exactly two colons, and then a start,
and then a timeout, that is no number of sixty-four bits.
-/

namespace SoftFork

/-- New times for the deployment with the given name. -/
structure Override where
  name : String
  startTime : UInt64
  timeout : UInt64
  deriving DecidableEq, Repr, Inhabited

namespace Override

/-- The latest time there is. -/
def lastTime : Nat := 0xFFFFFFFFFFFFFFFF

/-- One of the times of an entry. -/
def readTime (entry value : List Char) : Except Fault UInt64 :=
  match Text.readNumeral lastTime (Text.trim value) with
  | some n => .ok (UInt64.ofNat n)
  | none =>
    .error (.misconfigured (.overrideTime (String.ofList value) (String.ofList entry)))

/-- The override that an entry writes. -/
def ofEntry (entry : List Char) : Except Fault Override :=
  match (Text.trim entry).splitOn ':' with
  | [name, start, stop] => do
    let startTime ← readTime entry start
    let timeout ← readTime entry stop
    return ⟨String.ofList (Text.trim name), startTime, timeout⟩
  | _ => .error (.misconfigured (.overrideShape (String.ofList entry)))

end Override
end SoftFork
