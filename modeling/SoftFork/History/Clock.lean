import SoftFork.Fault
import SoftFork.Text.Blank
import SoftFork.Text.Letters

/-!
# Which clock decides

Start time and timeout of a deployment are compared with a clock that the chain
itself carries.  There are two candidates.  A block's own time is simple and may
run backwards from one block to the next.  The median of the last eleven times
cannot, as long as every block is later than the median before it, and that is
what makes it safe to stop looking at old periods early.
-/

namespace SoftFork

/-- The clock that decides about start and timeout. -/
inductive Clock where
  /-- The block's own time. -/
  | blockTime
  /-- The median of the times of the block and the ten before it. -/
  | medianTimePast
  deriving DecidableEq, Repr, Inhabited

namespace Clock

/-- Both clocks. -/
def all : List Clock :=
  [.blockTime, .medianTimePast]

/-- Whether the rules of the chain keep this clock from running backwards. -/
def isMonotone : Clock → Bool
  | .blockTime => false
  | .medianTimePast => true

/-- The name used in records. -/
def name : Clock → String
  | .blockTime => "block_time"
  | .medianTimePast => "median_time_past"

/-- The clock with the given name in records. -/
def ofName? (s : String) : Option Clock :=
  all.find? fun c => c.name == s

/-- The spellings an operator may use, in small letters. -/
def spellings : Clock → List String
  | .blockTime => ["block_time", "blocktime"]
  | .medianTimePast => ["median_time_past", "mediantimepast", "mtp"]

/-- The clock an operator wrote: one of its spellings, in letters of any case,
with blanks around it. -/
def ofSpelling (s : List Char) : Except Fault Clock :=
  let word := String.ofList (Text.lower (Text.trim s))
  match all.find? fun c => c.spellings.contains word with
  | some c => .ok c
  | none => .error (.misconfigured (.unknownClock word))

theorem ofName?_name (c : Clock) : ofName? c.name = some c := by
  cases c <;> decide

end Clock
end SoftFork
