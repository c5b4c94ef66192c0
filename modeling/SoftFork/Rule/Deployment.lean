import SoftFork.Network
import SoftFork.Signal.Ballot

/-!
# Deployments

A deployment is a candidate rule: its name, the bit miners vote with, the times
between which votes count, and the numbers that decide.  By itself it is usable
when the numbers make sense; `flaw?` names the first that does not.

Two deployments may share a bit as long as their time ranges do not meet.  A
range holds its start and not its timeout, so one may end exactly where the next
begins.
-/

namespace SoftFork

/-- A candidate rule. -/
structure Deployment where
  /-- The name, unique in a registry. -/
  name : String
  /-- The bit that votes for it. -/
  bit : UInt8
  /-- The clock value from which votes count. -/
  startTime : UInt64
  /-- The clock value at which it fails when undecided. -/
  timeout : UInt64
  /-- The length of a period in blocks. -/
  period : UInt32
  /-- The votes within one period that lock it in. -/
  threshold : UInt32
  /-- The height below which it is not in force. -/
  minActivationHeight : UInt64 := 0
  /-- Whether a client that does not know the rule may still build blocks. -/
  ignorable : Bool := true
  deriving DecidableEq, Repr, Inhabited

namespace Deployment

/-- The timeout of a deployment that never runs out. -/
def noTimeout : UInt64 := 999999999999

/-- The deployment with a network's period and threshold. -/
def withParams (name : String) (bit : UInt8) (startTime timeout : UInt64) (params : Params) :
    Deployment where
  name := name
  bit := bit
  startTime := startTime
  timeout := timeout
  period := params.period
  threshold := params.threshold

/-- The version with the deployment's bit set. -/
def mask (d : Deployment) : UInt32 :=
  Version.mask d.bit

/-- The name shown to the clients that build blocks; a mark in front says that
the rule must not be ignored. -/
def clientName (d : Deployment) : String :=
  if d.ignorable then d.name else "!" ++ d.name

/-- What is voted on. -/
def ballot (d : Deployment) : Ballot where
  startTime := d.startTime.toNat
  timeout := d.timeout.toNat
  period := d.period.toNat
  threshold := d.threshold.toNat
  minActivationHeight := d.minActivationHeight.toNat
  votes b := Version.signals b.version d.bit

/-- Whether the time ranges of two deployments meet. -/
def overlaps (d e : Deployment) : Bool :=
  d.startTime < e.timeout && e.startTime < d.timeout

/-- The first thing that makes a deployment unusable by itself. -/
def flaw? (d : Deployment) : Option Flaw :=
  if d.name.isEmpty then some .emptyName
  else if Version.bitCount ≤ d.bit.toNat then some .bitOutOfRange
  else if d.period = 0 then some .emptyPeriod
  else if d.threshold = 0 ∨ d.period < d.threshold then some .thresholdOutOfRange
  else if d.timeout ≤ d.startTime then some .endsBeforeStart
  else none

theorem overlaps_comm (d e : Deployment) : d.overlaps e = e.overlaps d :=
  Bool.and_comm _ _

end Deployment
end SoftFork
