import SoftFork.History.View
import SoftFork.Network
import SoftFork.Signal.Version

/-!
# What a vote is about

The rules that move a phase need to know six things: from when and until when
votes count, how long a period is and how many votes in it are enough, from what
height on the rule may be in force, and which blocks are votes for it.  A
`Ballot` is those six things.  A deployment gives rise to one, and so does a bit
that no deployment claims; neither the counting nor the rules can tell them
apart.

In both of these a block votes with its version.  The rules do not rely on that:
whether a block votes may be a matter of anything that is stored of it.
-/

namespace SoftFork

/-- What is voted on, as far as the rules of voting are concerned. -/
structure Ballot where
  /-- The clock value from which votes count. -/
  startTime : Nat
  /-- The clock value at which an undecided ballot fails. -/
  timeout : Nat
  /-- The length of a period in blocks. -/
  period : Nat
  /-- The votes within one period that decide. -/
  threshold : Nat
  /-- The height below which the rule is not in force. -/
  minActivationHeight : Nat
  /-- Whether a block votes for it. -/
  votes : Block → Bool

namespace Ballot

/-- The ballot of a bit that no deployment claims: open from the beginning and
without end. -/
def unclaimed (bit : UInt8) (params : Params) : Ballot where
  startTime := 0
  timeout := 0xFFFFFFFFFFFFFFFF
  period := params.period.toNat
  threshold := params.threshold.toNat
  minActivationHeight := 0
  votes b := Version.signals b.version bit

end Ballot
end SoftFork
