import SoftFork.History.Clock
import SoftFork.Rule.Registry

/-!
# Settings

What an operator can choose.  Every choice has a default, and the defaults
together are a complete configuration: the main network, the clock that cannot
run backwards, no overrides, and warnings about the last hundred blocks.

The registry follows from the settings.  Overrides are for test networks, and
the main network refuses them; without any, nothing has to be checked again.
-/

namespace SoftFork

/-- When to warn about blocks whose version carries unexpected bits. -/
structure AlertSettings where
  /-- Whether to look at all. -/
  enabled : Bool := true
  /-- How many recent blocks are looked at. -/
  window : UInt32 := 100
  /-- How many of them may be unexpected without a warning. -/
  limit : UInt32 := 50
  deriving DecidableEq, Repr, Inhabited

/-- What is done with remembered standings. -/
structure MemoSettings where
  /-- Whether those of abandoned branches are dropped when the tip moves. -/
  evictOnReorg : Bool := false
  deriving DecidableEq, Repr, Inhabited

/-- A complete configuration. -/
structure Settings where
  network : Network := .mainnet
  clock : Clock := .medianTimePast
  overrides : List Override := []
  alerts : AlertSettings := {}
  memos : MemoSettings := {}
  deriving DecidableEq, Repr, Inhabited

namespace Settings

/-- The deployments of the network, with the overrides applied. -/
def registry (s : Settings) : Except Fault Registry :=
  if s.overrides.isEmpty then .ok (.forNetwork s.network)
  else if s.network = .mainnet then .error (.misconfigured .overridesOnMainnet)
  else (Registry.forNetwork s.network).withOverrides s.overrides

end Settings
end SoftFork
