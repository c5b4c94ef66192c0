import SoftFork.History.Hash

/-!
# What can go wrong

Every refusal of this library is one of the causes below, and each has one
wording, given by `message`.  Causes carry what the wording needs and are told
apart by constructors, so that a caller, or a theorem, never has to read text
to know what happened.

Three families meet here.  A *misconfiguration* is found in what an operator
wrote.  A fault of the *registry* is found when deployments are put together.
The others are met while history is read: a block that is not stored, or a
question that reaches below the oldest block that is.
-/

namespace SoftFork

/-- What an operator wrote that cannot be used. -/
inductive Misconfiguration where
  | unknownNetwork (name : String)
  | unknownClock (name : String)
  | overrideShape (entry : String)
  | overrideTime (value entry : String)
  | networkThreshold
  | overridesOnMainnet
  | alreadyInstalled
  | noSuchBit (bit : Nat)
  deriving DecidableEq, Repr

namespace Misconfiguration

/-- The wording of a misconfiguration. -/
def message : Misconfiguration → String
  | .unknownNetwork name => "unknown network '" ++ name ++ "'"
  | .unknownClock name => "unknown clock rule '" ++ name ++ "'"
  | .overrideShape entry => "version bits override '" ++ entry ++ "' must be name:start:end"
  | .overrideTime value entry => "invalid time '" ++ value ++ "' in override '" ++ entry ++ "'"
  | .networkThreshold => "network threshold must be in 1..=period"
  | .overridesOnMainnet => "deployment overrides are not allowed on mainnet"
  | .alreadyInstalled => "version bits config already initialized"
  | .noSuchBit bit => "no version bit " ++ toString bit

end Misconfiguration

/-- What makes a single deployment unusable. -/
inductive Flaw where
  | emptyName
  | bitOutOfRange
  | emptyPeriod
  | thresholdOutOfRange
  | endsBeforeStart
  deriving DecidableEq, Repr

namespace Flaw

/-- The wording of a flaw. -/
def message : Flaw → String
  | .emptyName => "name must not be empty"
  | .bitOutOfRange => "bit must be in 0..=28"
  | .emptyPeriod => "period must be positive"
  | .thresholdOutOfRange => "threshold must be in 1..=period"
  | .endsBeforeStart => "timeout must be after start time"

end Flaw

/-- A refusal, by its cause. -/
inductive Fault where
  /-- What an operator wrote cannot be used. -/
  | misconfigured (cause : Misconfiguration)
  /-- A deployment is unusable by itself. -/
  | invalidDeployment (name : String) (flaw : Flaw)
  /-- Two deployments have one name. -/
  | duplicateDeployment (name : String)
  /-- Two deployments would use one bit at the same time. -/
  | bitCollision (first second : String) (bit : UInt8)
  /-- No deployment has this name. -/
  | unknownDeployment (name : String)
  /-- No deployment stands at this position of the registry. -/
  | unknownPosition (position : Nat)
  /-- The block at this height would be needed and is not stored. -/
  | historyMissing (height : Nat)
  /-- An ancestor was asked for above the block itself. -/
  | aboveBlock (requested height : Nat)
  /-- No stored block has this hash. -/
  | unknownHash (hash : BlockHash)
  /-- No stored block has this number. -/
  | unknownBlock (id : Nat)
  /-- A header's time does not fit its wire form. -/
  | timeTooLarge (time : UInt64)
  /-- A header names a parent that is not stored. -/
  | orphan (hash parent : BlockHash)
  /-- A rule in force is one that the client has to know and does not. -/
  | unsupportedRule (name : String)
  /-- A signalling period of no blocks was asked about. -/
  | emptyPeriod
  deriving DecidableEq

namespace Fault

/-- The wording of a refusal. -/
def message : Fault → String
  | .misconfigured cause => "Configuration error: " ++ cause.message
  | .invalidDeployment name flaw => "Invalid deployment " ++ name ++ ": " ++ flaw.message
  | .duplicateDeployment name => "Duplicate deployment name: " ++ name
  | .bitCollision first second bit =>
    "Deployments " ++ first ++ " and " ++ second ++ " both claim bit " ++ toString bit.toNat
      ++ " for overlapping time ranges"
  | .unknownDeployment name => "Unknown deployment: " ++ name
  | .unknownPosition position => "Unknown deployment: position " ++ toString position
  | .historyMissing height =>
    "Insufficient chain history: ancestor at height " ++ toString height ++ " is not available"
  | .aboveBlock requested height =>
    "Requested ancestor height " ++ toString requested ++ " is above node height "
      ++ toString height
  | .unknownHash hash => "Unknown block: " ++ hash.display
  | .unknownBlock id => "Unknown chain node index: " ++ toString id
  | .timeTooLarge time =>
    "Header timestamp " ++ toString time.toNat ++ " does not fit the 32-bit header field"
  | .orphan hash parent =>
    "Header " ++ hash.display ++ " references unknown parent " ++ parent.display
  | .unsupportedRule name =>
    "Support for '" ++ name ++ "' rule requires explicit client support"
  | .emptyPeriod => "A signalling period must hold at least one block"

end Fault
end SoftFork
