import SoftFork.Settings.Basic

/-!
# Settings from the environment

Seven variables, each of which may be missing, and each of which stands for one
setting.  A variable whose value cannot be read counts as missing, and an entry
of the override list that cannot be read counts as not written: a node starts
with the defaults rather than not at all, and one bad value never spoils another.

The lookup is an argument.  Nothing here touches a process's real environment.
-/

namespace SoftFork

/-- The variables that are looked up. -/
inductive Variable where
  | network
  | clock
  | overrides
  | alertsEnabled
  | alertsWindow
  | alertsLimit
  | evictOnReorg
  deriving DecidableEq, Repr

/-- The name under which a variable is looked up. -/
def Variable.name : Variable → String
  | .network => "BLVM_VERSIONBITS_NETWORK"
  | .clock => "BLVM_VERSIONBITS_CLOCK_RULE"
  | .overrides => "BLVM_VERSIONBITS_VBPARAMS"
  | .alertsEnabled => "BLVM_VERSIONBITS_WARNINGS_ENABLED"
  | .alertsWindow => "BLVM_VERSIONBITS_WARNINGS_WINDOW"
  | .alertsLimit => "BLVM_VERSIONBITS_WARNINGS_UNEXPECTED_THRESHOLD"
  | .evictOnReorg => "BLVM_VERSIONBITS_CACHE_EVICT_ON_REORG"

namespace Settings

/-- A truth value, spelled out in small letters. -/
def readBool (s : List Char) : Option Bool :=
  let word := String.ofList (Text.trim s)
  if word = "true" then some true
  else if word = "false" then some false
  else none

/-- A number of at most thirty-two bits. -/
def readCount (s : List Char) : Option UInt32 :=
  (Text.readNumeral 0xFFFFFFFF (Text.trim s)).map UInt32.ofNat

/-- The overrides among the entries of a list separated by commas.  Blank entries
and entries that are no override are passed over. -/
def readOverrides (s : List Char) : List Override :=
  (s.splitOn ',').filterMap fun entry =>
    if (Text.trim entry).isEmpty then none else (Override.ofEntry entry).toOption

/-- The value of a variable, if it is there and can be read, and else the
default. -/
def readVariable {α : Type} (lookup : String → Option String) (which : Variable)
    (read : List Char → Option α) (default : α) : α :=
  ((lookup which.name).bind fun s => read s.toList).getD default

/-- The settings that an environment describes. -/
def ofEnvironment (lookup : String → Option String) : Settings where
  network := readVariable lookup .network (fun s => (Network.ofSpelling s).toOption) .mainnet
  clock := readVariable lookup .clock (fun s => (Clock.ofSpelling s).toOption) .medianTimePast
  overrides := readVariable lookup .overrides (fun s => some (readOverrides s)) []
  alerts := {
    enabled := readVariable lookup .alertsEnabled readBool true
    window := readVariable lookup .alertsWindow readCount 100
    limit := readVariable lookup .alertsLimit readCount 50 }
  memos := { evictOnReorg := readVariable lookup .evictOnReorg readBool false }

end Settings

/-! ## The settings of a process -/

/-- The settings that a process has installed, at most once. -/
structure Installed where
  settings? : Option Settings := none

namespace Installed

/-- Installs settings for good. -/
def install (i : Installed) (s : Settings) : Except Fault Installed :=
  match i.settings? with
  | none => .ok ⟨some s⟩
  | some _ => .error (.misconfigured .alreadyInstalled)

/-- The settings in force: the installed ones, or else those of the
environment. -/
def current (i : Installed) (lookup : String → Option String) : Settings :=
  i.settings?.getD (Settings.ofEnvironment lookup)

end Installed
end SoftFork
