import SoftFork.Fault
import SoftFork.Text.Blank
import SoftFork.Text.Letters

/-!
# Networks

Three networks run the same rules with different numbers.  How long a signalling
period is and how many votes lock a rule in are properties of the network,
shared by its deployments and by the bits nobody has claimed.

A network has one name in records and several spellings at an operator's
keyboard.  `spellings` lists them, and reading is a search through that list, so
that what is accepted can be read off the list and nowhere else.
-/

namespace SoftFork

/-- The length of a signalling period, in blocks, and the votes within one that
lock a rule in. -/
structure Params where
  period : UInt32
  threshold : UInt32
  deriving DecidableEq, Repr, Inhabited

/-- The networks that have deployments of their own. -/
inductive Network where
  | mainnet
  | testnet
  | regtest
  deriving DecidableEq, Repr, Inhabited

namespace Network

/-- Every network. -/
def all : List Network :=
  [.mainnet, .testnet, .regtest]

/-- The period and threshold of a network's deployments. -/
def params : Network → Params
  | .mainnet => ⟨2016, 1916⟩
  | .testnet => ⟨2016, 1512⟩
  | .regtest => ⟨844, 633⟩

/-- The name used in records. -/
def name : Network → String
  | .mainnet => "mainnet"
  | .testnet => "testnet"
  | .regtest => "regtest"

/-- The short name, as shown to operators. -/
def shortName : Network → String
  | .mainnet => "main"
  | .testnet => "test"
  | .regtest => "regtest"

/-- The network with the given name in records. -/
def ofName? (s : String) : Option Network :=
  all.find? fun n => n.name == s

/-- The spellings an operator may use, in small letters. -/
def spellings : Network → List String
  | .mainnet => ["main", "mainnet"]
  | .testnet => ["test", "testnet"]
  | .regtest => ["regtest"]

/-- The network an operator wrote: one of its spellings, in letters of any case,
with blanks around it. -/
def ofSpelling (s : List Char) : Except Fault Network :=
  let word := String.ofList (Text.lower (Text.trim s))
  match all.find? fun n => n.spellings.contains word with
  | some n => .ok n
  | none => .error (.misconfigured (.unknownNetwork word))

theorem ofName?_name (n : Network) : ofName? n.name = some n := by
  cases n <;> decide

end Network
end SoftFork
