import SoftFork.Settings.Basic
import SoftFork.Survey.Template

/-!
# Signs of rules that are not known

Others may be voting on a rule this software has never heard of.  Two signs
show it.

A bit that no deployment claims is followed like a deployment, with the
network's numbers and no limit in time.  When it locks in, a rule is coming, or
is here, that this node cannot check.

And among the last blocks there may be versions with bits that this node would
not have set.  Each block is compared with the version it should have had on its
own parent.
-/

namespace SoftFork

/-- A bit that nobody claims and that has locked in. -/
structure UnknownRule where
  bit : UInt8
  phase : Phase
  deriving DecidableEq, Repr, Inhabited

/-- The signs that are worth a warning. -/
structure Alerts where
  unknownRules : List UnknownRule := []
  /-- How many of the last blocks carry unexpected bits. -/
  unexpected : Nat := 0
  /-- Whether those are more than the limit. -/
  manyUnexpected : Bool := false
  deriving DecidableEq, Repr, Inhabited

/-- Whether there is nothing to warn about. -/
def Alerts.isQuiet (a : Alerts) : Bool :=
  a.unknownRules.isEmpty && !a.manyUnexpected

namespace Survey

/-- The bits that no deployment claims, in ascending order. -/
def unclaimedBits (s : Survey) : List Nat :=
  (List.range Version.bitCount).filter fun bit =>
    s.registry.knownMask &&& Version.mask (UInt8.ofNat bit) == 0

/-- The unclaimed bits that have locked in for the block that follows `tip`. -/
def unknownRules (s : Survey) (tip : Option BlockId) : Query (List UnknownRule) :=
  s.unclaimedBits.foldlM (fun found bit => do
    let standing ← s.standing (.bit bit) (.unclaimed (UInt8.ofNat bit) s.registry.params) tip
    return if standing.phase.isSettled then found ++ [⟨UInt8.ofNat bit, standing.phase⟩]
      else found) []

/-- How many of the given number of blocks, ending at `tip`, have a version with
bits they should not have; history may end before the blocks do. -/
def unexpectedVersions (s : Survey) : Nat → Option BlockId → Query Nat
  | 0, _ => return 0
  | _ + 1, none => return 0
  | window + 1, some id => do
    let b ← s.view.get id
    let expected ← s.nextVersion b.parent
    let rest ← s.unexpectedVersions window b.parent
    return (if Version.isUnexpected b.version expected then 1 else 0) + rest

/-- Both signs at once, judged by the given settings. -/
def alerts (s : Survey) (settings : AlertSettings) (tip : Option BlockId) : Query Alerts :=
  if settings.enabled then do
    let rules ← s.unknownRules tip
    let unexpected ← s.unexpectedVersions settings.window.toNat tip
    return ⟨rules, unexpected, decide (settings.limit.toNat < unexpected)⟩
  else return {}

end Survey
end SoftFork
