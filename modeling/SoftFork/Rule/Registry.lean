import SoftFork.Rule.Deployment
import SoftFork.Rule.Override

/-!
# The registry of deployments

A registry is put together once and never changed.  Everything that could be
wrong with it is found then: a deployment that is unusable, two with one name,
or two that claim the same bit for times that meet.  After that no query looks
for conflicts.

## The order of checks

The deployments are admitted one by one, and each is checked by itself and then
against those before it, in order.  So the refusal belongs to the first
deployment that cannot be admitted, and names the first thing against it.

Overrides are applied to the whole list before anything is checked.  A state in
between may well be invalid; only the result counts.
-/

namespace SoftFork

/-- The deployments that are tracked, with the numbers of their network. -/
structure Registry where
  params : Params
  deployments : List Deployment
  deriving DecidableEq, Repr

/-- Whether a period holds a block and the threshold can be met and missed. -/
def Params.isUsable (p : Params) : Bool :=
  p.period != 0 && p.threshold != 0 && p.threshold ≤ p.period

namespace Registry

/-! ## Admission -/

/-- What a deployment admitted earlier has against a later one. -/
def conflict? (earlier later : Deployment) : Option Fault :=
  if earlier.name = later.name then some (.duplicateDeployment later.name)
  else if earlier.bit = later.bit ∧ earlier.overlaps later = true then
    some (.bitCollision earlier.name later.name later.bit)
  else none

/-- Everything there is against a deployment, itself first and then the earlier
ones in order, cut down to the first refusal. -/
def refusal? (earlier : List Deployment) (d : Deployment) : Option Fault :=
  match d.flaw? with
  | some flaw => some (.invalidDeployment d.name flaw)
  | none => earlier.findSome? fun e => conflict? e d

/-- Admits deployments one after another behind those that are in already. -/
def enroll (earlier : List Deployment) : List Deployment → Except Fault Unit
  | [] => .ok ()
  | d :: rest =>
    match refusal? earlier d with
    | some fault => .error fault
    | none => enroll (earlier ++ [d]) rest

/-- The registry with the given numbers and deployments, if they are valid. -/
def build (params : Params) (deployments : List Deployment) : Except Fault Registry :=
  if params.isUsable then do
    enroll [] deployments
    return ⟨params, deployments⟩
  else .error (.misconfigured .networkThreshold)

/-! ## The deployments of a network -/

/-- The deployment that only exercises the machinery.  On the public networks it
ran during the year 2008, before there was any block. -/
def testDummy (network : Network) : Deployment :=
  match network with
  | .regtest => .withParams "testdummy" 28 0 Deployment.noTimeout network.params
  | _ => .withParams "testdummy" 28 1199145601 1230767999 network.params

/-- The built-in deployments of a network. -/
def forNetwork (network : Network) : Registry where
  params := network.params
  deployments :=
    [testDummy network,
     .withParams "csv" 0 0 Deployment.noTimeout network.params,
     { Deployment.withParams "segwit" 1 0 Deployment.noTimeout network.params with ignorable := false }]

/-! ## Overrides -/

/-- The deployments after an override of the first that has its name. -/
def setTimes (o : Override) : List Deployment → Except Fault (List Deployment)
  | [] => .error (.unknownDeployment o.name)
  | d :: rest =>
    if d.name = o.name then
      .ok ({ d with startTime := o.startTime, timeout := o.timeout } :: rest)
    else do
      return d :: (← setTimes o rest)

/-- The registry after overrides, each in turn, checked as a whole at the end. -/
def withOverrides (r : Registry) (overrides : List Override) : Except Fault Registry := do
  let deployments ← overrides.foldlM (fun ds o => setTimes o ds) r.deployments
  build r.params deployments

/-! ## Access -/

/-- The deployment with the given name. -/
def get (r : Registry) (name : String) : Except Fault Deployment :=
  match r.deployments.find? fun d => d.name == name with
  | some d => .ok d
  | none => .error (.unknownDeployment name)

/-- The position of the deployment with the given name. -/
def position (r : Registry) (name : String) : Except Fault Nat :=
  match r.deployments.findIdx? fun d => d.name == name with
  | some i => .ok i
  | none => .error (.unknownDeployment name)

/-- The version that has every deployment's bit set. -/
def knownMask (r : Registry) : UInt32 :=
  r.deployments.foldl (fun mask d => mask ||| d.mask) 0

/-- The registry of every network is one that would be admitted. -/
theorem build_forNetwork (network : Network) :
    build (forNetwork network).params (forNetwork network).deployments
      = .ok (forNetwork network) := by
  cases network <;> rfl

end Registry
end SoftFork
