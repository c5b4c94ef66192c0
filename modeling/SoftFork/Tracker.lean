import SoftFork.Survey.Alerts
import SoftFork.Survey.Status

/-!
# The tracker

Settings, registry and memory of one node.  The tracker never holds on to
history; each question brings its own view, and any view will do.

A tracker is made from settings alone, for a network, or around a registry that
was put together elsewhere.  In the last case the overrides among the settings
are not applied, since the registry is already what is wanted.
-/

namespace SoftFork

/-- What a node keeps to follow deployments. -/
structure Tracker where
  settings : Settings
  registry : Registry
  bank : MemoBank

namespace Tracker

/-- The tracker around a given registry, with nothing remembered. -/
def withRegistry (settings : Settings) (registry : Registry) : Tracker :=
  ⟨settings, registry, .empty registry.deployments.length⟩

/-- The tracker with the registry that the settings describe. -/
def ofSettings (settings : Settings) : Except Fault Tracker := do
  return withRegistry settings (← settings.registry)

/-- The tracker of a network, with the default settings. -/
def forNetwork (network : Network) : Tracker :=
  withRegistry { network := network } (.forNetwork network)

/-- What questions about a history are asked about. -/
def survey (t : Tracker) (v : View) : Survey :=
  ⟨t.registry, t.settings.clock, v⟩

/-- Asks a question about a history. -/
def ask {α : Type} (t : Tracker) (v : View) (q : Survey → Query α) :
    Except Fault α × Tracker :=
  let answer := (q (t.survey v)).ask t.bank
  (answer.1, { t with bank := answer.2 })

/-- The warnings for the block that follows `tip`. -/
def alerts (t : Tracker) (v : View) (tip : Option BlockId) : Except Fault Alerts × Tracker :=
  t.ask v fun s => s.alerts t.settings.alerts tip

/-- Forgets what belongs to abandoned branches, and counts it. -/
def evict (t : Tracker) (v : View) (live : List BlockId) : Except Fault Nat × Tracker :=
  let dropped := v.evict live t.bank
  (dropped.1, { t with bank := dropped.2 })

/-- To be told that the tip has moved: forgets what belongs to abandoned
branches, if the settings want that. -/
def tipMoved (t : Tracker) (v : View) (live : List BlockId) : Except Fault Nat × Tracker :=
  if t.settings.memos.evictOnReorg then t.evict v live else (.ok 0, t)

end Tracker
end SoftFork
