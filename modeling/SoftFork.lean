import SoftFork.Form.Chain
import SoftFork.Form.Rules
import SoftFork.Form.Survey
import SoftFork.History.ActiveChain
import SoftFork.Settings.Environment
import SoftFork.Tracker
import SoftFork.Proofs.Session
import SoftFork.Proofs.Standing.ClosedForm
import SoftFork.Proofs.Standing.Locality
import SoftFork.Proofs.Standing.Forward
import SoftFork.Proofs.Rule.Admission
import SoftFork.Proofs.Rule.SharedBit
import SoftFork.Proofs.Standing.Remnant
import SoftFork.Proofs.Standing.Truncated
import SoftFork.Proofs.Standing.Refusal
import SoftFork.Proofs.Survey.Window
import SoftFork.Proofs.History.Tip
import SoftFork.Proofs.History.Shortcut
import SoftFork.Proofs.History.MedianClock
import SoftFork.Proofs.History.MedianWindow
import SoftFork.Proofs.History.Store
import SoftFork.Proofs.History.Identity
import SoftFork.Proofs.Signal.Bits
import SoftFork.Proofs.Signal.Count
import SoftFork.Proofs.Survey.Cold
import SoftFork.Proofs.Survey.Compliance
import SoftFork.Proofs.Survey.Agreement
import SoftFork.Proofs.Form.Omission
import SoftFork.Proofs.Standing.Eviction
import SoftFork.Proofs.Standing.Footprint
import SoftFork.Proofs.Survey.Footprint
import SoftFork.Proofs.Standing.Forecast
import SoftFork.Proofs.Standing.Since
import SoftFork.Proofs.Survey.Unclaimed
import SoftFork.Proofs.Rule.Refusal
import SoftFork.Proofs.Rule.Overrides
import SoftFork.Proofs.Rule.Entry
import SoftFork.Proofs.Settings.Environment
import SoftFork.Proofs.Survey.Standings
import SoftFork.Proofs.Survey.Unexpected
import SoftFork.Proofs.Survey.Clients
