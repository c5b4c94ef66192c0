import SoftFork.Form.Choices
import SoftFork.Survey.Alerts
import SoftFork.Survey.Status

/-!
# JSON forms of reports, templates and warnings

Counts and heights are plain natural numbers in this library, and their written
fields are thirty-two or sixty-four bits wide.  A form writes whatever number
there is and reads back those that fit, so a round trip is promised for records
whose numbers fit, which are all that ever arise from heights and periods that
fit.

A status without a count has no field for it, and one is read from a missing
field or `null`.
-/

namespace SoftFork

/-- The largest number of a field of thirty-two bits. -/
def Json.limit32 : Nat := 0xFFFFFFFF

/-- The largest number of a field of sixty-four bits. -/
def Json.limit64 : Nat := 0xFFFFFFFFFFFFFFFF

/-- The fields of a tally, with the numbers written as they are. -/
def Tally.formFields (t : Tally) : List (String × Json) :=
  [("period_index", .nat t.periodIndex),
   ("period", .nat t.period),
   ("threshold", .nat t.threshold),
   ("elapsed", .nat t.elapsed),
   ("count", .nat t.count),
   ("possible", .bool t.possible)]

instance : Form Tally where
  encode t := .fields t.formFields
  decode v := do
    let [periodIndex, period, threshold, elapsed, count, possible] ←
      v.record ["period_index", "period", "threshold", "elapsed", "count", "possible"] | none
    return {
      periodIndex := ← Json.requiredNat Json.limit64 periodIndex
      period := ← Json.requiredNat Json.limit32 period
      threshold := ← Json.requiredNat Json.limit32 threshold
      elapsed := ← Json.requiredNat Json.limit32 elapsed
      count := ← Json.requiredNat Json.limit32 count
      possible := ← Json.required possible }

/-- The fields of a status, with its tally, if any, in the given form. -/
def Status.formFields (s : Status) (tally : Tally → Json) : List (String × Json) :=
  [("status", Form.encode s.phase),
   ("bit", Form.encode s.bit),
   ("start_time", Form.encode s.startTime),
   ("timeout", Form.encode s.timeout),
   ("since", .nat s.since)]
    ++ s.tally.toList.map fun t => ("statistics", tally t)

instance : Form Status where
  encode s := .fields (s.formFields Form.encode)
  decode v := do
    let [phase, bit, startTime, timeout, since, tally] ←
      v.record ["status", "bit", "start_time", "timeout", "since", "statistics"] | none
    return {
      phase := ← Json.required phase
      bit := ← Json.required bit
      startTime := ← Json.required startTime
      timeout := ← Json.required timeout
      since := ← Json.requiredNat Json.limit64 since
      tally := ← Json.optional tally }

/-- The entries of an object as a map; of entries with one key the last
counts. -/
def Json.entries? {α : Type} [Form α] : Json → Option (Std.ExtTreeMap String α)
  | .object fields =>
    fields.foldlM (fun found e => do
      let key ← e.1
      let value ← Form.decode e.2
      return found.insert key value) ∅
  | _ => none

instance {α : Type} [Form α] : Form (Std.ExtTreeMap String α) where
  encode m := .fields (m.toList.map fun e => (e.1, Form.encode e.2))
  decode := Json.entries?

instance : Form Template where
  encode t := .fields
    [("version", Form.encode t.version),
     ("rules", Form.encode t.rules),
     ("vbavailable", Form.encode t.available),
     ("vbrequired", Form.encode t.required)]
  decode v := do
    let [version, rules, available, required] ←
      v.record ["version", "rules", "vbavailable", "vbrequired"] | none
    return {
      version := ← Json.required version
      rules := ← Json.required rules
      available := ← Json.required available
      required := ← Json.required required }

instance : Form UnknownRule where
  encode r := .fields
    [("bit", Form.encode r.bit),
     ("state", Form.encode r.phase)]
  decode v := do
    let [bit, phase] ← v.record ["bit", "state"] | none
    return {
      bit := ← Json.required bit
      phase := ← Json.required phase }

/-- The fields of warnings. -/
def Alerts.formFields (a : Alerts) : List (String × Json) :=
  [("unknown_rules", Form.encode a.unknownRules),
   ("unexpected_versions", .nat a.unexpected),
   ("unexpected_version_warning", .bool a.manyUnexpected)]

instance : Form Alerts where
  encode a := .fields a.formFields
  decode v := do
    let [unknownRules, unexpected, manyUnexpected] ←
      v.record ["unknown_rules", "unexpected_versions", "unexpected_version_warning"] | none
    return {
      unknownRules := ← Json.required unknownRules
      unexpected := ← Json.requiredNat Json.limit32 unexpected
      manyUnexpected := ← Json.required manyUnexpected }

end SoftFork
