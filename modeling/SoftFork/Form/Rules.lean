import SoftFork.Form.Choices
import SoftFork.Settings.Basic

/-!
# JSON forms of deployments and settings

Reading does not judge: a deployment with a bit of 200 or a threshold of zero is
read like any other, and the registry refuses it later.  What a form insists on
is that each number fits its field.

In the settings every field may be missing, at every level, and stands for its
default then.  None may be `null`.
-/

namespace SoftFork

instance : Form Params where
  encode p := .fields
    [("period", Form.encode p.period),
     ("threshold", Form.encode p.threshold)]
  decode v := do
    let [period, threshold] ← v.record ["period", "threshold"] | none
    return {
      period := ← Json.required period
      threshold := ← Json.required threshold }

instance : Form Deployment where
  encode d := .fields
    [("name", Form.encode d.name),
     ("bit", Form.encode d.bit),
     ("start_time", Form.encode d.startTime),
     ("timeout", Form.encode d.timeout),
     ("period", Form.encode d.period),
     ("threshold", Form.encode d.threshold),
     ("min_activation_height", Form.encode d.minActivationHeight),
     ("gbt_force", Form.encode d.ignorable)]
  decode v := do
    let [name, bit, startTime, timeout, period, threshold, minActivationHeight, ignorable] ←
      v.record ["name", "bit", "start_time", "timeout", "period", "threshold",
        "min_activation_height", "gbt_force"] | none
    return {
      name := ← Json.required name
      bit := ← Json.required bit
      startTime := ← Json.required startTime
      timeout := ← Json.required timeout
      period := ← Json.required period
      threshold := ← Json.required threshold
      minActivationHeight := ← Json.orElse 0 minActivationHeight
      ignorable := ← Json.orElse true ignorable }

instance : Form Override where
  encode o := .fields
    [("name", Form.encode o.name),
     ("start_time", Form.encode o.startTime),
     ("timeout", Form.encode o.timeout)]
  decode v := do
    let [name, startTime, timeout] ← v.record ["name", "start_time", "timeout"] | none
    return {
      name := ← Json.required name
      startTime := ← Json.required startTime
      timeout := ← Json.required timeout }

instance : Form AlertSettings where
  encode a := .fields
    [("enabled", Form.encode a.enabled),
     ("window", Form.encode a.window),
     ("unexpected_threshold", Form.encode a.limit)]
  decode v := do
    let [enabled, window, limit] ←
      v.record ["enabled", "window", "unexpected_threshold"] | none
    return {
      enabled := ← Json.orElse true enabled
      window := ← Json.orElse 100 window
      limit := ← Json.orElse 50 limit }

instance : Form MemoSettings where
  encode m := .fields [("evict_on_reorg", Form.encode m.evictOnReorg)]
  decode v := do
    let [evictOnReorg] ← v.record ["evict_on_reorg"] | none
    return { evictOnReorg := ← Json.orElse false evictOnReorg }

instance : Form Settings where
  encode s := .fields
    [("network", Form.encode s.network),
     ("clock_rule", Form.encode s.clock),
     ("deployment_overrides", Form.encode s.overrides),
     ("warnings", Form.encode s.alerts),
     ("cache", Form.encode s.memos)]
  decode v := do
    let [network, clock, overrides, alerts, memos] ←
      v.record ["network", "clock_rule", "deployment_overrides", "warnings", "cache"] | none
    return {
      network := ← Json.orElse .mainnet network
      clock := ← Json.orElse .medianTimePast clock
      overrides := ← Json.orElse [] overrides
      alerts := ← Json.orElse {} alerts
      memos := ← Json.orElse {} memos }

end SoftFork
