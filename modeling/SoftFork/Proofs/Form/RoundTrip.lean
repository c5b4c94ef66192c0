import SoftFork.Proofs.Form.Lossless
import SoftFork.Proofs.Json.RoundTrip

/-!
# What is written can be read

Settings, deployments, reports, templates, warnings, headers and their parts travel as JSON
text.  A type `RoundTrips` when its texts can be relied on in both directions.  A value that
has been written is read as itself.  And whatever text a value has been read from, in whatever
order, with defaults left out, with fields nobody wants or as a bare array, the value is one
that can be written, and is read as itself from then on.

Both come down to one equation about JSON values, since the text in between is settled for
all of them at once (`Json.read_write`).

## Numbers that fit

In three records the counts and heights are natural numbers without a limit, while their
written fields are thirty-two or sixty-four bits wide.  A number that is too large is written
and then refused.  So for these records there is a domain, `Fits`, which says field by field
what the width is.  It is not an assumption about texts: whatever has been read fits
(`Tally.Fits.of_decode` and its kin).
-/

namespace SoftFork

open Form (encode decode)

/-! ## Records all of whose values can be written -/

namespace LosslessForm

instance : LosslessForm Header where
  decode_encode h := by
    have hfields : (encode h).record
        ["version", "prev_block_hash", "merkle_root", "timestamp", "bits", "nonce"] =
        some [some (encode h.version), some (encode h.parent), some (encode h.merkleRoot),
          some (encode h.time), some (encode h.bits), some (encode h.nonce)] :=
      Json.record_fields (by simp) _
    simp [decode, hfields]

instance : LosslessForm Params where
  decode_encode p := by
    have hfields : (encode p).record ["period", "threshold"] =
        some [some (encode p.period), some (encode p.threshold)] :=
      Json.record_fields (by simp) _
    simp [decode, hfields]

instance : LosslessForm Deployment where
  decode_encode d := by
    have hfields : (encode d).record
        ["name", "bit", "start_time", "timeout", "period", "threshold", "min_activation_height",
          "gbt_force"] =
        some [some (encode d.name), some (encode d.bit), some (encode d.startTime),
          some (encode d.timeout), some (encode d.period), some (encode d.threshold),
          some (encode d.minActivationHeight), some (encode d.ignorable)] :=
      Json.record_fields (by simp) _
    simp [decode, hfields]

instance : LosslessForm Override where
  decode_encode o := by
    have hfields : (encode o).record ["name", "start_time", "timeout"] =
        some [some (encode o.name), some (encode o.startTime), some (encode o.timeout)] :=
      Json.record_fields (by simp) _
    simp [decode, hfields]

instance : LosslessForm AlertSettings where
  decode_encode a := by
    have hfields : (encode a).record ["enabled", "window", "unexpected_threshold"] =
        some [some (encode a.enabled), some (encode a.window), some (encode a.limit)] :=
      Json.record_fields (by simp) _
    simp [decode, hfields]

instance : LosslessForm MemoSettings where
  decode_encode m := by
    have hfields : (encode m).record ["evict_on_reorg"] = some [some (encode m.evictOnReorg)] :=
      Json.record_fields (by simp) _
    simp [decode, hfields]

instance : LosslessForm Settings where
  decode_encode s := by
    have hfields : (encode s).record
        ["network", "clock_rule", "deployment_overrides", "warnings", "cache"] =
        some [some (encode s.network), some (encode s.clock), some (encode s.overrides),
          some (encode s.alerts), some (encode s.memos)] :=
      Json.record_fields (by simp) _
    simp [decode, hfields]

instance : LosslessForm UnknownRule where
  decode_encode r := by
    have hfields : (encode r).record ["bit", "state"] =
        some [some (encode r.bit), some (encode r.phase)] :=
      Json.record_fields (by simp) _
    simp [decode, hfields]

instance : LosslessForm Template where
  decode_encode t := by
    have hfields : (encode t).record ["version", "rules", "vbavailable", "vbrequired"] =
        some [some (encode t.version), some (encode t.rules), some (encode t.available),
          some (encode t.required)] :=
      Json.record_fields (by simp) _
    simp [decode, hfields]

end LosslessForm

/-! ## Records whose numbers have to fit -/

/-- The numbers of a tally fit their fields. -/
structure Tally.Fits (t : Tally) : Prop where
  periodIndex : t.periodIndex ≤ Json.limit64
  period : t.period ≤ Json.limit32
  threshold : t.threshold ≤ Json.limit32
  elapsed : t.elapsed ≤ Json.limit32
  count : t.count ≤ Json.limit32

/-- The numbers of a status fit their fields, those of its tally included. -/
structure Status.Fits (s : Status) : Prop where
  since : s.since ≤ Json.limit64
  tally : ∀ t, s.tally = some t → t.Fits

/-- The number of warnings fits its field. -/
structure Alerts.Fits (a : Alerts) : Prop where
  unexpected : a.unexpected ≤ Json.limit32

theorem Tally.Fits.decode_encode {t : Tally} (h : t.Fits) : decode (encode t) = some t := by
  have hfields : (encode t).record
      ["period_index", "period", "threshold", "elapsed", "count", "possible"] =
      some [some (.nat t.periodIndex), some (.nat t.period), some (.nat t.threshold),
        some (.nat t.elapsed), some (.nat t.count), some (encode t.possible)] :=
    Json.record_fields (by simp [Tally.formFields]) _
  simp [decode, hfields, Json.requiredNat_nat h.periodIndex, Json.requiredNat_nat h.period,
    Json.requiredNat_nat h.threshold, Json.requiredNat_nat h.elapsed, Json.requiredNat_nat h.count]

theorem Tally.Fits.of_decode {v : Json} {t : Tally} (h : decode v = some t) : t.Fits := by
  simp only [decode, Option.bind_eq_bind, Option.bind_eq_some_iff] at h
  obtain ⟨fields, -, h⟩ := h
  split at h
  · simp only [Option.bind_eq_some_iff] at h
    obtain ⟨periodIndex, hindex, period, hperiod, threshold, hthreshold, elapsed, helapsed,
      count, hcount, possible, -, h⟩ := h
    obtain rfl := Option.some.inj h
    exact ⟨Json.le_of_requiredNat hindex, Json.le_of_requiredNat hperiod,
      Json.le_of_requiredNat hthreshold, Json.le_of_requiredNat helapsed,
      Json.le_of_requiredNat hcount⟩
  · exact absurd h (by simp)

/-- A status without a tally has one field less. -/
theorem Status.record_encode (s : Status) : (encode s).record
    ["status", "bit", "start_time", "timeout", "since", "statistics"] =
      some [some (encode s.phase), some (encode s.bit), some (encode s.startTime),
        some (encode s.timeout), some (.nat s.since), s.tally.map encode] := by
  obtain ⟨phase, bit, startTime, timeout, since, tally⟩ := s
  cases tally with
  | none => exact Json.record_fields (by simp [Status.formFields]) _
  | some t => exact Json.record_fields (by simp [Status.formFields]) _

theorem Status.Fits.decode_encode {s : Status} (h : s.Fits) : decode (encode s) = some s := by
  have htally : Json.optional (s.tally.map encode) = some s.tally := by
    cases heq : s.tally with
    | none => rfl
    | some t => exact congrArg (Option.map some) (h.tally t heq).decode_encode
  simp [decode, s.record_encode, Json.requiredNat_nat h.since, htally]

theorem Status.Fits.of_decode {v : Json} {s : Status} (h : decode v = some s) : s.Fits := by
  simp only [decode, Option.bind_eq_bind, Option.bind_eq_some_iff] at h
  obtain ⟨fields, -, h⟩ := h
  split at h
  · simp only [Option.bind_eq_some_iff] at h
    obtain ⟨phase, -, bit, -, startTime, -, timeout, -, since, hsince, tally, htally, h⟩ := h
    obtain rfl := Option.some.inj h
    refine ⟨Json.le_of_requiredNat hsince, fun t ht => ?_⟩
    rw [show tally = some t from ht] at htally
    obtain ⟨w, -, hw⟩ := Json.exists_of_optional htally
    exact Tally.Fits.of_decode hw
  · exact absurd h (by simp)

theorem Alerts.Fits.decode_encode {a : Alerts} (h : a.Fits) : decode (encode a) = some a := by
  have hfields : (encode a).record
      ["unknown_rules", "unexpected_versions", "unexpected_version_warning"] =
      some [some (encode a.unknownRules), some (.nat a.unexpected),
        some (encode a.manyUnexpected)] :=
    Json.record_fields (by simp [Alerts.formFields]) _
  simp [decode, hfields, Json.requiredNat_nat h.unexpected]

theorem Alerts.Fits.of_decode {v : Json} {a : Alerts} (h : decode v = some a) : a.Fits := by
  simp only [decode, Option.bind_eq_bind, Option.bind_eq_some_iff] at h
  obtain ⟨fields, -, h⟩ := h
  split at h
  · simp only [Option.bind_eq_some_iff] at h
    obtain ⟨unknownRules, -, unexpected, hunexpected, manyUnexpected, -, h⟩ := h
    obtain rfl := Option.some.inj h
    exact ⟨Json.le_of_requiredNat hunexpected⟩
  · exact absurd h (by simp)

namespace Form

variable {α : Type} [Form α]

/-! ## Through text -/

/-- The texts of a type can be relied on, for the values in its domain. -/
structure RoundTrips (fits : α → Prop) : Prop where
  /-- What is written is the text of the value's form. -/
  spells : ∀ a : α, Json.read (write a).toList = some (encode a)
  /-- What is written is read as what it was. -/
  reads : ∀ a, fits a → read (write a) = some a
  /-- What is read from any text is in the domain, and from then on it is read as itself. -/
  settles : ∀ (s : String) (a : α), read s = some a → fits a ∧ read (write a) = some a

theorem read_write_eq (a : α) : Json.read (write a).toList = some (encode a) := by
  rw [write, String.toList_ofList, Json.read_write]

/-- Texts can be relied on where the reader undoes the writer and finds nothing else. -/
theorem RoundTrips.of_decode_encode {fits : α → Prop}
    (hencode : ∀ a, fits a → decode (encode a) = some a)
    (hdecode : ∀ v a, decode v = some a → fits a) : RoundTrips fits := by
  have hreads : ∀ a, fits a → read (write a) = some a := by
    intro a ha
    rw [read, read_write_eq, Option.bind_some, hencode a ha]
  refine ⟨read_write_eq, hreads, fun s a hread => ?_⟩
  obtain ⟨v, -, hv⟩ := Option.bind_eq_some_iff.mp hread
  exact ⟨hdecode v a hv, hreads a (hdecode v a hv)⟩

/-- The domain of a type all of whose values can be written. -/
abbrev Every (α : Type) : α → Prop :=
  fun _ => True

theorem RoundTrips.of_lossless (α : Type) [Form α] [LosslessForm α] : RoundTrips (Every α) :=
  .of_decode_encode (fun a _ => LosslessForm.decode_encode a) fun _ _ _ => trivial

/-- Everything that is shown or stored as JSON can be read again: settings with all that is
in them, deployments and what is reported about them, what a client needs to build a block,
warnings, headers, and the choices by name. -/
theorem every_form_round_trips :
    RoundTrips (Every Settings) ∧ RoundTrips (Every AlertSettings) ∧
      RoundTrips (Every MemoSettings) ∧ RoundTrips (Every Deployment) ∧
      RoundTrips (Every Override) ∧ RoundTrips (Every Params) ∧ RoundTrips Tally.Fits ∧
      RoundTrips Status.Fits ∧ RoundTrips (Every Template) ∧ RoundTrips (Every UnknownRule) ∧
      RoundTrips Alerts.Fits ∧ RoundTrips (Every Header) ∧ RoundTrips (Every BlockHash) ∧
      RoundTrips (Every Network) ∧ RoundTrips (Every Clock) ∧ RoundTrips (Every Phase) := by
  have htally : RoundTrips Tally.Fits :=
    .of_decode_encode (fun _ h => h.decode_encode) fun _ _ h => .of_decode h
  have hstatus : RoundTrips Status.Fits :=
    .of_decode_encode (fun _ h => h.decode_encode) fun _ _ h => .of_decode h
  have halerts : RoundTrips Alerts.Fits :=
    .of_decode_encode (fun _ h => h.decode_encode) fun _ _ h => .of_decode h
  exact ⟨.of_lossless Settings, .of_lossless AlertSettings, .of_lossless MemoSettings,
    .of_lossless Deployment, .of_lossless Override, .of_lossless Params, htally, hstatus,
    .of_lossless Template, .of_lossless UnknownRule, halerts, .of_lossless Header,
    .of_lossless BlockHash, .of_lossless Network, .of_lossless Clock, .of_lossless Phase⟩

end Form
end SoftFork
