import SoftFork.Proofs.Form.Edit
import SoftFork.Proofs.Form.RoundTrip

/-!
# Fields that have been left out

Settings, deployments and statuses can be read with fields missing.  This module says which
fields those are, at every level (`Settings.schema` and its kin), and what is read when some of
them have been struck out: the value as it was written, with exactly these fields at their
defaults (`Settings.left` and its kin).

A default has two sources.  A section of the settings that is missing as a whole is the default
section, and in a section that is there each field has a default of its own.  That the two agree
is in the definitions of `left`: the default of a field is what the default value has there.

The rest of the statement is about what must not happen.  Fields with names that an object does
not declare change nothing, whatever they hold.  And a field that has to be there and is not, or
that is `null` without leave, makes the whole text unreadable: it is never taken for one that has
been left out (`omitted_fields_take_defaults`).
-/

namespace SoftFork

open Form (encode decode)
open Json (Edit Schema Step PlainForm Heeds YieldsUnless)

/-! ## Plain fields -/

instance : PlainForm Bool where
  isScalar _ := trivial
  decode_null := rfl

instance : PlainForm String where
  isScalar _ := trivial
  decode_null := rfl

instance : PlainForm UInt8 where
  isScalar _ := trivial
  decode_null := rfl

instance : PlainForm UInt32 where
  isScalar _ := trivial
  decode_null := rfl

instance : PlainForm UInt64 where
  isScalar _ := trivial
  decode_null := rfl

instance : PlainForm Network where
  isScalar _ := trivial
  decode_null := rfl

instance : PlainForm Clock where
  isScalar _ := trivial
  decode_null := rfl

instance : PlainForm Phase where
  isScalar _ := trivial
  decode_null := rfl

/-! ## Settings -/

/-- The fields of an override.  None of them has a default. -/
def Override.schema : Schema :=
  .record [("name", .required, .plain), ("start_time", .required, .plain),
    ("timeout", .required, .plain)]

def AlertSettings.schema : Schema :=
  .record [("enabled", .optional, .plain), ("window", .optional, .plain),
    ("unexpected_threshold", .optional, .plain)]

def MemoSettings.schema : Schema :=
  .record [("evict_on_reorg", .optional, .plain)]

def Settings.schema : Schema :=
  .record [("network", .optional, .plain), ("clock_rule", .optional, .plain),
    ("deployment_overrides", .optional, .each Override.schema),
    ("warnings", .optional, AlertSettings.schema), ("cache", .optional, MemoSettings.schema)]

/-- The settings that are left by an edit. -/
def AlertSettings.left (e : Edit) (a : AlertSettings) : AlertSettings :=
  let usual : AlertSettings := {}
  { enabled := e.orDefault "enabled" usual.enabled a.enabled
    window := e.orDefault "window" usual.window a.window
    limit := e.orDefault "unexpected_threshold" usual.limit a.limit }

@[inherit_doc AlertSettings.left]
def MemoSettings.left (e : Edit) (m : MemoSettings) : MemoSettings :=
  let usual : MemoSettings := {}
  { evictOnReorg := e.orDefault "evict_on_reorg" usual.evictOnReorg m.evictOnReorg }

@[inherit_doc AlertSettings.left]
def Settings.left (e : Edit) (s : Settings) : Settings :=
  let usual : Settings := {}
  { network := e.orDefault "network" usual.network s.network
    clock := e.orDefault "clock_rule" usual.clock s.clock
    overrides := e.orDefault "deployment_overrides" usual.overrides s.overrides
    alerts := e.orDefault "warnings" usual.alerts (s.alerts.left (e.into (.field "warnings")))
    memos := e.orDefault "cache" usual.memos (s.memos.left (e.into (.field "cache"))) }

theorem Override.heeds (o : Override) : Heeds schema (fun _ o => o) o where
  decode_null := rfl
  decode_apply e h := by
    have hfields : (e.apply (encode o)).record ["name", "start_time", "timeout"] =
        some [e.field "name" (encode o.name), e.field "start_time" (encode o.startTime),
          e.field "timeout" (encode o.timeout)] :=
      h.record_apply (by simp)
    simp only [decode, hfields, Option.bind_eq_bind, Option.bind_some]
    refine .congr ?_ (Edit.spoils_record (by simp))
    refine .cons ((Heeds.plain o.name).required (h.into _)) ?_
    refine .cons ((Heeds.plain o.startTime).required (h.into _)) ?_
    refine .cons ((Heeds.plain o.timeout).required (h.into _)) ?_
    exact .nil o

theorem AlertSettings.heeds (a : AlertSettings) : Heeds schema left a where
  decode_null := rfl
  decode_apply e h := by
    have hfields : (e.apply (encode a)).record ["enabled", "window", "unexpected_threshold"] =
        some [e.field "enabled" (encode a.enabled), e.field "window" (encode a.window),
          e.field "unexpected_threshold" (encode a.limit)] :=
      h.record_apply (by simp)
    simp only [decode, hfields, Option.bind_eq_bind, Option.bind_some]
    refine .congr ?_ (Edit.spoils_record (by simp))
    refine .cons ((Heeds.plain a.enabled).orElse (h.into _) _) ?_
    refine .cons ((Heeds.plain a.window).orElse (h.into _) _) ?_
    refine .cons ((Heeds.plain a.limit).orElse (h.into _) _) ?_
    exact .nil _

theorem MemoSettings.heeds (m : MemoSettings) : Heeds schema left m where
  decode_null := rfl
  decode_apply e h := by
    have hfields : (e.apply (encode m)).record ["evict_on_reorg"] =
        some [e.field "evict_on_reorg" (encode m.evictOnReorg)] :=
      h.record_apply (by simp)
    simp only [decode, hfields, Option.bind_eq_bind, Option.bind_some]
    refine .congr ?_ (Edit.spoils_record (by simp))
    refine .cons ((Heeds.plain m.evictOnReorg).orElse (h.into _) _) ?_
    exact .nil _

theorem Settings.heeds (s : Settings) : Heeds schema left s where
  decode_null := rfl
  decode_apply e h := by
    have hfields : (e.apply (encode s)).record
        ["network", "clock_rule", "deployment_overrides", "warnings", "cache"] =
        some [e.field "network" (encode s.network), e.field "clock_rule" (encode s.clock),
          e.field "deployment_overrides" (encode s.overrides),
          e.field "warnings" (encode s.alerts), e.field "cache" (encode s.memos)] :=
      h.record_apply (by simp)
    simp only [decode, hfields, Option.bind_eq_bind, Option.bind_some]
    refine .congr ?_ (Edit.spoils_record (by simp))
    refine .cons ((Heeds.plain s.network).orElse (h.into _) _) ?_
    refine .cons ((Heeds.plain s.clock).orElse (h.into _) _) ?_
    refine .cons ((Heeds.list fun o _ => o.heeds).orElse (h.into _) _) ?_
    refine .cons (s.alerts.heeds.orElse (h.into _) _) ?_
    refine .cons (s.memos.heeds.orElse (h.into _) _) ?_
    exact .nil _

/-! ## Deployments -/

def Deployment.schema : Schema :=
  .record [("name", .required, .plain), ("bit", .required, .plain),
    ("start_time", .required, .plain), ("timeout", .required, .plain),
    ("period", .required, .plain), ("threshold", .required, .plain),
    ("min_activation_height", .optional, .plain), ("gbt_force", .optional, .plain)]

/-- The deployment that is left by an edit: in force at any height, and for clients to ignore,
unless it says otherwise. -/
def Deployment.left (e : Edit) (d : Deployment) : Deployment :=
  { d with
    minActivationHeight := e.orDefault "min_activation_height" 0 d.minActivationHeight
    ignorable := e.orDefault "gbt_force" true d.ignorable }

theorem Deployment.heeds (d : Deployment) : Heeds schema left d where
  decode_null := rfl
  decode_apply e h := by
    have hfields : (e.apply (encode d)).record
        ["name", "bit", "start_time", "timeout", "period", "threshold", "min_activation_height",
          "gbt_force"] =
        some [e.field "name" (encode d.name), e.field "bit" (encode d.bit),
          e.field "start_time" (encode d.startTime), e.field "timeout" (encode d.timeout),
          e.field "period" (encode d.period), e.field "threshold" (encode d.threshold),
          e.field "min_activation_height" (encode d.minActivationHeight),
          e.field "gbt_force" (encode d.ignorable)] :=
      h.record_apply (by simp)
    simp only [decode, hfields, Option.bind_eq_bind, Option.bind_some]
    refine .congr ?_ (Edit.spoils_record (by simp))
    refine .cons ((Heeds.plain d.name).required (h.into _)) ?_
    refine .cons ((Heeds.plain d.bit).required (h.into _)) ?_
    refine .cons ((Heeds.plain d.startTime).required (h.into _)) ?_
    refine .cons ((Heeds.plain d.timeout).required (h.into _)) ?_
    refine .cons ((Heeds.plain d.period).required (h.into _)) ?_
    refine .cons ((Heeds.plain d.threshold).required (h.into _)) ?_
    refine .cons ((Heeds.plain d.minActivationHeight).orElse (h.into _) _) ?_
    refine .cons ((Heeds.plain d.ignorable).orElse (h.into _) _) ?_
    exact .nil _

/-! ## Statuses -/

/-- The fields of a tally.  None of them has a default. -/
def Tally.schema : Schema :=
  .record [("period_index", .required, .plain), ("period", .required, .plain),
    ("threshold", .required, .plain), ("elapsed", .required, .plain),
    ("count", .required, .plain), ("possible", .required, .plain)]

def Status.schema : Schema :=
  .record [("status", .required, .plain), ("bit", .required, .plain),
    ("start_time", .required, .plain), ("timeout", .required, .plain),
    ("since", .required, .plain), ("statistics", .nullable, Tally.schema)]

/-- The status that is left by an edit: without its tally, unless the tally is kept. -/
def Status.left (e : Edit) (s : Status) : Status :=
  { s with tally := e.orDefault "statistics" none s.tally }

theorem Tally.Fits.heeds {t : Tally} (hfits : t.Fits) : Heeds schema (fun _ t => t) t where
  decode_null := rfl
  decode_apply e h := by
    have hfields : (e.apply (encode t)).record
        ["period_index", "period", "threshold", "elapsed", "count", "possible"] =
        some [e.field "period_index" (.nat t.periodIndex), e.field "period" (.nat t.period),
          e.field "threshold" (.nat t.threshold), e.field "elapsed" (.nat t.elapsed),
          e.field "count" (.nat t.count), e.field "possible" (encode t.possible)] :=
      h.record_apply (by simp [formFields])
    simp only [decode, hfields, Option.bind_eq_bind, Option.bind_some]
    refine .congr ?_ (Edit.spoils_record (by simp [formFields]))
    refine .cons (Edit.yields_requiredNat hfits.periodIndex) ?_
    refine .cons (Edit.yields_requiredNat hfits.period) ?_
    refine .cons (Edit.yields_requiredNat hfits.threshold) ?_
    refine .cons (Edit.yields_requiredNat hfits.elapsed) ?_
    refine .cons (Edit.yields_requiredNat hfits.count) ?_
    refine .cons ((Heeds.plain t.possible).required (h.into _)) ?_
    exact .nil t

theorem Status.nodup_formFields (s : Status) (tally : Tally → Json) :
    ((s.formFields tally).map Prod.fst).Nodup := by
  rw [formFields]
  cases s.tally <;> simp

theorem Status.lookup_statistics (s : Status) (tally : Tally → Json) :
    (s.formFields tally).lookup "statistics" = s.tally.map tally := by
  rw [formFields]
  cases s.tally <;> rfl

theorem Status.Fits.heeds {s : Status} (hfits : s.Fits) : Heeds schema left s where
  decode_null := rfl
  decode_apply e h := by
    have hfields : (e.apply (encode s)).record
        ["status", "bit", "start_time", "timeout", "since", "statistics"] =
        some [e.field "status" (encode s.phase), e.field "bit" (encode s.bit),
          e.field "start_time" (encode s.startTime), e.field "timeout" (encode s.timeout),
          e.field "since" (.nat s.since),
          ((s.formFields encode).lookup "statistics").bind (e.field "statistics")] :=
      h.record_apply (s.nodup_formFields encode)
    simp only [decode, hfields, Option.bind_eq_bind, Option.bind_some]
    refine .congr ?_ (Edit.spoils_record (s.nodup_formFields encode))
    have htally := Heeds.optional (fun t ht => (hfits.tally t ht).heeds)
      (h.into (.field "statistics")) fun t => Edit.apply_fields_ne_null t.formFields
    rw [Option.map_id_fun', ← s.lookup_statistics encode] at htally
    refine .cons ((Heeds.plain s.phase).required (h.into _)) ?_
    refine .cons ((Heeds.plain s.bit).required (h.into _)) ?_
    refine .cons ((Heeds.plain s.startTime).required (h.into _)) ?_
    refine .cons ((Heeds.plain s.timeout).required (h.into _)) ?_
    refine .cons (Edit.yields_requiredNat hfits.since) ?_
    refine .cons htally ?_
    exact .nil _

namespace Form

/-! ## Through text -/

/-- The texts of a type may be edited, for the values in its domain.  Any text will do that spells
the written value after the edit. -/
structure TakesDefaults {α : Type} [Form α] (schema : Schema) (fits : α → Prop)
    (left : Edit → α → α) : Prop where
  /-- Fields that have been left out are read as their defaults, and the others as written. -/
  gives : ∀ (a : α) (e : Edit) (text : String), fits a → e.AddsUnknown schema →
    Json.read text.toList = some (e.apply (encode a)) → ¬ e.Spoils schema (encode a) →
    read text = some (left e a)
  /-- Without a required field, or with `null` for a value, nothing is read. -/
  refuses : ∀ (a : α) (e : Edit) (text : String), fits a → e.AddsUnknown schema →
    Json.read text.toList = some (e.apply (encode a)) → e.Spoils schema (encode a) →
    (read text : Option α) = none

theorem TakesDefaults.of_heeds {α : Type} [Form α] {schema : Schema} {fits : α → Prop}
    {left : Edit → α → α} (h : ∀ a, fits a → Heeds schema left a) :
    TakesDefaults schema fits left where
  gives a e text hfits hunknown htext hspoils := by
    rw [read, htext, Option.bind_some]
    exact ((h a hfits).decode_apply e hunknown).given hspoils
  refuses a e text hfits hunknown htext hspoils := by
    rw [read, htext, Option.bind_some]
    exact ((h a hfits).decode_apply e hunknown).refused hspoils

/-- Settings, deployments and statuses may be written with fields left out, in all their parts,
and with fields that nobody knows.  What is read then is the value with exactly the omitted fields
at their defaults.  Where a required field is left out, or any field but the tally is `null`,
nothing is read. -/
theorem omitted_fields_take_defaults :
    TakesDefaults Settings.schema (Every Settings) Settings.left ∧
      TakesDefaults Deployment.schema (Every Deployment) Deployment.left ∧
      TakesDefaults Status.schema Status.Fits Status.left :=
  ⟨.of_heeds fun s _ => s.heeds, .of_heeds fun d _ => d.heeds, .of_heeds fun _ h => h.heeds⟩

/-- The edit that strikes out the listed fields and puts a note at the end of the listed objects. -/
def strike (struck : List (List Step × String)) (noted : List (List Step)) : Edit where
  fate place name := if (place, name) ∈ struck then .omitted else .kept
  added place next := if place ∈ noted ∧ next = none then [("note", .null)] else []

variable {struck : List (List Step × String)} {noted : List (List Step)} {S : Schema}

theorem addsUnknown_strike (h : ∀ place ∈ noted, "note" ∉ (S.along place).names) :
    (strike struck noted).AddsUnknown S := by
  intro place next f hf
  simp only [strike] at hf
  split at hf
  · next hnoted =>
    obtain rfl := List.mem_singleton.mp hf
    exact h place hnoted.1
  · exact absurd hf List.not_mem_nil

theorem spares_strike (h : ∀ p ∈ struck, ∀ f ∈ (S.along p.1).declared,
    f.1 = p.2 → f.2.1 ≠ .required) : (strike struck noted).Spares S := by
  intro place f hf
  simp only [strike]
  split
  · next hstruck => exact ⟨fun _ => h _ hstruck f hf rfl, fun hnulled => absurd hnulled (by simp)⟩
  · exact ⟨fun homitted => absurd homitted (by simp), fun hnulled => absurd hnulled (by simp)⟩

/-- Settings none of which is the default. -/
def unusual : Settings where
  network := .regtest
  clock := .blockTime
  overrides := [⟨"csv", 1, 2⟩]
  alerts := ⟨false, 7, 9⟩
  memos := ⟨true⟩

/-- The place of the first override in settings. -/
def firstOverride : List Step :=
  [.field "deployment_overrides", .item 0]

/-- The settings without their network and without the window of their warnings, and with notes.
And the settings with an override that has lost its name. -/
theorem omitted_fields_unusual :
    read (String.ofList (Json.write ((strike [([], "network"), ([.field "warnings"], "window")]
        [[], firstOverride]).apply (encode unusual)))) =
      some (⟨.mainnet, .blockTime, [⟨"csv", 1, 2⟩], ⟨false, 100, 9⟩, ⟨true⟩⟩ : Settings) ∧
    read (String.ofList (Json.write ((strike [(firstOverride, "name")] []).apply
        (encode unusual)))) = (none : Option Settings) := by
  have hspells : ∀ v, Json.read (String.ofList (Json.write v)).toList = some v := by
    intro v
    rw [String.toList_ofList, Json.read_write]
  constructor
  · refine (omitted_fields_take_defaults.1.gives unusual _ _ trivial ?_ (hspells _) ?_).trans ?_
    · exact addsUnknown_strike (by decide)
    · exact (spares_strike (by decide)).not_spoils
    · decide
  · refine omitted_fields_take_defaults.1.refuses unusual _ _ trivial
      (addsUnknown_strike (by decide)) (hspells _) ?_
    refine .within (f := ("deployment_overrides", .optional, .each Override.schema))
      (v := encode unusual.overrides) (.tail _ (.tail _ (.head _))) (.tail _ (.tail _ (.head _)))
      (by decide) ?_
    have hitem : (unusual.overrides.map encode)[0]? = some (encode (unusual.overrides[0])) := rfl
    refine .item hitem ?_
    exact .missing (f := ("name", .required, .plain)) (.head _) (.head _) (by decide) rfl

end Form
end SoftFork
