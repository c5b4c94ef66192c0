import SoftFork.Proofs.Rule.Admission

/-!
# Which deployment is refused

A registry is put together or refused as a whole.  What is asked of it can be read off the fields
(`Registry.build_decides`): the network's numbers and those of every deployment make sense, names
differ, and no time lies in the ranges of two deployments with the same bit.

The test for the last point compares ends of ranges and looks at no time.  It is right because
every deployment has been found sound by itself before it is compared with others.  Ranges that
are not empty meet when each starts before the other ends, and then the later of the two starts
lies in both (`Deployment.overlaps_iff`).

When only the deployments are at fault the refusal belongs to one of them.  Those before it make
up a valid registry, and so does any smaller number of them, but they do not with the one that is
refused.  What is said against it is an `Objection`: it is unsound itself, or, if it is not, the
first of those before it that it does not go with has its name or shares its bit.
-/

namespace SoftFork

/-! ## Times -/

namespace Deployment

/-- A time lies in the range of a deployment. -/
def RunsAt (d : Deployment) (time : UInt64) : Prop :=
  d.startTime ≤ time ∧ time < d.timeout

/-- Ranges that are not empty meet when a time lies in both. -/
theorem overlaps_iff {d e : Deployment} (hd : d.Sound) (he : e.Sound) :
    d.overlaps e = true ↔ ∃ time, d.RunsAt time ∧ e.RunsAt time := by
  rw [overlaps, Bool.and_eq_true, decide_eq_true_eq, decide_eq_true_eq]
  constructor
  · rintro ⟨hde, hed⟩
    -- the later of the two starts lies in both ranges
    rcases UInt64.le_total d.startTime e.startTime with hle | hle
    · exact ⟨e.startTime, ⟨hle, hed⟩, UInt64.le_refl _,
        UInt64.lt_iff_toNat_lt.mpr he.start_lt_timeout⟩
    · exact ⟨d.startTime, ⟨UInt64.le_refl _, UInt64.lt_iff_toNat_lt.mpr hd.start_lt_timeout⟩,
        hle, hde⟩
  · rintro ⟨time, ⟨hd, hd'⟩, he, he'⟩
    exact ⟨UInt64.lt_of_le_of_lt hd he', UInt64.lt_of_le_of_lt he hd'⟩

/-! ## One deployment -/

/-- A deployment has a flaw. -/
def Has (d : Deployment) : Flaw → Prop
  | .emptyName => d.name = ""
  | .bitOutOfRange => 28 < d.bit
  | .emptyPeriod => d.period = 0
  | .thresholdOutOfRange => d.threshold = 0 ∨ d.period < d.threshold
  | .endsBeforeStart => d.timeout ≤ d.startTime

/-- The flaw that is found is one that the deployment has. -/
theorem has_of_flaw?_eq_some {d : Deployment} {flaw : Flaw} (h : d.flaw? = some flaw) :
    d.Has flaw := by
  rw [flaw?] at h
  split at h
  · next hname =>
    obtain rfl := Option.some.inj h
    exact String.isEmpty_iff.mp hname
  · split at h
    · next hbit =>
      obtain rfl := Option.some.inj h
      exact UInt8.lt_iff_toNat_lt.mpr hbit
    · split at h
      · next hperiod =>
        obtain rfl := Option.some.inj h
        exact hperiod
      · split at h
        · next hthreshold =>
          obtain rfl := Option.some.inj h
          exact hthreshold
        · split at h
          · next htimes =>
            obtain rfl := Option.some.inj h
            exact htimes
          · exact absurd h (by simp)

/-- The soundness of a deployment in terms of its fields. -/
theorem sound_iff {d : Deployment} : d.Sound ↔ d.name ≠ "" ∧ d.bit ≤ 28 ∧
    (1 ≤ d.threshold ∧ d.threshold ≤ d.period) ∧ d.startTime < d.timeout := by
  rw [UInt8.le_iff_toNat_le, UInt32.le_iff_toNat_le, UInt32.le_iff_toNat_le,
    UInt64.lt_iff_toNat_lt]
  constructor
  · intro h
    refine ⟨fun hname => ?_, Nat.le_of_lt_succ h.bit_lt, ⟨h.threshold_pos, h.threshold_le⟩,
      h.start_lt_timeout⟩
    have hempty := h.name_ne
    rw [hname] at hempty
    exact absurd hempty (by decide)
  · rintro ⟨hname, hbit, ⟨hpos, hle⟩, htimes⟩
    exact {
      name_ne := Bool.eq_false_iff.mpr fun h => hname (String.isEmpty_iff.mp h)
      bit_lt := Nat.lt_succ_of_le hbit
      period_pos := Nat.lt_of_lt_of_le hpos hle
      threshold_pos := hpos
      threshold_le := hle
      start_lt_timeout := htimes }

end Deployment

theorem Params.isUsable_iff {p : Params} :
    p.isUsable = true ↔ 1 ≤ p.threshold ∧ p.threshold ≤ p.period := by
  rw [isUsable, Bool.and_eq_true, Bool.and_eq_true, bne_iff_ne, bne_iff_ne, decide_eq_true_eq,
    Ne, Ne, ← UInt32.toNat_inj, ← UInt32.toNat_inj, UInt32.le_iff_toNat_le,
    UInt32.le_iff_toNat_le, UInt32.toNat_zero, UInt32.toNat_one]
  omega

namespace Registry

/-! ## What is said against a deployment -/

/-- What is said against a deployment that comes after some others. -/
inductive Objection (earlier : List Deployment) (d : Deployment) : Fault → Prop where
  /-- It is unusable by itself. -/
  | flaw {flaw : Flaw} (h : d.Has flaw) :
    Objection earlier d (.invalidDeployment d.name flaw)
  /-- One of the others has its name, and it goes with all before that. -/
  | name {before after : List Deployment} {e : Deployment} (hsplit : earlier = before ++ e :: after)
    (hd : d.Sound) (hbefore : ∀ e' ∈ before, Compatible e' d) (hname : e.name = d.name) :
    Objection earlier d (.duplicateDeployment d.name)
  /-- One of the others has its bit for a time at which both run, and it goes with all before
  that. -/
  | bit {before after : List Deployment} {e : Deployment} {time : UInt64}
    (hsplit : earlier = before ++ e :: after) (hd : d.Sound)
    (hbefore : ∀ e' ∈ before, Compatible e' d) (hname : e.name ≠ d.name) (hbit : e.bit = d.bit)
    (he : e.RunsAt time) (hd' : d.RunsAt time) :
    Objection earlier d (.bitCollision e.name d.name d.bit)

/-- A refusal behind deployments that are sound is an objection. -/
theorem objection_of_refusal? {earlier : List Deployment} {d : Deployment} {fault : Fault}
    (hearlier : ∀ e ∈ earlier, e.Sound) (h : refusal? earlier d = some fault) :
    Objection earlier d fault := by
  rw [refusal?] at h
  cases hflaw : d.flaw? with
  | some flaw =>
    simp only [hflaw] at h
    obtain rfl := Option.some.inj h
    exact .flaw (Deployment.has_of_flaw?_eq_some hflaw)
  | none =>
    simp only [hflaw] at h
    have hd := Deployment.flaw?_eq_none_iff.mp hflaw
    obtain ⟨before, e, after, rfl, he, hnone⟩ := List.findSome?_eq_some_iff.mp h
    have hbefore : ∀ e' ∈ before, Compatible e' d :=
      fun e' he' => conflict?_eq_none_iff.mp (hnone e' he')
    rw [conflict?] at he
    split at he
    · next hname =>
      obtain rfl := Option.some.inj he
      exact .name rfl hd hbefore hname
    · next hname =>
      split at he
      · next hmeet =>
        obtain ⟨hbit, hoverlaps⟩ := hmeet
        obtain rfl := Option.some.inj he
        have hsound := hearlier e (List.mem_append_right _ List.mem_cons_self)
        obtain ⟨time, htime, htime'⟩ := (Deployment.overlaps_iff hsound hd).mp hoverlaps
        exact .bit rfl hd hbefore hname hbit htime htime'
      · exact absurd he (by simp)

/-! ## One after the other -/

/-- Deployments are admitted, or the refusal is that of the first one that is not. -/
theorem enroll_cases (deployments : List Deployment) : ∀ earlier : List Deployment,
    enroll earlier deployments = .ok () ∨
      ∃ before d after fault, deployments = before ++ d :: after ∧
        enroll earlier before = .ok () ∧ refusal? (earlier ++ before) d = some fault ∧
        ∀ rest, enroll earlier (before ++ d :: rest) = .error fault := by
  induction deployments with
  | nil => exact fun _ => Or.inl rfl
  | cons d rest ih =>
    intro earlier
    cases hrefusal : refusal? earlier d with
    | some fault =>
      refine Or.inr ⟨[], d, rest, fault, rfl, rfl, by rwa [List.append_nil], fun rest' => ?_⟩
      rw [List.nil_append, enroll, hrefusal]
    | none =>
      have hcons : ∀ l, enroll earlier (d :: l) = enroll (earlier ++ [d]) l := by
        intro l
        rw [enroll, hrefusal]
      rw [hcons]
      refine (ih (earlier ++ [d])).imp_right ?_
      rintro ⟨before, d', after, fault, rfl, hbefore, hd', hrest⟩
      refine ⟨d :: before, d', after, fault, rfl, by rwa [hcons], ?_, fun rest' => ?_⟩
      · rwa [List.append_assoc] at hd'
      · rw [List.cons_append, hcons]
        exact hrest rest'

variable {params : Params} {deployments : List Deployment}

theorem Valid.shorten (h : Valid ⟨params, deployments⟩) {shorter : List Deployment}
    (hshorter : shorter <+: deployments) : Valid ⟨params, shorter⟩ where
  usable := h.usable
  sound d hd := h.sound d (hshorter.subset hd)
  compatible := h.compatible.sublist hshorter.sublist

/-- What is asked of a registry, in terms of the fields. -/
theorem valid_iff : Valid ⟨params, deployments⟩ ↔
    (1 ≤ params.threshold ∧ params.threshold ≤ params.period) ∧
    (∀ d ∈ deployments, d.name ≠ "" ∧ d.bit ≤ 28 ∧
      (1 ≤ d.threshold ∧ d.threshold ≤ d.period) ∧ d.startTime < d.timeout) ∧
    (deployments.Pairwise fun d e => d.name ≠ e.name) ∧
    deployments.Pairwise fun d e => d.bit = e.bit → ¬ ∃ time, d.RunsAt time ∧ e.RunsAt time := by
  have hcompatible : (∀ d ∈ deployments, d.Sound) → (deployments.Pairwise Compatible ↔
      (deployments.Pairwise fun d e => d.name ≠ e.name) ∧ deployments.Pairwise
        fun d e => d.bit = e.bit → ¬ ∃ time, d.RunsAt time ∧ e.RunsAt time) := by
    intro hsound
    rw [← List.pairwise_and_iff]
    refine List.Pairwise.iff_of_mem fun {d e} hd he => ?_
    rw [← Deployment.overlaps_iff (hsound d hd) (hsound e he), Bool.not_eq_true]
    exact ⟨fun h => ⟨h.name_ne, h.apart⟩, fun h => ⟨h.1, h.2⟩⟩
  simp only [← Deployment.sound_iff, ← Params.isUsable_iff]
  constructor
  · exact fun h => ⟨h.usable, h.sound, (hcompatible h.sound).mp h.compatible⟩
  · exact fun ⟨husable, hsound, hpairs⟩ => ⟨husable, hsound, (hcompatible hsound).mpr hpairs⟩

theorem build_of_not_usable (h : ¬ params.isUsable = true) :
    build params deployments = .error (.misconfigured .networkThreshold) := by
  rw [build, if_neg h]

theorem build_of_usable (h : params.isUsable = true) :
    build params deployments = enroll [] deployments >>= fun _ => .ok ⟨params, deployments⟩ := by
  rw [build, if_pos h]
  rfl

/-- With any numbers and any list of deployments.  A registry is put together exactly when the
numbers and all deployments make sense, the names differ, and no time lies in the ranges of two
deployments with the same bit; and it has the numbers and the list that were given.  When it is
not, though the network's numbers make sense, the refusal is what is said against the last one of
the fewest deployments, from the beginning of the list, that do not make up a registry. -/
theorem build_decides (params : Params) (deployments : List Deployment) :
    (∀ r, build params deployments = .ok r ↔ r = ⟨params, deployments⟩ ∧
      (1 ≤ params.threshold ∧ params.threshold ≤ params.period) ∧
      (∀ d ∈ deployments, d.name ≠ "" ∧ d.bit ≤ 28 ∧
        (1 ≤ d.threshold ∧ d.threshold ≤ d.period) ∧ d.startTime < d.timeout) ∧
      (deployments.Pairwise fun d e => d.name ≠ e.name) ∧
      deployments.Pairwise fun d e =>
        d.bit = e.bit → ¬ ∃ time, d.RunsAt time ∧ e.RunsAt time) ∧
    ∀ fault, build params deployments = .error fault →
      if 1 ≤ params.threshold ∧ params.threshold ≤ params.period then
        ∃ before d after, deployments = before ++ d :: after ∧
          (∀ shorter, shorter <+: before → build params shorter = .ok ⟨params, shorter⟩) ∧
          build params (before ++ [d]) = .error fault ∧ Objection before d fault
      else fault = .misconfigured .networkThreshold := by
  constructor
  · intro r
    rw [build_eq_ok_iff]
    refine and_congr_right fun hr => ?_
    rw [hr, valid_iff]
  · intro fault h
    by_cases husable : params.isUsable = true
    · rw [if_pos (Params.isUsable_iff.mp husable)]
      rw [build_of_usable husable] at h
      rcases enroll_cases deployments [] with hok | ⟨before, d, after, fault', hsplit, hbefore,
        hrefusal, hrest⟩
      · rw [hok] at h
        exact absurd h (by simp)
      · rw [hsplit, hrest after, error_bind] at h
        obtain rfl := Except.error.inj h
        have hbuild : build params before = .ok ⟨params, before⟩ := by
          rw [build_of_usable husable, hbefore, ok_bind]
        have hvalid := (build_eq_ok_iff.mp hbuild).2
        refine ⟨before, d, after, hsplit, fun shorter hshorter => ?_, ?_,
          objection_of_refusal? hvalid.sound hrefusal⟩
        · exact build_eq_ok_iff.mpr ⟨rfl, hvalid.shorten hshorter⟩
        · rw [build_of_usable husable, hrest [], error_bind]
    · rw [if_neg (mt Params.isUsable_iff.mpr husable)]
      rw [build_of_not_usable husable] at h
      exact (Except.error.inj h).symm

end Registry
end SoftFork
