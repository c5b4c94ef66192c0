import SoftFork.Proofs.Rule.Admission

/-!
# What overrides come to

Overrides are applied one after the other, each to the deployment that it names, and only what has
come of them all is checked.  So the deployments that are checked can be written down without an
order of steps: each has the times of the last override that names it, or its own if there is none
(`Deployment.revised`).

Names are what overrides go by, and they do not change them.  In a registry that has been made
names differ, so an override that finds a deployment finds the only one it can mean
(`setTimes_of_listed`), and one that finds none finds none at any time.  The first of those is what
the list is refused for, before anything is checked (`withOverrides_eq`).

What does not matter can be read off this form: the times in between, however wrong, the order of
overrides for different names, and how often the whole list is applied.
-/

namespace SoftFork

/-! ## The last override for a name -/

/-- Of the overrides that have a name, the last. -/
def Override.last? (overrides : List Override) (name : String) : Option Override :=
  overrides.reverse.find? fun o => o.name == name

namespace Deployment

/-- The deployment with the times of an override. -/
def withTimes (d : Deployment) (o : Override) : Deployment :=
  { d with startTime := o.startTime, timeout := o.timeout }

/-- The deployment with the times of the last override that names it. -/
def revised (overrides : List Override) (d : Deployment) : Deployment :=
  match Override.last? overrides d.name with
  | some o => d.withTimes o
  | none => d

variable {d : Deployment} {o o' : Override}

@[simp] theorem name_revised (overrides : List Override) (d : Deployment) :
    (d.revised overrides).name = d.name := by
  rw [revised]
  split <;> rfl

theorem revised_nil (d : Deployment) : d.revised [] = d := rfl

theorem revised_of_name_eq (h : d.name = o.name) : d.revised [o] = d.withTimes o := by
  have hlast : Override.last? [o] d.name = some o :=
    List.find?_cons_of_pos (beq_iff_eq.mpr h.symm)
  rw [revised, hlast]

theorem revised_of_name_ne (h : d.name ≠ o.name) : d.revised [o] = d := by
  have hlast : Override.last? [o] d.name = none :=
    List.find?_cons_of_neg (mt beq_iff_eq.mp h.symm)
  rw [revised, hlast]

/-- A list of overrides may be cut in two. -/
theorem revised_append (first second : List Override) (d : Deployment) :
    d.revised (first ++ second) = (d.revised first).revised second := by
  have happend : Override.last? (first ++ second) d.name =
      (Override.last? second d.name).or (Override.last? first d.name) := by
    rw [Override.last?, List.reverse_append, List.find?_append]
    rfl
  rw [revised, happend, revised.eq_1 second, name_revised, revised]
  cases Override.last? second d.name with
  | none => rfl
  | some o => cases Override.last? first d.name <;> rfl

/-- Overrides with different names do not get in each other's way. -/
theorem revised_swap (hne : o.name ≠ o'.name) (before after : List Override) (d : Deployment) :
    d.revised (before ++ o' :: o :: after) = d.revised (before ++ o :: o' :: after) := by
  have hpair : ∀ d : Deployment, (d.revised [o']).revised [o] = (d.revised [o]).revised [o'] := by
    intro d
    by_cases ho : d.name = o.name
    · have ho' : d.name ≠ o'.name := fun h => hne (ho.symm.trans h)
      have hafter : (d.revised [o]).name ≠ o'.name := by rwa [name_revised]
      rw [revised_of_name_ne ho', revised_of_name_ne hafter]
    · have hafter : (d.revised [o']).name ≠ o.name := by rwa [name_revised]
      rw [revised_of_name_ne hafter, revised_of_name_ne ho]
  have hsplit : ∀ a b : Override, before ++ a :: b :: after = before ++ ([a] ++ ([b] ++ after)) :=
    fun _ _ => rfl
  simp only [hsplit, revised_append, hpair]

/-- To apply a list of overrides again changes nothing. -/
theorem revised_twice (overrides : List Override) (d : Deployment) :
    (d.revised overrides).revised overrides = d.revised overrides := by
  rw [revised.eq_1 overrides (d.revised overrides), name_revised]
  split
  · next o hlast =>
    rw [revised, hlast]
    rfl
  · rfl

end Deployment

namespace Registry

/-! ## One override -/

theorem setTimes_of_unlisted {o : Override} : ∀ {deployments : List Deployment},
    (∀ d ∈ deployments, d.name ≠ o.name) →
      setTimes o deployments = .error (.unknownDeployment o.name)
  | [], _ => rfl
  | d :: rest, h => by
    obtain ⟨hd, hrest⟩ := List.forall_mem_cons.mp h
    rw [setTimes, if_neg hd, setTimes_of_unlisted hrest, error_bind]

/-- An override changes the one deployment that it names. -/
theorem setTimes_of_listed {o : Override} : ∀ {deployments : List Deployment},
    (deployments.Pairwise fun d e => d.name ≠ e.name) → (∃ d ∈ deployments, d.name = o.name) →
      setTimes o deployments = .ok (deployments.map (Deployment.revised [o]))
  | [], _, h => absurd h (by simp)
  | d :: rest, hnames, h => by
    obtain ⟨hd, hrest⟩ := List.pairwise_cons.mp hnames
    rw [setTimes, List.map_cons]
    by_cases hname : d.name = o.name
    · have hothers : ∀ e ∈ rest, Deployment.revised [o] e = e := fun e he =>
        Deployment.revised_of_name_ne fun heq => hd e he (hname.trans heq.symm)
      rw [if_pos hname, Deployment.revised_of_name_eq hname, List.map_congr_left hothers,
        List.map_id']
      rfl
    · have hlater : ∃ e ∈ rest, e.name = o.name := by
        obtain ⟨e, he, heq⟩ := h
        rcases List.mem_cons.mp he with rfl | he
        · exact absurd heq hname
        · exact ⟨e, he, heq⟩
      rw [if_neg hname, setTimes_of_listed hrest hlater, Deployment.revised_of_name_ne hname]
      rfl

/-! ## All overrides -/

/-- Whether a deployment has the name. -/
def lists (r : Registry) (name : String) : Bool :=
  r.deployments.any fun d => d.name == name

/-- The deployments with the times of the last overrides that name them. -/
def revised (r : Registry) (overrides : List Override) : Registry where
  params := r.params
  deployments := r.deployments.map (Deployment.revised overrides)

variable {r : Registry} {overrides : List Override}

theorem lists_iff {name : String} : r.lists name = true ↔ ∃ d ∈ r.deployments, d.name = name := by
  rw [lists, List.any_eq_true]
  simp only [beq_iff_eq]

@[simp] theorem lists_revised (r : Registry) (overrides : List Override) (name : String) :
    (r.revised overrides).lists name = r.lists name := by
  rw [lists, revised, List.any_map, lists]
  congr 1
  funext d
  rw [Function.comp_apply, Deployment.name_revised]

theorem revised_append (first second : List Override) (r : Registry) :
    r.revised (first ++ second) = (r.revised first).revised second := by
  simp only [revised, List.map_map]
  congr 2
  funext d
  exact Deployment.revised_append first second d

theorem revised_twice (overrides : List Override) (r : Registry) :
    (r.revised overrides).revised overrides = r.revised overrides := by
  rw [revised, revised, List.map_map]
  refine congrArg (Registry.mk r.params) (List.map_congr_left fun d _ => ?_)
  exact Deployment.revised_twice overrides d

/-- Names differ, whatever has become of the times. -/
theorem Valid.name_ne_revised (hr : r.Valid) (overrides : List Override) :
    (r.revised overrides).deployments.Pairwise fun d e => d.name ≠ e.name := by
  rw [revised, List.pairwise_map]
  refine hr.compatible.imp fun {d e} h => ?_
  rw [Deployment.name_revised, Deployment.name_revised]
  exact h.name_ne

/-- The loop over the overrides, for a registry with different names that has been revised
already. -/
theorem Valid.foldlM_setTimes (hr : r.Valid) (overrides : List Override) :
    ∀ before : List Override,
      overrides.foldlM (fun ds o => setTimes o ds) (r.revised before).deployments =
        match overrides.find? fun o => !r.lists o.name with
        | some o => .error (.unknownDeployment o.name)
        | none => .ok (r.revised (before ++ overrides)).deployments := by
  induction overrides with
  | nil =>
    intro before
    rw [List.append_nil]
    rfl
  | cons o rest ih =>
    intro before
    rw [List.foldlM_cons]
    cases hlists : r.lists o.name with
    | false =>
      have hnone : ∀ d ∈ (r.revised before).deployments, d.name ≠ o.name := by
        intro d hd heq
        rw [← lists_revised r before, Bool.eq_false_iff] at hlists
        exact hlists (lists_iff.mpr ⟨d, hd, heq⟩)
      rw [setTimes_of_unlisted hnone, List.find?_cons_of_pos (by rw [hlists]; rfl)]
      rfl
    | true =>
      have hsome : ∃ d ∈ (r.revised before).deployments, d.name = o.name :=
        lists_iff.mp ((lists_revised r before o.name).trans hlists)
      have hstep : setTimes o (r.revised before).deployments =
          .ok (r.revised (before ++ [o])).deployments := by
        rw [setTimes_of_listed (hr.name_ne_revised before) hsome, revised_append]
        rfl
      rw [hstep, ok_bind, ih, List.find?_cons_of_neg (by rw [hlists]; decide), List.append_assoc,
        List.singleton_append]

/-- What comes of overrides: the refusal of the first one whose name is not listed, and otherwise
the registry of the revised deployments, if they make one up. -/
theorem Valid.withOverrides_eq (hr : r.Valid) (overrides : List Override) :
    r.withOverrides overrides = match overrides.find? fun o => !r.lists o.name with
      | some o => .error (.unknownDeployment o.name)
      | none => Registry.build r.params (r.revised overrides).deployments := by
  have hloop := hr.foldlM_setTimes overrides []
  have hbegin : (r.revised []).deployments = r.deployments := by
    rw [revised, List.map_congr_left fun d _ => Deployment.revised_nil d, List.map_id']
  rw [hbegin, List.nil_append] at hloop
  rw [withOverrides, hloop]
  split <;> rfl

theorem Valid.withOverrides_of_listed (hr : r.Valid)
    (hlisted : ∀ o ∈ overrides, r.lists o.name = true) :
    r.withOverrides overrides = Registry.build r.params (r.revised overrides).deployments := by
  have hnone : overrides.find? (fun o => !r.lists o.name) = none :=
    List.find?_eq_none.mpr fun o ho => by rw [hlisted o ho]; decide
  rw [hr.withOverrides_eq, hnone]

theorem Valid.withOverrides_of_unlisted (hr : r.Valid) {before after : List Override}
    {o : Override} (hbefore : ∀ o' ∈ before, r.lists o'.name = true)
    (ho : r.lists o.name = false) :
    r.withOverrides (before ++ o :: after) = .error (.unknownDeployment o.name) := by
  have hfirst : (before ++ o :: after).find? (fun o => !r.lists o.name) = some o :=
    List.find?_eq_some_iff_append.mpr ⟨by rw [ho]; rfl, before, after, rfl, fun o' ho' => by
      rw [hbefore o' ho']; decide⟩
  rw [hr.withOverrides_eq, hfirst]

/-- Two overrides with different names may change places.  What this can change is which of the
two is refused, if neither of the names is listed. -/
theorem Valid.withOverrides_swap (hr : r.Valid) {o o' : Override} (hne : o.name ≠ o'.name)
    (before after : List Override) :
    (r.withOverrides (before ++ o' :: o :: after)).toOption =
        (r.withOverrides (before ++ o :: o' :: after)).toOption ∧
      (r.lists o.name = true ∨ r.lists o'.name = true →
        r.withOverrides (before ++ o' :: o :: after) =
          r.withOverrides (before ++ o :: o' :: after)) := by
  have hrevised : r.revised (before ++ o' :: o :: after) =
      r.revised (before ++ o :: o' :: after) := by
    rw [revised, revised, List.map_congr_left fun d _ => Deployment.revised_swap hne before after d]
  simp only [hr.withOverrides_eq, hrevised, List.find?_append, List.find?_cons]
  -- the first refusal is found in what stands before, or it is one of the two, or comes later
  cases before.find? fun o => !r.lists o.name with
  | some _ => exact ⟨rfl, fun _ => rfl⟩
  | none => cases r.lists o.name <;> cases r.lists o'.name <;> simp [Except.toOption]

/-- To apply overrides again to what they have come to changes nothing. -/
theorem Valid.withOverrides_again (hr : r.Valid) {r' : Registry}
    (h : r.withOverrides overrides = .ok r') : r'.withOverrides overrides = .ok r' := by
  rw [hr.withOverrides_eq] at h
  split at h
  · exact absurd h (by simp)
  · next hnone =>
    obtain ⟨heq, hr'⟩ := build_eq_ok_iff.mp h
    obtain rfl : r' = r.revised overrides := heq
    have hlisted : ∀ o ∈ overrides, (r.revised overrides).lists o.name = true := by
      intro o ho
      rw [lists_revised]
      simpa using List.find?_eq_none.mp hnone o ho
    rw [hr'.withOverrides_of_listed hlisted, revised_twice]
    exact build_eq_ok_iff.mpr ⟨rfl, hr'⟩

/-- In a registry that has been made, with any overrides.  If a name is not listed, the first one
that is not is refused.  Otherwise the registry is the one in which every deployment has the times
of the last override that names it, and all else is as it was, provided that this is a registry at
all; no registry in between has to be one, since other overrides that come to the same have the
same result.  Overrides for two names may change places, and if one of the names is listed this
does not even change a refusal.  A list that is applied twice, within one attempt or in two, comes
to the same as when it is applied once. -/
theorem last_override_counts (hr : r.Made) (overrides : List Override) :
    (∀ before o after, overrides = before ++ o :: after → (∀ o' ∈ before, r.lists o'.name = true) →
      r.lists o.name = false → r.withOverrides overrides = .error (.unknownDeployment o.name)) ∧
    ((∀ o ∈ overrides, r.lists o.name = true) →
      (∀ r', r.withOverrides overrides = .ok r' ↔
        r' = ⟨r.params, r.deployments.map (Deployment.revised overrides)⟩ ∧ r'.Valid) ∧
      ∀ others : List Override, (∀ o ∈ others, r.lists o.name = true) →
        (∀ d ∈ r.deployments, d.revised others = d.revised overrides) →
        r.withOverrides others = r.withOverrides overrides) ∧
    (∀ before o o' after, overrides = before ++ o :: o' :: after → o.name ≠ o'.name →
      (r.withOverrides (before ++ o' :: o :: after)).toOption =
          (r.withOverrides overrides).toOption ∧
        (r.lists o.name = true ∨ r.lists o'.name = true →
          r.withOverrides (before ++ o' :: o :: after) = r.withOverrides overrides)) ∧
    r.withOverrides (overrides ++ overrides) = r.withOverrides overrides ∧
    ∀ r', r.withOverrides overrides = .ok r' → r'.withOverrides overrides = .ok r' := by
  have hvalid := hr.valid
  refine ⟨?_, fun hlisted => ⟨fun r' => ?_, fun others hothers hsame => ?_⟩, ?_, ?_,
    fun r' hr' => ?_⟩
  · rintro before o after rfl hbefore ho
    exact hvalid.withOverrides_of_unlisted hbefore ho
  · rw [hvalid.withOverrides_of_listed hlisted, build_eq_ok_iff]
    exact Iff.rfl
  · rw [hvalid.withOverrides_of_listed hlisted, hvalid.withOverrides_of_listed hothers, revised,
      revised, List.map_congr_left hsame]
  · rintro before o o' after rfl hne
    exact hvalid.withOverrides_swap hne before after
  · rw [hvalid.withOverrides_eq, hvalid.withOverrides_eq, revised_append, revised_twice,
      List.find?_append, Option.or_self]
  · exact hvalid.withOverrides_again hr'

/-- Three overrides, of which the first alone would leave a deployment that ends before it
starts. -/
def mendingOverrides : List Override :=
  [⟨"csv", 2000, 1000⟩, ⟨"segwit", 5, 6⟩, ⟨"csv", 1000, 2000⟩]

/-- The times that are mended in the end are accepted, also when the last two overrides change
places, and again when all are applied again.  An unknown name behind them is refused. -/
theorem last_override_regtest :
    (∃ r', (forNetwork .regtest).withOverrides mendingOverrides = .ok r' ∧
      (r'.deployments.map fun d => (d.name, d.startTime, d.timeout)) =
        [("testdummy", 0, 999999999999), ("csv", 1000, 2000), ("segwit", 5, 6)] ∧
      (forNetwork .regtest).withOverrides
        [⟨"csv", 2000, 1000⟩, ⟨"csv", 1000, 2000⟩, ⟨"segwit", 5, 6⟩] = .ok r' ∧
      r'.withOverrides mendingOverrides = .ok r') ∧
    (forNetwork .regtest).withOverrides [⟨"csv", 2000, 1000⟩] =
      .error (.invalidDeployment "csv" .endsBeforeStart) ∧
    (forNetwork .regtest).withOverrides (mendingOverrides ++ [⟨"taproot", 0, 1⟩]) =
      .error (.unknownDeployment "taproot") := by
  have hmade : (forNetwork .regtest).Made := .forNetwork .regtest
  have hlisted : ∀ o ∈ mendingOverrides, (forNetwork .regtest).lists o.name = true := by decide
  obtain ⟨-, hcounts, hswap, -, hagain⟩ := last_override_counts hmade mendingOverrides
  obtain ⟨hunlisted, -⟩ :=
    last_override_counts hmade (mendingOverrides ++ [⟨"taproot", 0, 1⟩])
  have hbuild : build (forNetwork .regtest).params
      ((forNetwork .regtest).revised mendingOverrides).deployments =
        .ok ((forNetwork .regtest).revised mendingOverrides) := rfl
  have hok := ((hcounts hlisted).1 _).mpr ⟨rfl, (build_eq_ok_iff.mp hbuild).2⟩
  refine ⟨⟨_, hok, by decide, ?_, hagain _ hok⟩, rfl, ?_⟩
  · rw [← hok]
    exact (hswap [⟨"csv", 2000, 1000⟩] _ _ [] rfl (by decide)).2 (Or.inl (by decide))
  · exact hunlisted mendingOverrides _ [] rfl hlisted (by decide)

end Registry
end SoftFork
