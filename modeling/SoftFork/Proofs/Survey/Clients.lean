import Mathlib.Data.Finset.Card
import SoftFork.Proofs.Survey.Standings

/-!
# What a client is told

A client that builds blocks is told a version, the rules in force, and the bits that are being voted
with.  The loop that puts this together starts with the version of the next block and looks at every
deployment once more, taking votes back that the client must not cast.  A rule in force that
`Excludes` the client ends it.  Here the loop is taken apart: it is refused for the first deployment
that turns the client away, or else the version, the rules and the bits are each put together by a
loop of their own (`Template.foldl_tell`).

## The version

Votes are set before any are taken back, so the order of the deployments does not show.  A bit is
in the version when some deployment on it signals and none on it takes it back
(`Session.template_exact`).

## The names

The pending deployments are offered under the names that clients are shown.  A name in the registry
is its deployment's own, but a name that is shown need not be: the mark in front of a rule that must
not be ignored may as well be the first letter of one that may be.  Then the second deployment
`Masks` the first, both are shown with one name, and there is one entry for the two of them.  There
is no other way for an entry to be lost (`Session.available_exact`).
-/

namespace SoftFork
namespace Deployment

/-- A rule that must not be ignored and that the client does not know. -/
def Excludes (d : Deployment) (client : List String) : Prop :=
  d.ignorable = false ∧ d.name ∉ client

instance (d : Deployment) (client : List String) : Decidable (d.Excludes client) :=
  inferInstanceAs (Decidable (_ ∧ _))

/-- A deployment that may be ignored, with the very name that another one, which must not be, is
shown with. -/
def Masks (d e : Deployment) : Prop :=
  d.ignorable = true ∧ e.ignorable = false ∧ d.name = "!" ++ e.name

instance (d e : Deployment) : Decidable (d.Masks e) :=
  inferInstanceAs (Decidable (_ ∧ _ ∧ _))

variable {d e : Deployment} {client : List String} {l : List Deployment}

theorem not_excludes_iff :
    ¬ d.Excludes client ↔ (d.ignorable || client.contains d.name) = true := by
  rw [Excludes, not_and_or, Bool.not_eq_false, not_not, Bool.or_eq_true, List.contains_iff_mem]

/-- Deployments with different names are shown with the same one when one of them masks the
other. -/
theorem clientName_eq_iff (hne : d.name ≠ e.name) :
    d.clientName = e.clientName ↔ d.Masks e ∨ e.Masks d := by
  have hmark : "!" ++ d.name ≠ "!" ++ e.name := fun h => hne ((String.append_right_inj "!").mp h)
  rw [clientName, clientName, Masks, Masks]
  cases hd : d.ignorable <;> cases he : e.ignorable <;> simp [hne, hmark, eq_comm]

/-! ## The bits that are offered -/

/-- The bits of some deployments by the names they are shown with. -/
def offered (l : List Deployment) : Std.ExtTreeMap String UInt8 :=
  l.foldl (fun found d => found.insert d.clientName d.bit) ∅

theorem offered_append (l : List Deployment) (d : Deployment) :
    offered (l ++ [d]) = (offered l).insert d.clientName d.bit := by
  rw [offered, List.foldl_append]
  rfl

/-- A name leads to the bit of the last deployment that is shown with it. -/
theorem getElem?_offered (l : List Deployment) (name : String) :
    (offered l)[name]? = (l.reverse.find? fun d => d.clientName == name).map Deployment.bit := by
  induction l using List.reverseRecOn with
  | nil => rfl
  | append_singleton l d ih =>
    rw [offered_append, Std.ExtTreeMap.getElem?_insert, ih, List.reverse_append,
      List.reverse_singleton, List.singleton_append]
    by_cases hname : d.clientName = name
    · rw [if_pos (hname ▸ Std.ReflCmp.compare_self), List.find?_cons, beq_iff_eq.mpr hname]
      rfl
    · rw [if_neg fun h => hname (Std.LawfulEqCmp.eq_of_compare h), List.find?_cons,
        beq_eq_false_iff_ne.mpr hname]

theorem mem_offered {name : String} :
    name ∈ offered l ↔ name ∈ l.map Deployment.clientName := by
  induction l using List.reverseRecOn with
  | nil => simp [offered]
  | append_singleton l d ih =>
    rw [offered_append, Std.ExtTreeMap.mem_insert, ih, List.map_append, List.mem_append,
      Std.LawfulEqCmp.compare_eq_iff_eq, List.map_singleton, List.mem_singleton, or_comm, eq_comm]

theorem size_offered_eq_card (l : List Deployment) :
    (offered l).size = (l.map Deployment.clientName).toFinset.card := by
  induction l using List.reverseRecOn with
  | nil => rfl
  | append_singleton l d ih =>
    rw [offered_append, Std.ExtTreeMap.size_insert, ih, List.map_append, List.toFinset_append,
      List.map_singleton, List.toFinset_cons, List.toFinset_nil, insert_empty_eq,
      Finset.union_singleton, Finset.card_insert_eq_ite]
    simp only [Std.ExtTreeMap.contains_iff_mem, mem_offered, List.mem_toFinset]

/-- Of deployments with different names there are as many entries as are not masked. -/
theorem size_offered (hl : l.Pairwise fun d e => d.name ≠ e.name) :
    (offered l).size = (l.filter fun e => ∀ d ∈ l, ¬ d.Masks e).length := by
  have hsymm : Std.Symm fun d e : Deployment => d.name ≠ e.name := ⟨fun _ _ hne => hne.symm⟩
  have hshown : (l.map clientName).toFinset =
      ((l.filter fun e => ∀ d ∈ l, ¬ d.Masks e).map clientName).toFinset := by
    ext name
    simp only [List.mem_toFinset, List.mem_map, List.mem_filter, decide_eq_true_eq]
    constructor
    · rintro ⟨e, he, rfl⟩
      by_cases hmasked : ∀ d ∈ l, ¬ d.Masks e
      · exact ⟨e, ⟨he, hmasked⟩, rfl⟩
      · push Not at hmasked
        obtain ⟨d, hd, hignorable, he', hname⟩ := hmasked
        -- The entry stays, under the one that masks: that one may be ignored, and is not masked.
        refine ⟨d, ⟨hd, fun d' _ hmasks => ?_⟩, ?_⟩
        · exact absurd (hmasks.2.1.symm.trans hignorable) (by decide)
        · rw [clientName, clientName, if_pos hignorable, if_neg (by rw [he']; decide), hname]
    · rintro ⟨e, ⟨he, -⟩, rfl⟩
      exact ⟨e, he, rfl⟩
  have hnodup : ((l.filter fun e => ∀ d ∈ l, ¬ d.Masks e).map clientName).Nodup := by
    refine List.Nodup.map_on (fun d hd e he hname => ?_)
      ((hl.imp fun hne heq => hne (congrArg name heq)).filter _)
    obtain ⟨hd, hfree⟩ := List.mem_filter.mp hd
    obtain ⟨he, hfree'⟩ := List.mem_filter.mp he
    by_contra hne
    rcases (clientName_eq_iff (hl.forall hd he hne)).mp hname with hmasks | hmasks
    · exact of_decide_eq_true hfree' d hd hmasks
    · exact of_decide_eq_true hfree e he hmasks
  rw [size_offered_eq_card, hshown, List.toFinset_card_of_nodup hnodup, List.length_map]

/-- Nothing is lost exactly when nothing is masked. -/
theorem size_offered_eq_length_iff (hl : l.Pairwise fun d e => d.name ≠ e.name) :
    (offered l).size = l.length ↔ ∀ d ∈ l, ∀ e ∈ l, ¬ d.Masks e := by
  rw [size_offered hl, List.length_filter_eq_length_iff]
  simp only [decide_eq_true_eq]
  exact ⟨fun h d hd e he => h e he d hd, fun h e he d hd => h d hd e he⟩

/-- A deployment that shares its name with no other has its own bit under it. -/
theorem getElem?_offered_of_free (hl : l.Pairwise fun d e => d.name ≠ e.name) (hd : d ∈ l)
    (hfree : ∀ e ∈ l, ¬ d.Masks e ∧ ¬ e.Masks d) : (offered l)[d.clientName]? = some d.bit := by
  have hsymm : Std.Symm fun d e : Deployment => d.name ≠ e.name := ⟨fun _ _ hne => hne.symm⟩
  rw [getElem?_offered]
  cases hlast : l.reverse.find? fun e => e.clientName == d.clientName with
  | none =>
    exact absurd (beq_self_eq_true d.clientName)
      (List.find?_eq_none.mp hlast d (List.mem_reverse.mpr hd))
  | some e =>
    have he := List.mem_reverse.mp (List.mem_of_find?_eq_some hlast)
    have hname := List.find?_some hlast
    rw [beq_iff_eq] at hname
    obtain rfl : e = d := by
      by_contra hne
      exact ((clientName_eq_iff (hl.forall he hd hne)).mp hname).elim (hfree e he).2 (hfree e he).1
    rfl

end Deployment

/-! ## One deployment after the other -/

namespace Template

variable {client : List String}

/-- The template after a deployment that does not turn the client away. -/
def tell (t : Template) (client : List String) (d : Deployment) (phase : Phase) : Template where
  version := if phase = .started ∧ d.Excludes client then t.version &&& ~~~d.mask else t.version
  rules := if phase = .active then t.rules ++ [d.clientName] else t.rules
  available := if phase.isSignalling then t.available.insert d.clientName d.bit else t.available
  required := t.required

theorem consider_eq (t : Template) (d : Deployment) (phase : Phase) :
    t.consider client d phase =
      if phase = .active ∧ d.Excludes client then .error (.unsupportedRule d.name)
      else .ok (t.tell client d phase) := by
  by_cases hd : d.Excludes client
  · have htest : (d.ignorable || client.contains d.name) = false :=
      Bool.eq_false_iff.mpr fun h => Deployment.not_excludes_iff.mpr h hd
    cases phase <;>
      simp only [consider, tell, htest, hd, offer, withoutVote, Phase.isSignalling, if_true,
        and_true, if_false, reduceCtorEq, Bool.false_eq_true]
  · have htest := Deployment.not_excludes_iff.mp hd
    cases phase <;>
      simp only [consider, tell, htest, hd, offer, enforce, Phase.isSignalling, if_true, and_false,
        if_false, reduceCtorEq, Bool.false_eq_true]

/-- The parts of what a client is told do not depend on each other. -/
theorem foldl_tell (phase : Deployment → Phase) (l : List Deployment) (t : Template) :
    l.foldl (fun t d => t.tell client d (phase d)) t = {
      version := l.foldl (fun version d =>
        if decide (phase d = .started ∧ d.Excludes client) then version &&& ~~~Version.mask d.bit
        else version) t.version
      rules := t.rules ++ (l.filter fun d => phase d = .active).map Deployment.clientName
      available := (l.filter fun d => (phase d).isSignalling).foldl
        (fun found d => found.insert d.clientName d.bit) t.available
      required := t.required } := by
  induction l generalizing t with
  | nil => simp
  | cons d l ih =>
    rw [List.foldl_cons, ih]
    cases hphase : phase d <;> simp [tell, hphase, Phase.isSignalling, Deployment.mask]

end Template

/-! ## The whole template -/

namespace Survey

variable {s : Survey} {tip : Option BlockId} {client : List String}

/-- The first deployment in force that excludes the client. -/
def refuser? (s : Survey) (tip : Option BlockId) (client : List String) : Option Deployment :=
  s.registry.deployments.find? fun d => s.phaseOf tip d = .active ∧ d.Excludes client

/-- What a client is told that is not turned away. -/
def told (s : Survey) (tip : Option BlockId) (client : List String) : Template :=
  s.registry.deployments.foldl (fun t d => t.tell client d (s.phaseOf tip d))
    { version := s.voted tip }

theorem refuser?_eq_none_iff : s.refuser? tip client = none ↔
    ∀ d ∈ s.registry.deployments, ¬ (s.phaseOf tip d = .active ∧ d.Excludes client) := by
  rw [refuser?, List.find?_eq_none]
  simp only [decide_eq_true_eq]

theorem refuser?_eq_some_iff {d : Deployment} : s.refuser? tip client = some d ↔
    ∃ before after, s.registry.deployments = before ++ d :: after ∧ s.phaseOf tip d = .active ∧
      d.Excludes client ∧
      ∀ e ∈ before, ¬ (s.phaseOf tip e = .active ∧ e.Excludes client) := by
  rw [refuser?, List.find?_eq_some_iff_append]
  simp only [decide_eq_true_eq, Bool.not_eq_true', decide_eq_false_iff_not]
  constructor
  · rintro ⟨⟨hactive, hexcludes⟩, before, after, hsplit, hbefore⟩
    exact ⟨before, after, hsplit, hactive, hexcludes, hbefore⟩
  · rintro ⟨before, after, hsplit, hactive, hexcludes, hbefore⟩
    exact ⟨⟨hactive, hexcludes⟩, before, after, hsplit, hbefore⟩

/-- The loop is over the deployments with their places, and the places do not matter to it. -/
theorem refuser?_eq_map (s : Survey) (tip : Option BlockId) (client : List String) :
    s.refuser? tip client = (s.entries.find? fun entry =>
      s.phaseOf tip entry.1 = .active ∧ entry.1.Excludes client).map Prod.fst := by
  rw [refuser?, ← s.entries_map_fst, List.find?_map]
  rfl

/-- One round of the loop, with nothing remembered. -/
theorem cold_consider (hv : s.view.Lawful) (hr : s.registry.Valid) (h : s.Answered tip)
    {entry : Deployment × Nat} (hentry : entry ∈ s.entries) (t : Template) :
    s.cold (do
      let standing ← s.standingAt tip entry
      liftM (t.consider client entry.1 standing.phase)) =
        if decide (s.phaseOf tip entry.1 = .active ∧ entry.1.Excludes client) then
          .error (.unsupportedRule entry.1.name)
        else .ok (t.tell client entry.1 (s.phaseOf tip entry.1)) := by
  obtain ⟨since, hstanding⟩ := h.exists_since hr hentry
  rw [Steady.cold_bind (Steady.standingAt hv hentry tip) fun _ => Steady.lift _, hstanding,
    ok_bind]
  simp only [decide_eq_true_eq]
  exact Template.consider_eq t entry.1 _

/-- The first deployment that turns the client away decides, or there is none. -/
theorem cold_template (hv : s.view.Lawful) (hr : s.registry.Valid) (h : s.Answered tip)
    (client : List String) : s.cold (s.template tip client) =
      match s.refuser? tip client with
      | some d => .error (.unsupportedRule d.name)
      | none => .ok (s.told tip client) := by
  have hround : ∀ entry ∈ s.entries, ∀ t : Template, s.Steady (do
      let standing ← s.standingAt tip entry
      liftM (t.consider client entry.1 standing.phase)) :=
    fun entry hentry t => (Steady.standingAt hv hentry tip).bind fun _ => Steady.lift _
  rw [template, Steady.cold_bind (Steady.nextVersion hv tip) fun _ => Steady.foldlM hround,
    cold_nextVersion_of_answered hv hr h, ok_bind, Steady.cold_foldlM hround,
    foldlM_guarded fun entry hentry t => cold_consider hv hr h hentry t, refuser?_eq_map, told,
    ← s.entries_map_fst, List.foldl_map]
  cases s.entries.find? fun entry =>
    s.phaseOf tip entry.1 = .active ∧ entry.1.Excludes client <;> rfl

/-- When a client is told something all the deployments have been asked about. -/
theorem answered_of_template (hv : s.view.Lawful) {template : Template}
    (h : s.cold (s.template tip client) = .ok template) : s.Answered tip := by
  rw [Survey.template, Steady.cold_bind (Steady.nextVersion hv tip) fun _ =>
    Steady.foldlM fun _ hentry _ => (Steady.standingAt hv hentry tip).bind fun _ =>
      Steady.lift _] at h
  cases hversion : s.cold (s.nextVersion tip) with
  | ok version => exact answered_of_nextVersion hv hversion
  | error e =>
    rw [hversion] at h
    exact absurd h (by simp)

/-- There is one thing only that a client can be told. -/
theorem eq_told_of_template (hv : s.view.Lawful) (hr : s.registry.Valid) {template : Template}
    (h : s.cold (s.template tip client) = .ok template) : template = s.told tip client := by
  rw [cold_template hv hr (answered_of_template hv h)] at h
  cases hfind : s.refuser? tip client with
  | none =>
    rw [hfind] at h
    exact (Except.ok.inj h).symm
  | some d =>
    rw [hfind] at h
    exact absurd h (by simp)

/-- A client is turned away by the first deployment in force that excludes it. -/
theorem cold_template_eq_error_iff (hv : s.view.Lawful) (hr : s.registry.Valid)
    (h : s.Answered tip) {name : String} :
    s.cold (s.template tip client) = .error (.unsupportedRule name) ↔
      ∃ d, s.refuser? tip client = some d ∧ d.name = name := by
  rw [cold_template hv hr h]
  cases s.refuser? tip client with
  | none => simp
  | some d => simp

theorem told_rules : (s.told tip client).rules =
    (s.registry.deployments.filter fun d => s.phaseOf tip d = .active).map
      Deployment.clientName := by
  rw [told, Template.foldl_tell]
  rfl

theorem told_available : (s.told tip client).available = Deployment.offered
    (s.registry.deployments.filter fun d =>
      s.phaseOf tip d = .started ∨ s.phaseOf tip d = .lockedIn) := by
  rw [told, Template.foldl_tell]
  simp only [← Phase.isSignalling_iff, Bool.decide_eq_true]
  rfl

/-- The version is a ballot paper, and of the bits that can be voted with it has those on which a
deployment signals and from which none takes its vote back. -/
theorem told_version (hr : s.registry.Valid) :
    Version.isBallot (s.told tip client).version = true ∧ ∀ i < Version.bitCount,
      ((s.told tip client).version.toNat.testBit i = true ↔
        (∃ d ∈ s.registry.deployments, d.bit.toNat = i ∧
          (s.phaseOf tip d = .started ∨ s.phaseOf tip d = .lockedIn)) ∧
        ∀ d ∈ s.registry.deployments, d.bit.toNat = i →
          ¬ (s.phaseOf tip d = .started ∧ d.Excludes client)) := by
  have hbits : ∀ d ∈ s.registry.deployments, d.bit.toNat < Version.bitCount :=
    fun d hd => (hr.sound d hd).bit_lt
  rw [told, Template.foldl_tell]
  refine ⟨?_, fun i hi => ?_⟩
  · rw [Version.isBallot_foldl_clear hbits, isBallot_voted hr]
  · rw [Version.testBit_foldl_clear fun d hd => Nat.lt_trans (hbits d hd) (by decide),
      testBit_voted hr, Version.testBit_topBits hi, or_iff_right (by decide)]
    refine and_congr (exists_congr fun d => and_congr_right fun _ => ?_)
      (forall₂_congr fun d _ => ?_)
    · rw [Phase.isSignalling_iff, and_comm]
    · rw [decide_eq_true_eq]
      exact imp_not_comm

end Survey

namespace Session

/-- At every moment of every session with a tracker that has been made in one of the ways there
are, with either clock, at genesis and at every block whose links lead there, and whatever the
times of the blocks are and whatever rules the client knows.  Every deployment has a phase.  The
client is turned away exactly when a deployment is in force that must not be ignored and that it
does not know, and for the first such one.  Otherwise it is told the rules in force, as they are
shown to clients and in registry order, and a version that is a ballot paper.  A bit is in the
version exactly when a deployment on it has started or locked in and there is none on it that has
started, must not be ignored, and is not known to the client. -/
theorem template_exact (digest : Header → BlockHash) {t : Tracker} (ht : t.Made)
    (events : List Event) {tip : Option BlockId} {past : Past}
    (hpast : PastBefore (played digest t events).tree.block? tip past) (hroot : past.Rooted)
    (client : List String) :
    ∃ (phase : Deployment → Phase) (r : Except Fault Template),
      (∀ d ∈ t.registry.deployments, (played digest t events).RepliesPhase tip d (phase d)) ∧
      (played digest t events).Replies (fun s => s.template tip client) r ∧
      (∀ name, r = .error (.unsupportedRule name) ↔
        ∃ before d after, t.registry.deployments = before ++ d :: after ∧ d.name = name ∧
          phase d = .active ∧ d.Excludes client ∧
          ∀ e ∈ before, ¬ (phase e = .active ∧ e.Excludes client)) ∧
      ((∀ d ∈ t.registry.deployments, ¬ (phase d = .active ∧ d.Excludes client)) →
        ∃ template, r = .ok template ∧
          template.rules = (t.registry.deployments.filter fun d => phase d = .active).map
            Deployment.clientName ∧
          Version.isBallot template.version = true ∧
          ∀ i ≤ 28, (template.version.toNat.testBit i = true ↔
            (∃ d ∈ t.registry.deployments, d.bit.toNat = i ∧
              (phase d = .started ∨ phase d = .lockedIn)) ∧
            ∀ d ∈ t.registry.deployments, d.bit.toNat = i →
              ¬ (phase d = .started ∧ d.Excludes client))) := by
  obtain ⟨settings, registry, rfl, hr⟩ := ht.exists_valid
  have hs : (played digest (.withRegistry settings registry) events).InOrder settings registry :=
    inOrder_run digest settings registry events
  generalize played digest (.withRegistry settings registry) events = s at hpast hs
  have hv : (s.tree.survey registry settings.clock).view.Lawful := hs.tree.lawful_view
  have hanswered := hs.tree.answered hr settings.clock hpast hroot
  refine ⟨(s.tree.survey registry settings.clock).phaseOf tip, _,
    fun d hd => hs.repliesPhase hr hanswered hd, hs.replies (.template hv tip client),
    fun name => ?_, fun hnone => ⟨_, ?_, Survey.told_rules, (Survey.told_version hr).1,
      fun i hi => (Survey.told_version hr).2 i (Nat.lt_succ_of_le hi)⟩⟩
  · rw [Survey.cold_template_eq_error_iff hv hr hanswered]
    constructor
    · rintro ⟨d, hd, hname⟩
      obtain ⟨before, after, hsplit, hactive, hexcludes, hbefore⟩ :=
        Survey.refuser?_eq_some_iff.mp hd
      exact ⟨before, d, after, hsplit, hname, hactive, hexcludes, hbefore⟩
    · rintro ⟨before, d, after, hsplit, hname, hactive, hexcludes, hbefore⟩
      exact ⟨d, Survey.refuser?_eq_some_iff.mpr
        ⟨before, after, hsplit, hactive, hexcludes, hbefore⟩, hname⟩
  · rw [Survey.cold_template hv hr hanswered, Survey.refuser?_eq_none_iff.mpr hnone]

/-- After the eighth block of the forked tree the deployment is in force.  It must not be ignored,
and the client knows something else. -/
theorem template_forked :
    (forkedSession [{ pairDeployment with ignorable := false }]).Replies
      (fun s => s.template (some 7) ["other"]) (.error (.unsupportedRule "pair")) := by
  have hbuild : Registry.build ⟨2, 2⟩ [{ pairDeployment with ignorable := false }] =
      .ok ⟨⟨2, 2⟩, [{ pairDeployment with ignorable := false }]⟩ := rfl
  have hpast : PastBefore (forkedSession [{ pairDeployment with ignorable := false }]).tree.block?
      (some 7) BlockTree.forkedPast := by
    rw [tree_forkedSession]
    exact BlockTree.hasPast_forked
  have hrun : ((forkedSession [{ pairDeployment with ignorable := false }]).tracker.ask
      (forkedSession [{ pairDeployment with ignorable := false }]).tree.view fun s => do
        return (← s.standingOf "pair" (some 7)).phase).1.toOption = some .active := by
    decide +kernel
  obtain ⟨phase, r, hphase, hreplies, hrefused, -⟩ := template_exact BlockTree.nonceDigest
    (.withRegistry { clock := .blockTime } hbuild) (BlockTree.forkedActs.map .grow) hpast
    (by decide) ["other"]
  have hactive : phase { pairDeployment with ignorable := false } = .active :=
    Except.ok.inj ((hphase _ List.mem_cons_self).ask.symm.trans (eq_ok_of_toOption hrun))
  obtain rfl : r = .error (.unsupportedRule "pair") :=
    (hrefused "pair").mpr ⟨[], { pairDeployment with ignorable := false }, [], rfl, rfl, hactive,
      by decide, fun _ he => absurd he List.not_mem_nil⟩
  exact hreplies

/-- At every moment of every session with a tracker that has been made in one of the ways there
are, about every tip, stored or not, whenever a client is told something and not turned away.  Every
deployment has a phase, and those that have started or locked in are offered.  A name leads to the
bit of the last one of them that is shown with it.  There are as many entries as there are
deployments among them that are not masked by another one among them; and one that neither masks
nor is masked is offered with its own bit. -/
theorem available_exact (digest : Header → BlockHash) {t : Tracker} (ht : t.Made)
    (events : List Event) (tip : Option BlockId) (client : List String) {template : Template}
    (h : (played digest t events).Replies (fun s => s.template tip client) (.ok template)) :
    ∃ (phase : Deployment → Phase) (pending : List Deployment),
      (∀ d ∈ t.registry.deployments, (played digest t events).RepliesPhase tip d (phase d)) ∧
      pending = (t.registry.deployments.filter fun d =>
        phase d = .started ∨ phase d = .lockedIn) ∧
      (∀ name : String, template.available[name]? =
        (pending.reverse.find? fun d => d.clientName == name).map Deployment.bit) ∧
      template.available.size = (pending.filter fun e => ∀ d ∈ pending, ¬ d.Masks e).length ∧
      (template.available.size = pending.length ↔ ∀ d ∈ pending, ∀ e ∈ pending, ¬ d.Masks e) ∧
      ∀ d ∈ pending, (∀ e ∈ pending, ¬ d.Masks e ∧ ¬ e.Masks d) →
        template.available[d.clientName]? = some d.bit := by
  obtain ⟨settings, registry, rfl, hr⟩ := ht.exists_valid
  have hs : (played digest (.withRegistry settings registry) events).InOrder settings registry :=
    inOrder_run digest settings registry events
  generalize played digest (.withRegistry settings registry) events = s at h hs
  have hv : (s.tree.survey registry settings.clock).view.Lawful := hs.tree.lawful_view
  have hcold : (s.tree.survey registry settings.clock).cold
      ((s.tree.survey registry settings.clock).template tip client) = .ok template :=
    (hs.replies (q := fun s => s.template tip client) (.template hv tip client)).unique h
  have hanswered := Survey.answered_of_template hv hcold
  obtain rfl := Survey.eq_told_of_template hv hr hcold
  have hnames : (registry.deployments.filter fun d =>
      (s.tree.survey registry settings.clock).phaseOf tip d = .started ∨
        (s.tree.survey registry settings.clock).phaseOf tip d = .lockedIn).Pairwise
          fun d e => d.name ≠ e.name :=
    (hr.compatible.imp Registry.Compatible.name_ne).filter _
  refine ⟨(s.tree.survey registry settings.clock).phaseOf tip, _,
    fun d hd => hs.repliesPhase hr hanswered hd, rfl, ?_⟩
  rw [Survey.told_available]
  exact ⟨Deployment.getElem?_offered _, Deployment.size_offered hnames,
    Deployment.size_offered_eq_length_iff hnames,
    fun _ hd hfree => Deployment.getElem?_offered_of_free hnames hd hfree⟩

/-- After the fourth block of the forked tree the deployment has started, and is offered. -/
theorem available_forked : ∃ template,
    (forkedSession [pairDeployment]).Replies (fun s => s.template (some 3) []) (.ok template) ∧
      template.available["pair"]? = some 0 := by
  have hbuild : Registry.build ⟨2, 2⟩ [pairDeployment] = .ok ⟨⟨2, 2⟩, [pairDeployment]⟩ := rfl
  have hrun : ((forkedSession [pairDeployment]).tracker.ask
        (forkedSession [pairDeployment]).tree.view fun s =>
          s.template (some 3) []).1.toOption.isSome = true ∧
      ((forkedSession [pairDeployment]).tracker.ask
        (forkedSession [pairDeployment]).tree.view fun s => do
          return (← s.standingOf "pair" (some 3)).phase).1.toOption = some .started := by
    decide +kernel
  obtain ⟨template, htemplate⟩ := Option.isSome_iff_exists.mp hrun.1
  have hreplies := (inOrder_forkedSession [pairDeployment]).replies_of_ask
    (.template (inOrder_forkedSession [pairDeployment]).tree.lawful_view (some 3) [])
    (eq_ok_of_toOption htemplate)
  obtain ⟨phase, pending, hphase, rfl, -, -, -, hfree⟩ := available_exact BlockTree.nonceDigest
    (.withRegistry { clock := .blockTime } hbuild) (BlockTree.forkedActs.map .grow) (some 3) []
    hreplies
  have hstarted : phase pairDeployment = .started :=
    Except.ok.inj ((hphase _ List.mem_cons_self).ask.symm.trans (eq_ok_of_toOption hrun.2))
  refine ⟨template, hreplies, hfree pairDeployment ?_ fun e he => ?_⟩
  · exact List.mem_filter.mpr ⟨List.mem_cons_self, decide_eq_true (Or.inl hstarted)⟩
  · obtain rfl : e = pairDeployment := List.mem_singleton.mp (List.mem_filter.mp he).1
    decide

/-- A rule that must not be ignored, and one that may be, with the name the first is shown with. -/
def maskedDeployments : List Deployment :=
  [{ pairDeployment with ignorable := false }, { pairDeployment with name := "!pair", bit := 1 }]

/-- The registry is accepted and both deployments have started, and the one entry there is has the
bit of the second. -/
theorem available_masked :
    Registry.build ⟨2, 2⟩ maskedDeployments = .ok ⟨⟨2, 2⟩, maskedDeployments⟩ ∧
      (∀ d ∈ maskedDeployments,
        (forkedSession maskedDeployments).RepliesPhase (some 3) d .started) ∧
      ∃ template, (forkedSession maskedDeployments).Replies
          (fun s => s.template (some 3) ["pair"]) (.ok template) ∧
        template.available.size ≠ maskedDeployments.length ∧
        ∃ d ∈ maskedDeployments, template.available[d.clientName]? ≠ some d.bit := by
  have hs := inOrder_forkedSession maskedDeployments
  have hv := hs.tree.lawful_view
  have hrun : ((forkedSession maskedDeployments).tracker.ask
      (forkedSession maskedDeployments).tree.view fun s =>
        s.template (some 3) ["pair"]).1.toOption.map (fun template =>
          (template.available.size, template.available["!pair"]?)) = some (1, some 1) ∧
      ∀ d ∈ maskedDeployments, ((forkedSession maskedDeployments).tracker.ask
        (forkedSession maskedDeployments).tree.view fun s => do
          return (← s.standingOf d.name (some 3)).phase).1.toOption = some .started := by
    decide +kernel
  obtain ⟨template, htemplate, hread⟩ := Option.map_eq_some_iff.mp hrun.1
  obtain ⟨hsize, hbit⟩ := Prod.mk.inj hread
  refine ⟨rfl, fun d hd => hs.replies_of_ask
    ((Survey.Steady.standingOf hv d.name (some 3)).bind fun _ => .pure _)
    (eq_ok_of_toOption (hrun.2 d hd)), template, hs.replies_of_ask (.template hv (some 3) ["pair"])
    (eq_ok_of_toOption htemplate), ?_, _, List.mem_cons_self, ?_⟩
  · rw [hsize]
    decide
  · rw [show Deployment.clientName { pairDeployment with ignorable := false } = "!pair" from rfl,
      hbit]
    decide

end Session
end SoftFork
