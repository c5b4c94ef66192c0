import SoftFork.Proofs.Session
import SoftFork.Proofs.Survey.Cold

/-!
# All questions tell one story

A tracker can be asked for the phase of a deployment, for the height since which it has lasted,
for its status, for the votes of the open period, for a report on all deployments and for the
version of the next block.  These are different computations.  Some go by the name of a
deployment and others by its place in the registry, the report and the version ask about all
deployments in turn, and each of them leaves something in the memory that the next one finds
there.

Nevertheless one list of statuses, one for each deployment, determines all the answers, and the
refusals as well (`Session.answers_agree_with_statuses`).  There are three reasons.  The memory
does not show, so every question may be taken to be asked first.  Names and places lead to the
same slots.  And a status is refused only if the standing is: votes are counted in a period of
which the standing has just been found, and the closing block below it would not have been found
if some blocks of the period were missing (`exists_tally`).

A loop over all deployments ends with the first refusal, so the refusal of a report is that of the
first deployment whose status is refused.  None of these refusals is about a name.  They are for the
lack of history, or because there is no block with the number that was given.
-/

namespace SoftFork

/-! ## Trackers that can be made -/

theorem Settings.valid_of_registry {settings : Settings} {r : Registry}
    (h : settings.registry = .ok r) : r.Valid := by
  rw [registry] at h
  split at h
  · obtain rfl := Except.ok.inj h
    exact Registry.valid_forNetwork _
  · split at h
    · exact absurd h (by simp)
    · exact Registry.valid_of_withOverrides h

/-- The ways in which a tracker is made. -/
inductive Tracker.Made : Tracker → Prop where
  | ofSettings {settings : Settings} {t : Tracker} (h : Tracker.ofSettings settings = .ok t) :
    Made t
  | forNetwork (network : Network) : Made (.forNetwork network)
  | withRegistry (settings : Settings) {params : Params} {deployments : List Deployment}
    {registry : Registry} (h : Registry.build params deployments = .ok registry) :
    Made (.withRegistry settings registry)

/-- Each of them puts it around a registry that has been checked. -/
theorem Tracker.Made.exists_valid {t : Tracker} (h : t.Made) :
    ∃ settings registry, t = .withRegistry settings registry ∧ registry.Valid := by
  cases h with
  | @ofSettings settings _ h =>
    rw [Tracker.ofSettings] at h
    cases hregistry : settings.registry with
    | error e =>
      rw [hregistry] at h
      exact absurd h (by simp)
    | ok registry =>
      rw [hregistry] at h
      obtain rfl := Except.ok.inj h
      exact ⟨settings, registry, rfl, Settings.valid_of_registry hregistry⟩
  | forNetwork network => exact ⟨_, _, rfl, Registry.valid_forNetwork network⟩
  | withRegistry settings h => exact ⟨settings, _, rfl, (Registry.build_eq_ok_iff.mp h).2⟩

/-! ## Refusals -/

/-- A refusal that is about the history and not about the deployment. -/
def Fault.IsOfHistory (e : Fault) : Prop :=
  (∃ height, e = .historyMissing height) ∨ ∃ id, e = .unknownBlock id

namespace View

variable {v : View} {clock : Clock} {ballot : Ballot}

theorem standing_eq_error {id : BlockId} (hid : v.block? id = none) (m : Memo) :
    (v.standing clock ballot (some id) m).1 = .error (.unknownBlock id) := by
  rw [standing, trailFrom, closing_eq_error hid, error_bind]

theorem isOfHistory_of_standing (hv : v.Lawful) (hperiod : 0 < ballot.period)
    {tip : Option BlockId} {e : Fault} (he : (v.standing clock ballot tip .empty).1 = .error e) :
    e.IsOfHistory := by
  obtain rfl | ⟨id, rfl, hid⟩ | ⟨id, past, rfl, hpast, hcon⟩ := hv.tip_cases tip
  · exact absurd he (by simp [standing])
  · rw [standing_eq_error hid] at he
    exact Or.inr ⟨id, (Except.error.inj he).symm⟩
  · have htells := standing_tells hv.toClimbs hpast hcon clock hperiod
    exact Or.inl (TellsAtMost.missing (Or.inl htells) he)

theorem isOfHistory_of_tally (hv : v.Lawful) (hperiod : 0 < ballot.period)
    {tip : Option BlockId} {e : Fault} (he : v.tally ballot tip = .error e) : e.IsOfHistory := by
  obtain rfl | ⟨id, rfl, hid⟩ | ⟨id, past, rfl, hpast, hcon⟩ := hv.tip_cases tip
  · exact absurd he (by simp [tally])
  · rw [tally, get_eq_error hid, error_bind] at he
    exact Or.inr ⟨id, (Except.error.inj he).symm⟩
  · have htells : Tells (v.tally ballot (some id)) _ := tally_tells hpast hcon ballot hperiod
    exact Or.inl (TellsAtMost.missing (Or.inl htells) he)

/-- Where a standing has been found that is not that at genesis, the blocks of the open period are
stored. -/
theorem exists_tally (hv : v.Lawful) (hperiod : 0 < ballot.period) {tip : Option BlockId}
    {s : Standing} (hs : (v.standing clock ballot tip .empty).1 = .ok s) (hne : s ≠ .initial) :
    ∃ tally, v.tally ballot tip = .ok tally := by
  obtain rfl | ⟨id, rfl, hid⟩ | ⟨id, past, rfl, hpast, hcon⟩ := hv.tip_cases tip
  · exact ⟨_, rfl⟩
  · rw [standing_eq_error hid] at hs
    exact absurd hs (by simp)
  · have hverdict := (standing_tells hv.toClimbs hpast hcon clock hperiod).eq_some hs
    -- the closing block of the last period was looked up, and the open one lies above it
    have hblocks : past.next % ballot.period ≤ past.length := by
      rw [Past.verdict?] at hverdict
      split at hverdict
      · exact absurd (Option.some.inj hverdict).symm hne
      · split at hverdict
        · exact absurd hverdict (by simp)
        · next hlen => exact Nat.le_of_lt (Nat.lt_of_not_le hlen)
    have htells : Tells (v.tally ballot (some id)) _ := tally_tells hpast hcon ballot hperiod
    rw [Past.tally?, Past.countVotes?, if_pos hblocks] at htells
    exact ⟨_, htells⟩

end View

/-! ## Reports -/

/-- A report that is put together from statuses with different names has them under their names. -/
theorem Report.of_foldl {γ : Type} {name : γ → String} {status : γ → Option Status} {l : List γ}
    (hall : ∀ c ∈ l, ∃ st, status c = some st)
    (hnames : l.Pairwise fun c c' => name c ≠ name c') {report : Report}
    (h : report = l.foldl (fun found c => (status c).elim found (found.insert (name c))) ∅) :
    (∀ key, key ∈ report ↔ ∃ c ∈ l, name c = key) ∧
      ∀ c ∈ l, ∃ st, status c = some st ∧ report[name c]? = some st := by
  have hmany : report = (∅ : Report).insertMany
      (l.map fun c => (name c, (status c).getD default)) := by
    rw [h, Std.ExtTreeMap.insertMany_list_eq_foldl, List.foldl_map]
    refine List.foldl_ext _ _ _ fun found c hc => ?_
    obtain ⟨st, hst⟩ := hall c hc
    rw [hst]
    rfl
  have hdiffer : (l.map fun c => (name c, (status c).getD default)).Pairwise
      fun a b => ¬ compare a.1 b.1 = .eq := by
    rw [List.pairwise_map]
    exact hnames.imp fun hne heq => hne (Std.LawfulEqCmp.eq_of_compare heq)
  rw [hmany]
  constructor
  · intro key
    rw [Std.ExtTreeMap.mem_insertMany_list]
    simp
  · intro c hc
    obtain ⟨st, hst⟩ := hall c hc
    refine ⟨st, hst, Std.ExtTreeMap.getElem?_insertMany_list_of_mem
      Std.ReflCmp.compare_self hdiffer ?_⟩
    exact List.mem_map.mpr ⟨c, hc, by rw [hst]; rfl⟩

namespace Survey

variable {s : Survey}

/-! ## The status of a deployment -/

/-- The votes are shown while they are counted, and they can be. -/
theorem exists_shownTally (hv : s.view.Lawful) (hr : s.registry.Valid) {entry : Deployment × Nat}
    (hentry : entry ∈ s.entries) {tip : Option BlockId} {standing : Standing}
    (h : s.cold (s.standingAt tip entry) = .ok standing) :
    ∃ tally, s.shownTally entry.1.ballot tip standing.phase = .ok tally ∧
      (tally.isSome = true ↔ standing.phase = .started) ∧
      ∀ count, tally = some count → s.view.tally entry.1.ballot tip = .ok count := by
  by_cases hstarted : standing.phase = .started
  · have hne : standing ≠ .initial := by
      rintro rfl
      exact absurd hstarted (by decide)
    rw [cold_standingAt hentry] at h
    obtain ⟨count, hcount⟩ :=
      View.exists_tally hv (hr.sound _ (mem_deployments hentry)).period_pos h hne
    refine ⟨some count, ?_, by simp [hstarted], fun _ heq => ?_⟩
    · rw [shownTally, if_pos hstarted, hcount]
      rfl
    · rw [← Option.some.inj heq, hcount]
  · refine ⟨none, ?_, by simp [hstarted], fun _ heq => absurd heq (by simp)⟩
    rw [shownTally, if_neg hstarted]

/-- `s.ShownAs tip entry st`: the status shows the deployment as it is for the block that
follows `tip`. -/
structure ShownAs (s : Survey) (tip : Option BlockId) (entry : Deployment × Nat) (st : Status) :
    Prop where
  standing : s.cold (s.standingAt tip entry) = .ok ⟨st.phase, st.since⟩
  bit_eq : st.bit = entry.1.bit
  startTime_eq : st.startTime = entry.1.startTime
  timeout_eq : st.timeout = entry.1.timeout
  isSome_tally : st.tally.isSome = true ↔ st.phase = .started
  tally_eq : ∀ count, st.tally = some count → s.view.tally entry.1.ballot tip = .ok count

/-- A status is refused exactly when the standing is, and otherwise shows it. -/
theorem statusAt_cases (hv : s.view.Lawful) (hr : s.registry.Valid) {entry : Deployment × Nat}
    (hentry : entry ∈ s.entries) (tip : Option BlockId) :
    (∃ st, s.cold (s.statusAt tip entry) = .ok st ∧ s.ShownAs tip entry st) ∨
      ∃ e, s.cold (s.statusAt tip entry) = .error e ∧
        s.cold (s.standingAt tip entry) = .error e ∧ e.IsOfHistory := by
  have hstatus : s.cold (s.statusAt tip entry) =
      s.cold (s.standingAt tip entry) >>= fun standing =>
        s.shownTally entry.1.ballot tip standing.phase >>= fun tally =>
          .ok ⟨standing.phase, entry.1.bit, entry.1.startTime, entry.1.timeout, standing.since,
            tally⟩ := by
    rw [statusAt, Steady.cold_bind (Steady.standingAt hv hentry tip) fun _ =>
      (Steady.lift _).bind fun _ => Steady.pure _]
    congr 1
    funext standing
    exact cold_lift_bind _ _
  cases hstanding : s.cold (s.standingAt tip entry) with
  | error e =>
    rw [hstanding] at hstatus
    refine Or.inr ⟨e, hstatus, rfl, ?_⟩
    rw [cold_standingAt hentry] at hstanding
    exact View.isOfHistory_of_standing hv (hr.sound _ (mem_deployments hentry)).period_pos hstanding
  | ok standing =>
    obtain ⟨tally, htally, hsome, hcount⟩ := exists_shownTally hv hr hentry hstanding
    rw [hstanding, ok_bind, htally] at hstatus
    exact Or.inl ⟨_, hstatus, hstanding, rfl, rfl, rfl, hsome, hcount⟩

/-- What is asked about a standing by name can be read off the status. -/
theorem cold_standingOf_eq_map (hv : s.view.Lawful) (hr : s.registry.Valid) {β : Type}
    {entry : Deployment × Nat} (hentry : entry ∈ s.entries) (tip : Option BlockId)
    (f : Standing → β) : s.cold (do return f (← s.standingOf entry.1.name tip)) =
      (s.cold (s.statusAt tip entry)).map fun st => f ⟨st.phase, st.since⟩ := by
  rw [cold_standingOf hv hr hentry]
  rcases statusAt_cases hv hr hentry tip with ⟨st, hst, hshown⟩ | ⟨e, hst, hstanding, -⟩
  · rw [hst, hshown.standing]
    rfl
  · rw [hst, hstanding]
    rfl

/-- A deployment signals when its status says that it has started or locked in. -/
theorem signals_iff_status (hv : s.view.Lawful) (hr : s.registry.Valid)
    {entry : Deployment × Nat} (hentry : entry ∈ s.entries) (tip : Option BlockId) :
    (∃ standing, s.cold (s.standingAt tip entry) = .ok standing ∧
        standing.phase.isSignalling = true) ↔
      ∃ st, s.cold (s.statusAt tip entry) = .ok st ∧
        (st.phase = .started ∨ st.phase = .lockedIn) := by
  rcases statusAt_cases hv hr hentry tip with ⟨st, hst, hshown⟩ | ⟨e, hst, hstanding, -⟩
  · simp only [hst, hshown.standing, Except.ok.injEq, exists_eq_left',
      Phase.isSignalling_iff]
  · simp only [hst, hstanding, reduceCtorEq, false_and, exists_false]

/-! ## Questions by name -/

theorem Steady.tallyOf (name : String) (tip : Option BlockId) : s.Steady (s.tallyOf name tip) :=
  Steady.entry name fun _ _ => Steady.lift _

theorem cold_tallyOf (hr : s.registry.Valid) {entry : Deployment × Nat}
    (hentry : entry ∈ s.entries) (tip : Option BlockId) :
    s.cold (s.tallyOf entry.1.name tip) = s.view.tally entry.1.ballot tip :=
  cold_entry (entry_of_mem hr hentry) _

/-! ## The report -/

/-- The entries of a report are the deployments, with their own statuses, or it is refused like the
first status that is. -/
theorem cold_report (hv : s.view.Lawful) (hr : s.registry.Valid) (tip : Option BlockId) :
    (∃ report, s.cold (s.report tip) = .ok report ∧
      (∀ name, name ∈ report ↔ ∃ entry ∈ s.entries, entry.1.name = name) ∧
      ∀ entry ∈ s.entries, ∃ st, s.cold (s.statusAt tip entry) = .ok st ∧
        report[entry.1.name]? = some st) ∨
    ∃ before entry after e, s.entries = before ++ entry :: after ∧
      (∀ earlier ∈ before, ∃ st, s.cold (s.statusAt tip earlier) = .ok st) ∧
      s.cold (s.statusAt tip entry) = .error e ∧ s.cold (s.report tip) = .error e := by
  have hnames : s.entries.Pairwise fun entry entry' => entry.1.name ≠ entry'.1.name := by
    have hdeployments : (s.entries.map Prod.fst).Pairwise fun d e => d.name ≠ e.name := by
      rw [entries, List.zipIdx_map_fst]
      exact hr.compatible.imp fun h => h.name_ne
    rwa [List.pairwise_map] at hdeployments
  rw [report, Steady.cold_loop fun _ hentry => Steady.statusAt hv hentry tip]
  refine (foldlM_cases _ _ _ _).imp_left fun ⟨hall, hloop⟩ => ⟨_, hloop, ?_⟩
  have hsome : ∀ entry ∈ s.entries, ∃ st, (s.cold (s.statusAt tip entry)).toOption = some st :=
    fun entry hentry => (hall entry hentry).imp fun st hst => by rw [hst]; rfl
  obtain ⟨hkeys, hvalues⟩ := Report.of_foldl hsome hnames rfl
  exact ⟨hkeys, fun entry hentry =>
    (hvalues entry hentry).imp fun st hst => hst.imp_left eq_ok_of_toOption⟩

/-- The status of a deployment, asked for by name. -/
def statusFor (s : Survey) (tip : Option BlockId) (d : Deployment) : Except Fault Status :=
  s.cold (s.statusOf d.name tip)

theorem statusFor_eq (hr : s.registry.Valid) {entry : Deployment × Nat} (hentry : entry ∈ s.entries)
    (tip : Option BlockId) : s.statusFor tip entry.1 = s.cold (s.statusAt tip entry) :=
  cold_entry (entry_of_mem hr hentry) _

/-- The report in terms of the deployments. -/
theorem cold_report_statusFor (hv : s.view.Lawful) (hr : s.registry.Valid) (tip : Option BlockId) :
    (∀ report, s.cold (s.report tip) = .ok report →
      (∀ name, name ∈ report ↔ ∃ d ∈ s.registry.deployments, d.name = name) ∧
        ∀ d ∈ s.registry.deployments, ∃ st, s.statusFor tip d = .ok st ∧
          report[d.name]? = some st) ∧
    ∀ e, s.cold (s.report tip) = .error e → ∃ before d after,
      s.registry.deployments = before ++ d :: after ∧
        (∀ earlier ∈ before, ∃ st, s.statusFor tip earlier = .ok st) ∧
        s.statusFor tip d = .error e := by
  have hplaces : s.registry.deployments = s.entries.map Prod.fst := by
    rw [entries, List.zipIdx_map_fst]
  rcases cold_report hv hr tip with
    ⟨report, hreport, hkeys, hvalues⟩ | ⟨before, entry, after, e, hsplit, hbefore, he, hreport⟩
  · rw [hreport]
    refine ⟨fun report' heq => ?_, fun e he => absurd he (by simp)⟩
    obtain rfl := Except.ok.inj heq
    constructor
    · intro name
      rw [hkeys, hplaces]
      simp only [List.mem_map, exists_exists_and_eq_and]
    · intro d hd
      obtain ⟨i, hentry⟩ := exists_entry hd
      rw [statusFor_eq hr hentry]
      exact hvalues _ hentry
  · rw [hreport]
    refine ⟨fun report heq => absurd heq (by simp), fun e' heq => ?_⟩
    obtain rfl := Except.error.inj heq
    have hmem : ∀ {entry'}, entry' ∈ before ++ [entry] → entry' ∈ s.entries := by
      intro entry' h
      rw [hsplit, List.append_cons]
      exact List.mem_append_left _ h
    refine ⟨before.map Prod.fst, entry.1, after.map Prod.fst, ?_, ?_, ?_⟩
    · rw [hplaces, hsplit, List.map_append, List.map_cons]
    · intro d hd
      obtain ⟨earlier, hearlier, rfl⟩ := List.mem_map.mp hd
      rw [statusFor_eq hr (hmem (List.mem_append_left _ hearlier))]
      exact hbefore _ hearlier
    · rw [statusFor_eq hr (hmem (List.mem_append_right _ List.mem_cons_self)), he]

/-- The version of the next block in terms of the deployments. -/
theorem cold_nextVersion_statusFor (hv : s.view.Lawful) (hr : s.registry.Valid)
    {tip : Option BlockId} {version : UInt32} (h : s.cold (s.nextVersion tip) = .ok version)
    {i : Nat} (hi : i < Version.bitCount) : version.toNat.testBit i = true ↔
      ∃ d ∈ s.registry.deployments, d.bit.toNat = i ∧
        ∃ st, s.statusFor tip d = .ok st ∧ (st.phase = .started ∨ st.phase = .lockedIn) := by
  rw [(of_cold_nextVersion hv hr h).2 i hi]
  constructor
  · rintro ⟨entry, hentry, hbit, hsignals⟩
    rw [signals_iff_status hv hr hentry, ← statusFor_eq hr hentry] at hsignals
    exact ⟨entry.1, mem_deployments hentry, hbit, hsignals⟩
  · rintro ⟨d, hd, hbit, hst⟩
    obtain ⟨j, hentry⟩ := exists_entry hd
    rw [statusFor_eq hr hentry, ← signals_iff_status hv hr hentry] at hst
    exact ⟨_, hentry, hbit, hst⟩

end Survey

namespace Session

/-! ## What a session replies -/

/-- The session that some events have made of an empty tree and a tracker. -/
def played (digest : Header → BlockHash) (t : Tracker) (events : List Event) : Session :=
  events.foldl (after digest) ⟨.empty, t⟩

/-- The session after some questions, whatever the answers are. -/
def asked (s : Session) (questions : List Question) : Session :=
  questions.foldl (fun s q => { s with tracker := (s.tracker.answer s.tree.view q).2 }) s

/-- What the session answers to something that is asked of its tree, or how it refuses to,
whatever else is asked before. -/
def Replies {α : Type} (s : Session) (q : Survey → Query α) (r : Except Fault α) : Prop :=
  ∀ before : List Question, ((s.asked before).tracker.ask s.tree.view q).1 = r

variable {s : Session} {settings : Settings} {registry : Registry}

theorem InOrder.asked (hs : s.InOrder settings registry) (questions : List Question) :
    (s.asked questions).tree = s.tree ∧ (s.asked questions).InOrder settings registry := by
  induction questions generalizing s with
  | nil => exact ⟨rfl, hs⟩
  | cons q questions ih =>
    exact ih ⟨hs.tree, (hs.tracker.answer hs.tree.lawful_view q).2⟩

/-- The reply to a steady question is its cold answer. -/
theorem InOrder.replies {α : Type} (hs : s.InOrder settings registry) {q : Survey → Query α}
    (hq : Survey.Steady (s.tree.survey registry settings.clock)
      (q (s.tree.survey registry settings.clock))) :
    s.Replies q ((s.tree.survey registry settings.clock).cold
      (q (s.tree.survey registry settings.clock))) := by
  intro before
  obtain ⟨htree, horder⟩ := hs.asked before
  have htracker := horder.tracker
  rw [htree] at htracker
  exact htracker.ask_eq_cold hq

theorem Replies.ask {α : Type} {q : Survey → Query α} {r : Except Fault α} (h : s.Replies q r) :
    (s.tracker.ask s.tree.view q).1 = r :=
  h []

/-- What the session answers to a steady question once it always answers. -/
theorem InOrder.replies_of_ask {α : Type} (hs : s.InOrder settings registry)
    {q : Survey → Query α} {r : Except Fault α}
    (hq : Survey.Steady (s.tree.survey registry settings.clock)
      (q (s.tree.survey registry settings.clock)))
    (h : (s.tracker.ask s.tree.view q).1 = r) : s.Replies q r := by
  have hreplies := hs.replies hq
  rwa [← hreplies.ask, h] at hreplies

theorem Replies.unique {α : Type} {q : Survey → Query α} {r r' : Except Fault α}
    (h : s.Replies q r) (h' : s.Replies q r') : r = r' :=
  (h []).symm.trans (h' [])

/-- At every moment of every session with a tracker that has been made in one of the ways there
are, about every tip, stored or not.  There is one list of statuses.  Every deployment's own status
is the one in the list, and what is asked about it otherwise can be read off that.  The votes are
given exactly while the deployment is started, and are those of the open period.  The report has
the deployments' names and their statuses, or is refused like the first status in the list that
is.  The version of the next block has the bits of those that have started or locked in.  And
nothing is refused for the name of a deployment. -/
theorem answers_agree_with_statuses (digest : Header → BlockHash) {t : Tracker} (ht : t.Made)
    (events : List Event) (tip : Option BlockId) :
    ∃ status : Deployment → Except Fault Status,
      (∀ d ∈ t.registry.deployments,
        (played digest t events).Replies (fun s => s.statusOf d.name tip) (status d) ∧
        (played digest t events).Replies (fun s => do return (← s.standingOf d.name tip).phase)
          ((status d).map Status.phase) ∧
        (played digest t events).Replies (fun s => do return (← s.standingOf d.name tip).since)
          ((status d).map Status.since) ∧
        (played digest t events).Replies (fun s => s.isActive d.name tip)
          ((status d).map fun st => st.phase == .active) ∧
        (∀ st, status d = .ok st → st.bit = d.bit ∧ st.startTime = d.startTime ∧
          st.timeout = d.timeout ∧ (st.tally.isSome = true ↔ st.phase = .started) ∧
          ∀ count, st.tally = some count →
            (played digest t events).Replies (fun s => s.tallyOf d.name tip) (.ok count)) ∧
        (∀ e, status d = .error e → e.IsOfHistory) ∧
        ∀ e, (played digest t events).Replies (fun s => s.tallyOf d.name tip) (.error e) →
          e.IsOfHistory) ∧
      (∃ r, (played digest t events).Replies (fun s => s.report tip) r ∧
        (∀ report, r = .ok report →
          (∀ name, name ∈ report ↔ ∃ d ∈ t.registry.deployments, d.name = name) ∧
          ∀ d ∈ t.registry.deployments, ∃ st, status d = .ok st ∧ report[d.name]? = some st) ∧
        ∀ e, r = .error e → ∃ before d after, t.registry.deployments = before ++ d :: after ∧
          (∀ earlier ∈ before, ∃ st, status earlier = .ok st) ∧ status d = .error e) ∧
      ∃ r, (played digest t events).Replies (fun s => s.nextVersion tip) r ∧
        ∀ version, r = .ok version → ∀ i ≤ 28, (version.toNat.testBit i = true ↔
          ∃ d ∈ t.registry.deployments, d.bit.toNat = i ∧
            ∃ st, status d = .ok st ∧ (st.phase = .started ∨ st.phase = .lockedIn)) := by
  obtain ⟨settings, registry, rfl, hr⟩ := ht.exists_valid
  have hs : (played digest (.withRegistry settings registry) events).InOrder settings registry :=
    inOrder_run digest settings registry events
  generalize played digest (.withRegistry settings registry) events = s at hs
  have hv : (s.tree.survey registry settings.clock).view.Lawful := hs.tree.lawful_view
  obtain ⟨hreport, hrefused⟩ := Survey.cold_report_statusFor hv hr tip
  refine ⟨(s.tree.survey registry settings.clock).statusFor tip, fun d hd => ?_,
    ⟨_, hs.replies (.report hv tip), hreport, hrefused⟩,
    ⟨_, hs.replies (.nextVersion hv tip), fun version hversion i hi =>
      Survey.cold_nextVersion_statusFor hv hr hversion (Nat.lt_succ_of_le hi)⟩⟩
  obtain ⟨i, hentry⟩ := Survey.exists_entry (s := s.tree.survey registry settings.clock) hd
  have hasked : ∀ {β : Type} (f : Standing → β),
      s.Replies (fun s => do return f (← s.standingOf d.name tip))
        (((s.tree.survey registry settings.clock).statusFor tip d).map
          fun st => f ⟨st.phase, st.since⟩) := by
    intro β f
    rw [Survey.statusFor_eq hr hentry, ← Survey.cold_standingOf_eq_map hv hr hentry]
    exact hs.replies ((Survey.Steady.standingOf hv d.name tip).bind fun _ => .pure _)
  have htally := hs.replies (q := fun s => s.tallyOf d.name tip) (.tallyOf d.name tip)
  rw [Survey.cold_tallyOf hr hentry] at htally
  refine ⟨hs.replies (.statusOf hv d.name tip), hasked Standing.phase, hasked Standing.since,
    hasked fun standing => standing.phase == .active, fun st hst => ?_, fun e he => ?_,
    fun e he => ?_⟩
  · rw [Survey.statusFor_eq hr hentry] at hst
    rcases Survey.statusAt_cases hv hr hentry tip with ⟨st', hst', hshown⟩ | ⟨e, he, -⟩
    · obtain rfl := Except.ok.inj (hst'.symm.trans hst)
      refine ⟨hshown.bit_eq, hshown.startTime_eq, hshown.timeout_eq, hshown.isSome_tally, ?_⟩
      intro count hcount
      rw [hshown.tally_eq count hcount] at htally
      exact htally
    · rw [he] at hst
      exact absurd hst (by simp)
  · rw [Survey.statusFor_eq hr hentry] at he
    rcases Survey.statusAt_cases hv hr hentry tip with ⟨st, hst, -⟩ | ⟨e', he', -, hhistory⟩
    · rw [hst] at he
      exact absurd he (by simp)
    · rwa [← Except.error.inj (he'.symm.trans he)]
  · exact View.isOfHistory_of_tally hv (hr.sound d hd).period_pos (htally.unique he)

/-- At the fifth block of the forked tree the votes are counted, and the report shows them. -/
theorem answers_agree_with_statuses_pair : ∃ st report count,
    pairSession.Replies (fun s => s.statusOf "pair" (some 4)) (.ok st) ∧ st.phase = .started ∧
      st.tally = some count ∧
      pairSession.Replies (fun s => s.tallyOf "pair" (some 4)) (.ok count) ∧
      pairSession.Replies (fun s => s.report (some 4)) (.ok report) ∧
      report["pair"]? = some st := by
  have hbuild : Registry.build ⟨2, 2⟩ [pairDeployment] = .ok ⟨⟨2, 2⟩, [pairDeployment]⟩ := rfl
  have hmem : pairDeployment ∈ [pairDeployment] := List.mem_singleton.mpr rfl
  have hstory := answers_agree_with_statuses BlockTree.nonceDigest
    (.withRegistry { clock := .blockTime } hbuild)
    (BlockTree.forkedActs.map .grow ++
      [.ask (.phase "pair" (some 7)), .ask (.alerts (some 10)), .ask (.status "pair" (some 20)),
       .keep (.deployment 0) fun id => id == 5]) (some 4)
  rw [show played _ _ _ = pairSession from rfl] at hstory
  obtain ⟨status, hstatus, ⟨r, hreply, hreport, hrefused⟩, -⟩ := hstory
  obtain ⟨hpair, -, -, -, hshown, -⟩ := hstatus pairDeployment hmem
  have hphase : (pairSession.tracker.ask pairSession.tree.view fun s =>
      s.statusOf "pair" (some 4)).1.toOption.map Status.phase = some .started := by
    decide +kernel
  have hfirst : (pairSession.tracker.ask pairSession.tree.view fun s =>
      s.statusOf "pair" (some 4)).1 = status pairDeployment := hpair.ask
  rw [hfirst] at hphase
  cases hst : status pairDeployment with
  | error e =>
    rw [hst] at hphase
    exact absurd hphase (by simp [Except.toOption])
  | ok st =>
    rw [hst] at hphase
    have hstarted : st.phase = .started := Option.some.inj hphase
    obtain ⟨-, -, -, hsome, htally⟩ := hshown st hst
    obtain ⟨count, hcount⟩ := Option.isSome_iff_exists.mp (hsome.mpr hstarted)
    cases r with
    | error e =>
      obtain ⟨before, d, after, hsplit, -, he⟩ := hrefused e rfl
      have hd : d ∈ [pairDeployment] := by
        rw [show [pairDeployment] = before ++ d :: after from hsplit]
        exact List.mem_append_right _ List.mem_cons_self
      rw [List.mem_singleton.mp hd, hst] at he
      exact absurd he (by simp)
    | ok report =>
      obtain ⟨st', hst', hvalue⟩ := (hreport report rfl).2 pairDeployment hmem
      obtain rfl := Except.ok.inj (hst.symm.trans hst')
      rw [hst] at hpair
      exact ⟨st, report, count, hpair, hstarted, hcount, htally count hcount, hreply, hvalue⟩

end Session
end SoftFork
