import SoftFork.Tracker
import SoftFork.Proofs.Survey.Steady

/-!
# A node at work

A node has one tree and one tracker.  The tree grows and its tip moves, the
tracker is asked about any of the blocks, and from time to time memories are
dropped, all in any order and whether it succeeds or not.  That is a `Session`,
and `run` plays one from the beginning, when there is neither a block nor a
memory.

## Nothing shows

What has happened in a session before can be seen in the tree.  It cannot be
seen in the tracker: at every moment it answers every question as a tracker does
that is made on the spot (`answer_run`).  So the order of questions, the refused
ones among them, the branches that were followed and given up, and everything
that was or was not dropped make no difference, to an answer or to a refusal.

The reason is the invariant `InOrder`, which says that the tree is sound and the
memory coherent.  Each event keeps it (`InOrder.after`): the tree's events,
because coherence lasts while history grows; a question, because questions are
steady; and a loss, because it is one.

The invariant is not about the answers alone.  Each standing that is remembered
is the one found at its block with nothing remembered.
-/

namespace SoftFork

/-! ## Questions -/

/-- What a tracker can be asked about a history. -/
inductive Question where
  /-- The phase for the block that follows `prev`. -/
  | phase (name : String) (prev : Option BlockId)
  /-- The height of the first block to which that phase applied. -/
  | since (name : String) (prev : Option BlockId)
  | isActive (name : String) (prev : Option BlockId)
  | status (name : String) (tip : Option BlockId)
  | report (tip : Option BlockId)
  | nextVersion (prev : Option BlockId)
  | template (tip : Option BlockId) (client : List String)
  | alerts (tip : Option BlockId)

namespace Question

/-- The kind of thing that answers a question. -/
def Answer : Question → Type
  | .phase .. => Phase
  | .since .. => Nat
  | .isActive .. => Bool
  | .status .. => Status
  | .report .. => Report
  | .nextVersion .. => UInt32
  | .template .. => Template
  | .alerts .. => Alerts

/-- The question put to a survey, by someone with the given settings. -/
def query (settings : AlertSettings) (s : Survey) : (q : Question) → Query q.Answer
  | .phase name prev => do return (← s.standingOf name prev).phase
  | .since name prev => do return (← s.standingOf name prev).since
  | .isActive name prev => s.isActive name prev
  | .status name tip => s.statusOf name tip
  | .report tip => s.report tip
  | .nextVersion prev => s.nextVersion prev
  | .template tip client => s.template tip client
  | .alerts tip => s.alerts settings tip

theorem steady_query {s : Survey} (hv : s.view.Lawful) (settings : AlertSettings) (q : Question) :
    s.Steady (q.query settings s) := by
  cases q with
  | phase name prev => exact (Survey.Steady.standingOf hv name prev).bind fun _ => .pure _
  | since name prev => exact (Survey.Steady.standingOf hv name prev).bind fun _ => .pure _
  | isActive name prev => exact .isActive hv name prev
  | status name tip => exact .statusOf hv name tip
  | report tip => exact .report hv tip
  | nextVersion prev => exact .nextVersion hv prev
  | template tip client => exact .template hv tip client
  | alerts tip => exact .alerts hv settings tip

end Question

namespace Tracker

/-- The tracker's answer to a question about a history, and the tracker after it. -/
def answer (t : Tracker) (v : View) (q : Question) : Except Fault q.Answer × Tracker :=
  t.ask v fun s => q.query t.settings.alerts s

/-- The tracker with the memo of one slot restricted to the blocks that pass a test. -/
def keep (t : Tracker) (slot : Slot) (test : BlockId → Bool) : Tracker :=
  match t.bank.get slot with
  | .ok m => { t with bank := t.bank.set slot (m.keep test) }
  | .error _ => t

/-- The tracker with nothing remembered. -/
def clear (t : Tracker) : Tracker :=
  { t with bank := t.bank.clear }

end Tracker

/-! ## Sessions -/

/-- A tree and the tracker that is asked about it. -/
structure Session where
  tree : BlockTree
  tracker : Tracker

namespace Session

/-- What can happen in a session. -/
inductive Event where
  /-- The tree is changed, or an attempt is made. -/
  | grow (act : BlockTree.Act)
  /-- A question is asked. -/
  | ask (q : Question)
  /-- What one slot remembers of blocks that fail a test is dropped. -/
  | keep (slot : Slot) (test : BlockId → Bool)
  /-- What belongs to no live branch is dropped. -/
  | evict (live : List BlockId)
  /-- The tracker is told that the tip has moved. -/
  | tipMoved (live : List BlockId)
  /-- Everything remembered is dropped. -/
  | clear

/-- The session after an event. -/
def after (digest : Header → BlockHash) (s : Session) : Event → Session
  | .grow act => { s with tree := s.tree.after digest act }
  | .ask q => { s with tracker := (s.tracker.answer s.tree.view q).2 }
  | .keep slot test => { s with tracker := s.tracker.keep slot test }
  | .evict live => { s with tracker := (s.tracker.evict s.tree.view live).2 }
  | .tipMoved live => { s with tracker := (s.tracker.tipMoved s.tree.view live).2 }
  | .clear => { s with tracker := s.tracker.clear }

/-- The session that some events have made of an empty tree and a new tracker. -/
def run (digest : Header → BlockHash) (settings : Settings) (registry : Registry)
    (events : List Event) : Session :=
  events.foldl (after digest) ⟨.empty, .withRegistry settings registry⟩

end Session

/-! ## What every event keeps -/

/-- The tracker is the one it was made as, with a coherent memory. -/
structure Tracker.InOrder (t : Tracker) (settings : Settings) (registry : Registry) (v : View) :
    Prop where
  settings_eq : t.settings = settings
  registry_eq : t.registry = registry
  coherent : t.bank.Coherent registry settings.clock v

namespace Tracker.InOrder

variable {t : Tracker} {settings : Settings} {registry : Registry} {v : View}

theorem withRegistry : (Tracker.withRegistry settings registry).InOrder settings registry v :=
  ⟨rfl, rfl, MemoBank.coherent_empty⟩

/-- A tracker in order answers like a new one, and is in order afterwards. -/
theorem answer (ht : t.InOrder settings registry v) (hv : v.Lawful) (q : Question) :
    (t.answer v q).1 = ((Tracker.withRegistry settings registry).answer v q).1 ∧
      (t.answer v q).2.InOrder settings registry v := by
  obtain ⟨tsettings, tregistry, bank⟩ := t
  obtain ⟨rfl, rfl, hcoherent⟩ := ht
  obtain ⟨r, hr⟩ := q.steady_query (s := ⟨tregistry, tsettings.clock, v⟩) hv tsettings.alerts
  obtain ⟨hanswer, hafter⟩ := hr bank hcoherent
  obtain ⟨hnew, -⟩ := hr (.empty tregistry.deployments.length) MemoBank.coherent_empty
  exact ⟨hanswer.trans hnew.symm, rfl, rfl, hafter⟩

/-- A steady question gets its cold answer. -/
theorem ask_eq_cold {α : Type} (ht : t.InOrder settings registry v) {q : Survey → Query α}
    (hq : Survey.Steady ⟨registry, settings.clock, v⟩ (q ⟨registry, settings.clock, v⟩)) :
    (t.ask v q).1 =
      Survey.cold ⟨registry, settings.clock, v⟩ (q ⟨registry, settings.clock, v⟩) := by
  obtain ⟨tsettings, tregistry, bank⟩ := t
  obtain ⟨rfl, rfl, hcoherent⟩ := ht
  exact hq.answer_eq_cold hcoherent

theorem keep (ht : t.InOrder settings registry v) (slot : Slot) (test : BlockId → Bool) :
    (t.keep slot test).InOrder settings registry v := by
  rw [Tracker.keep]
  split
  · next m hm =>
    obtain ⟨ballot, hballot, hfaithful⟩ := ht.coherent.faithful hm
    have hless : Memo.Faithful v settings.clock ballot (m.keep test) :=
      hfaithful.mono fun _ _ => Memo.getElem?_of_keep
    exact ⟨ht.settings_eq, ht.registry_eq, ht.coherent.set hballot hless⟩
  · exact ht

theorem evict (ht : t.InOrder settings registry v) (live : List BlockId) :
    (t.evict v live).2.InOrder settings registry v := by
  rw [Tracker.evict, View.evict]
  cases v.lineages live with
  | error e => exact ht
  | ok reachable => exact ⟨ht.settings_eq, ht.registry_eq, ht.coherent.keep reachable.contains⟩

theorem tipMoved (ht : t.InOrder settings registry v) (live : List BlockId) :
    (t.tipMoved v live).2.InOrder settings registry v := by
  rw [Tracker.tipMoved]
  split
  · exact ht.evict live
  · exact ht

theorem clear (ht : t.InOrder settings registry v) : t.clear.InOrder settings registry v :=
  ⟨ht.settings_eq, ht.registry_eq, ht.coherent.clear⟩

end Tracker.InOrder

namespace Session

/-- The tree is sound and the tracker in order. -/
structure InOrder (s : Session) (settings : Settings) (registry : Registry) : Prop where
  tree : s.tree.Sound
  tracker : s.tracker.InOrder settings registry s.tree.view

variable {s : Session} {settings : Settings} {registry : Registry}

theorem InOrder.after (hs : s.InOrder settings registry) (digest : Header → BlockHash)
    (event : Event) : (s.after digest event).InOrder settings registry := by
  obtain ⟨htree, htracker⟩ := hs
  cases event with
  | grow act =>
    have hstep : BlockTree.Step digest s.tree (s.tree.after digest act) :=
      BlockTree.step_after htree act
    have hafter := htree.of_step hstep
    refine ⟨hafter, htracker.settings_eq, htracker.registry_eq, ?_⟩
    exact htracker.coherent.grow htree.climbs hafter.climbs fun _ _ => hstep.block?
  | ask q => exact ⟨htree, (htracker.answer htree.lawful_view q).2⟩
  | keep slot test => exact ⟨htree, htracker.keep slot test⟩
  | evict live => exact ⟨htree, htracker.evict live⟩
  | tipMoved live => exact ⟨htree, htracker.tipMoved live⟩
  | clear => exact ⟨htree, htracker.clear⟩

theorem InOrder.foldl_after (hs : s.InOrder settings registry) (digest : Header → BlockHash)
    (events : List Event) :
    (events.foldl (Session.after digest) s).InOrder settings registry := by
  induction events generalizing s with
  | nil => exact hs
  | cons event events ih => exact ih (hs.after digest event)

/-- Every session is in order all the time. -/
theorem inOrder_run (digest : Header → BlockHash) (settings : Settings) (registry : Registry)
    (events : List Event) : (run digest settings registry events).InOrder settings registry :=
  InOrder.foldl_after ⟨BlockTree.sound_empty, .withRegistry⟩ digest events

/-- At every moment of every session, whatever the registry and the clock: the
memory of each slot holds nothing but closing blocks, each with the standing that is
found there with nothing remembered, and each question is answered, or refused, as by
a new tracker. -/
theorem answer_run (digest : Header → BlockHash) (settings : Settings) (registry : Registry)
    (events : List Event) :
    (∀ (slot : Slot) (m : Memo),
      (run digest settings registry events).tracker.bank.get slot = .ok m →
      ∃ ballot, registry.ballot? slot = some ballot ∧ ∀ (id : BlockId) (s : Standing),
        m[id]? = some s →
        (∃ periods,
          (run digest settings registry events).tree.view.Closes ballot.period id periods) ∧
        ((run digest settings registry events).tree.view.standing settings.clock ballot (some id)
          .empty).1 = .ok s) ∧
    ∀ q : Question,
      ((run digest settings registry events).tracker.answer
        (run digest settings registry events).tree.view q).1 =
      ((Tracker.withRegistry settings registry).answer
        (run digest settings registry events).tree.view q).1 := by
  obtain ⟨htree, htracker⟩ := inOrder_run digest settings registry events
  constructor
  · intro slot m hm
    obtain ⟨ballot, hballot, hfaithful⟩ := htracker.coherent.faithful hm
    refine ⟨ballot, hballot, fun id s hs => ⟨?_, ?_⟩⟩
    · obtain ⟨periods, hcloses, -⟩ := hfaithful id s hs
      exact ⟨periods, hcloses⟩
    · exact View.standing_of_remembered htree.climbs hfaithful hs
  · exact fun q => (htracker.answer htree.lawful_view q).1

/-- A deployment with the numbers of the ballot on the forked tree. -/
def pairDeployment : Deployment :=
  { name := "pair", bit := 0, startTime := 21, timeout := 1000, period := 2, threshold := 2 }

/-- The forked tree grows, both its branches are asked about, and a block that is not
there.  Of the row that lost only the third period stays remembered. -/
def pairSession : Session :=
  run BlockTree.nonceDigest { clock := .blockTime } ⟨⟨2, 2⟩, [pairDeployment]⟩
    (BlockTree.forkedActs.map .grow ++
      [.ask (.phase "pair" (some 7)), .ask (.alerts (some 10)), .ask (.status "pair" (some 20)),
       .keep (.deployment 0) fun id => id == 5])

/-- The entry that stays is right, and helps to answer as if it was not there. -/
theorem answer_pairSession :
    (∃ m, pairSession.tracker.bank.get (.deployment 0) = .ok m ∧ m[5]? = some ⟨.lockedIn, 6⟩) ∧
      (pairSession.tree.view.standing .blockTime pairDeployment.ballot (some 5) .empty).1 =
        .ok ⟨.lockedIn, 6⟩ ∧
      (pairSession.tracker.answer pairSession.tree.view (.phase "pair" (some 7))).1 =
        ((Tracker.withRegistry { clock := .blockTime } ⟨⟨2, 2⟩, [pairDeployment]⟩).answer
          pairSession.tree.view (.phase "pair" (some 7))).1 := by
  have hrun := answer_run BlockTree.nonceDigest { clock := .blockTime } ⟨⟨2, 2⟩, [pairDeployment]⟩
    (BlockTree.forkedActs.map .grow ++
      [.ask (.phase "pair" (some 7)), .ask (.alerts (some 10)), .ask (.status "pair" (some 20)),
       .keep (.deployment 0) fun id => id == 5])
  have hread : (pairSession.tracker.bank.get (.deployment 0)).toOption.map (fun m => m[5]?) =
      some (some ⟨.lockedIn, 6⟩) := by
    decide +kernel
  cases hm : pairSession.tracker.bank.get (.deployment 0) with
  | error e =>
    rw [hm] at hread
    exact absurd hread (by simp [Except.toOption])
  | ok m =>
    rw [hm] at hread
    have hentry : m[5]? = some ⟨.lockedIn, 6⟩ := Option.some.inj hread
    obtain ⟨ballot, hballot, hentries⟩ := hrun.1 (.deployment 0) m hm
    obtain rfl : pairDeployment.ballot = ballot := Option.some.inj hballot
    exact ⟨⟨m, rfl, hentry⟩, (hentries 5 _ hentry).2, hrun.2 (.phase "pair" (some 7))⟩

end Session
end SoftFork
