import SoftFork.Proofs.Session
import SoftFork.Proofs.Standing.Footprint

/-!
# Questions about one deployment

A bank holds a memo for each deployment and one for each bit.  A question that
names a deployment works with the memo at that deployment's position, in the way
in which a question about a standing works with a memo, and with no other.  An
unknown name has no position and no memo, and so nothing is written at all.

What such a question makes of the standing does not touch the memory
(`Query.Silent`): a status reads votes, and votes are not remembered.
-/

namespace SoftFork
namespace Query

variable {α β : Type}

/-- The question neither writes nor forgets. -/
def Silent (q : Query α) : Prop :=
  ∀ bank : MemoBank, (q.ask bank).2 = bank

theorem silent_pure (a : α) : Silent (Pure.pure a : Query α) :=
  fun _ => rfl

theorem silent_lift (r : Except Fault α) : Silent (liftM r : Query α) :=
  fun _ => rfl

/-- What follows a question in silence does not show in the memory. -/
theorem memory_bind (q : Query α) {f : α → Query β} (hf : ∀ a, (f a).Silent) (bank : MemoBank) :
    ((q >>= f).ask bank).2 = (q.ask bank).2 := by
  rw [ask_bind]
  cases q.ask bank with
  | mk r after =>
    cases r with
    | error e => rfl
    | ok a => exact hf a after

theorem Silent.bind {q : Query α} {f : α → Query β} (hq : q.Silent) (hf : ∀ a, (f a).Silent) :
    (q >>= f).Silent :=
  fun bank => (memory_bind q hf bank).trans (hq bank)

/-- Working with the memo of one slot changes that memo, if it is there, and no other. -/
theorem get_memory_onMemo (slot slot' : Slot) (f : Memo → Except Fault α × Memo)
    (bank : MemoBank) :
    ((onMemo slot f).ask bank).2.get slot' =
      if slot = slot' then (bank.get slot').map fun m => (f m).2 else bank.get slot' := by
  cases hm : bank.get slot with
  | error e =>
    have hask : ((onMemo slot f).ask bank).2 = bank := by
      rw [onMemo, ask, ExceptT.run_mk]
      simp only [StateT.run, hm]
    rw [hask]
    split
    · next heq =>
      subst heq
      rw [hm]
      rfl
    · rfl
  | ok m =>
    rw [ask_onMemo slot f hm, MemoBank.get_set]
    split
    · next heq =>
      subst heq
      rw [hm]
      rfl
    · rfl

end Query

/-- The deployment that a question is about, if it is about one, and the block below which. -/
def Question.named? : Question → Option (String × Option BlockId)
  | .phase name prev => some (name, prev)
  | .since name prev => some (name, prev)
  | .isActive name prev => some (name, prev)
  | .status name tip => some (name, tip)
  | .report _ => none
  | .nextVersion _ => none
  | .template _ _ => none
  | .alerts _ => none

namespace Survey

variable {s : Survey} {name : String} {prev : Option BlockId}

/-- The votes that a status shows are not remembered. -/
theorem memory_statusOf (bank : MemoBank) :
    ((s.statusOf name prev).ask bank).2 = ((s.standingOf name prev).ask bank).2 := by
  rw [statusOf, standingOf]
  cases s.entry name with
  | error e => rfl
  | ok entry =>
    exact Query.memory_bind (s.standingAt prev entry)
      (fun _ => (Query.silent_lift _).bind fun _ => Query.silent_pure _) bank

/-- A question about one deployment is silent, but for asking where the deployment stands. -/
theorem memory_of_named {q : Question} (settings : AlertSettings)
    (hq : q.named? = some (name, prev)) (bank : MemoBank) :
    ((q.query settings s).ask bank).2 = ((s.standingOf name prev).ask bank).2 := by
  cases q with
  | phase name' prev' =>
    obtain ⟨rfl, rfl⟩ := Prod.mk.inj (Option.some.inj hq)
    exact Query.memory_bind _ (fun _ => Query.silent_pure _) bank
  | since name' prev' =>
    obtain ⟨rfl, rfl⟩ := Prod.mk.inj (Option.some.inj hq)
    exact Query.memory_bind _ (fun _ => Query.silent_pure _) bank
  | isActive name' prev' =>
    obtain ⟨rfl, rfl⟩ := Prod.mk.inj (Option.some.inj hq)
    exact Query.memory_bind _ (fun _ => Query.silent_pure _) bank
  | status name' tip =>
    obtain ⟨rfl, rfl⟩ := Prod.mk.inj (Option.some.inj hq)
    exact memory_statusOf bank
  | report tip => exact absurd hq (by simp [Question.named?])
  | nextVersion tip => exact absurd hq (by simp [Question.named?])
  | template tip client => exact absurd hq (by simp [Question.named?])
  | alerts tip => exact absurd hq (by simp [Question.named?])

/-- To find a deployment by name is to find its position, and what is registered there. -/
theorem entry_eq_ok {i : Nat} {d : Deployment} (hposition : s.registry.position name = .ok i)
    (hd : s.registry.get name = .ok d) : s.entry name = .ok (d, i) := by
  rw [entry, hposition, hd]
  rfl

theorem entry_eq_error {e : Fault} (hposition : s.registry.position name = .error e) :
    s.entry name = .error e := by
  rw [entry, hposition]
  rfl

/-- A name with a position is the name of a deployment. -/
theorem exists_get {registry : Registry} {i : Nat} (hposition : registry.position name = .ok i) :
    ∃ d, registry.get name = .ok d := by
  rw [Registry.position] at hposition
  rw [Registry.get, List.find?_eq_bind_findIdx?_getElem?]
  cases hi : registry.deployments.findIdx? fun d => d.name == name with
  | none =>
    rw [hi] at hposition
    exact absurd hposition (by simp)
  | some j =>
    obtain ⟨hlt, -⟩ := List.findIdx?_eq_some_iff_getElem.mp hi
    rw [Option.bind_some, List.getElem?_eq_getElem hlt]
    exact ⟨_, rfl⟩

end Survey

/-- One deployment has been asked about, if there is one with the name, in one slot. -/
structure Tracker.AsksOne (before after : Tracker) (v : View) (name : String)
    (prev : Option BlockId) : Prop where
  settings_eq : after.settings = before.settings
  registry_eq : after.registry = before.registry
  /-- The memo at the deployment's position is what a question about its standing leaves. -/
  own : ∀ {i d}, before.registry.position name = .ok i → before.registry.get name = .ok d →
    after.bank.get (.deployment i) = (before.bank.get (.deployment i)).map fun m =>
      (v.standing before.settings.clock d.ballot prev m).2
  /-- Every other slot is as it was. -/
  others : ∀ {slot}, (∀ i, before.registry.position name = .ok i → slot ≠ .deployment i) →
    after.bank.get slot = before.bank.get slot

namespace Tracker

variable {t : Tracker} {v : View} {name : String} {prev : Option BlockId}

theorem asksOne_of_named {q : Question} (hq : q.named? = some (name, prev)) :
    t.AsksOne (t.answer v q).2 v name prev := by
  have hbank : (t.answer v q).2.bank = (((t.survey v).standingOf name prev).ask t.bank).2 :=
    Survey.memory_of_named t.settings.alerts hq t.bank
  refine ⟨rfl, rfl, fun {i d} hposition hd => ?_, fun {slot} hslot => ?_⟩
  · rw [hbank, Survey.standingOf, Survey.entry_eq_ok (s := t.survey v) hposition hd]
    refine (Query.get_memory_onMemo (.deployment i) _ _ t.bank).trans ?_
    rw [if_pos rfl]
    rfl
  · rw [hbank, Survey.standingOf]
    cases hposition : t.registry.position name with
    | error e =>
      rw [Survey.entry_eq_error (s := t.survey v) hposition]
      rfl
    | ok i =>
      obtain ⟨d, hd⟩ := Survey.exists_get hposition
      rw [Survey.entry_eq_ok (s := t.survey v) hposition hd]
      refine (Query.get_memory_onMemo (.deployment i) _ _ t.bank).trans ?_
      rw [if_neg fun heq => hslot i hposition heq.symm]

/-- Votes are counted without the memory. -/
theorem ask_tallyOf (t : Tracker) (v : View) (name : String) (tip : Option BlockId) :
    (t.ask v fun s => s.tallyOf name tip).2 = t := by
  have hsilent : Query.Silent ((t.survey v).tallyOf name tip) := by
    rw [Survey.tallyOf]
    exact (Query.silent_lift _).bind fun _ => Query.silent_lift _
  rw [Tracker.ask]
  exact congrArg (fun bank => { t with bank := bank }) (hsilent t.bank)

end Tracker

namespace BlockTree

/-- In every tree that has grown, with any ballot and clock, whatever a memo holds: a question
that is answered leaves every entry as it is, adds entries at closing blocks below `prev` only,
and remembers its answer at the latest of them, so that it can be asked again at no expense.
Whatever a bank holds, a question about one deployment does this to the memo of that
deployment, and leaves all others as they are. -/
theorem writes_confined (digest : Header → BlockHash) (acts : List Act) (prev : Option BlockId) :
    (∀ (clock : Clock) (ballot : Ballot) (m : Memo) (s : Standing) (after : Memo),
      (grown digest acts).view.standing clock ballot prev m = (.ok s, after) →
        (grown digest acts).Leaves clock ballot prev m s after) ∧
    ∀ (t : Tracker) (name : String),
      (∀ q : Question, q.named? = some (name, prev) →
        t.AsksOne (t.answer (grown digest acts).view q).2 (grown digest acts).view name prev) ∧
      (t.ask (grown digest acts).view fun s => s.tallyOf name prev).2 = t := by
  refine ⟨fun _ _ _ _ _ h => (sound_grown digest acts).leaves_of_standing h, fun t name => ?_⟩
  exact ⟨fun _ hq => Tracker.asksOne_of_named hq, t.ask_tallyOf _ name prev⟩

/-- A memo with an entry at a block of the row, which is not right and not needed on the
branch. -/
def strayMemo : Memo :=
  Memo.empty.insert 5 ⟨.failed, 2⟩

/-- The top of the branch is asked about.  The stray entry stays where it is, the answer is
remembered at the top, and the slot of the deployment is the only one to change. -/
theorem writes_confined_forked :
    (∃ after, (grown nonceDigest forkedActs).view.standing .blockTime pairBallot (some 10)
          strayMemo = (.ok ⟨.lockedIn, 8⟩, after) ∧
        after[5]? = some ⟨.failed, 2⟩ ∧ after[10]? = some ⟨.lockedIn, 8⟩ ∧
        (grown nonceDigest forkedActs).view.standing .blockTime pairBallot (some 10) after =
          (.ok ⟨.lockedIn, 8⟩, after)) ∧
      Session.pairSession.tracker.AsksOne
        (Session.pairSession.tracker.answer (grown nonceDigest forkedActs).view
          (.status "pair" (some 10))).2
        (grown nonceDigest forkedActs).view "pair" (some 10) := by
  have hconfined := writes_confined nonceDigest forkedActs (some 10)
  have hanswer : ((grown nonceDigest forkedActs).view.standing .blockTime pairBallot (some 10)
      strayMemo).1 = .ok ⟨.lockedIn, 8⟩ :=
    eq_ok_of_toOption (by decide +kernel)
  have hclosing : (grown nonceDigest forkedActs).view.closing pairBallot.period 10 =
      .ok (some 10) :=
    eq_ok_of_toOption (by decide +kernel)
  have hpair : (grown nonceDigest forkedActs).view.standing .blockTime pairBallot (some 10)
      strayMemo = (.ok ⟨.lockedIn, 8⟩, ((grown nonceDigest forkedActs).view.standing .blockTime
        pairBallot (some 10) strayMemo).2) :=
    Prod.ext hanswer rfl
  have hleaves := hconfined.1 .blockTime pairBallot strayMemo _ _ hpair
  have hstray : strayMemo[5]? = some ⟨.failed, 2⟩ := Memo.getElem?_insert_self _ 5 _
  exact ⟨⟨_, hpair, hleaves.writes.kept hstray, hleaves.answer rfl hclosing, hleaves.again⟩,
    (hconfined.2 Session.pairSession.tracker "pair").1 (.status "pair" (some 10)) rfl⟩

end BlockTree
end SoftFork
