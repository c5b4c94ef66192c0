import SoftFork.Survey.Alerts
import SoftFork.Survey.Status
import SoftFork.Proofs.Standing.Coherence

/-!
# Answers do not depend on the memory

A question is `Steady` when every coherent memory gives it one and the same
answer, refusals included, and is coherent afterwards.

A question about one standing is steady because a faithful memo does not show in
the answer.  Whatever is put together from steady questions is steady too: the
answer of the first determines which one comes next, and finds a coherent memory.
So steadiness goes through every `do` block and every loop, and the questions
about deployments have it, one after the other, by following how they are built.
What the deployments are does not matter; they need not even be valid.

A steady question has one answer, and `cold` gives it: the answer with nothing
remembered.  The memory that is handed on from step to step can then be forgotten
(`Steady.cold_bind`, `Steady.cold_foldlM`).
-/

namespace SoftFork
namespace Query

variable {α β : Type}

theorem ask_bind (q : Query α) (f : α → Query β) (bank : MemoBank) :
    (q >>= f).ask bank =
      match q.ask bank with
      | (.ok a, after) => (f a).ask after
      | (.error e, after) => (.error e, after) := by
  have hrun : (q >>= f).ask bank = (ExceptT.bindCont f (q.ask bank).1).run (q.ask bank).2 := rfl
  rw [hrun]
  cases q.ask bank with
  | mk r after => cases r <;> rfl

theorem ask_onMemo (slot : Slot) (f : Memo → Except Fault α × Memo) {bank : MemoBank} {m : Memo}
    (hm : bank.get slot = .ok m) :
    (onMemo slot f).ask bank = ((f m).1, bank.set slot (f m).2) := by
  rw [onMemo, ask, ExceptT.run_mk]
  simp only [StateT.run, hm]

end Query

namespace Survey

variable {s : Survey} {α β : Type}

/-- Every coherent memory gives the question the same answer, and is coherent after
it. -/
def Steady (s : Survey) (q : Query α) : Prop :=
  ∃ r, ∀ bank : MemoBank, bank.Coherent s.registry s.clock s.view →
    (q.ask bank).1 = r ∧ (q.ask bank).2.Coherent s.registry s.clock s.view

namespace Steady

/-! ## How questions are put together -/

theorem lift (r : Except Fault α) : s.Steady (liftM r : Query α) :=
  ⟨r, fun _ h => ⟨rfl, h⟩⟩

theorem pure (a : α) : s.Steady (Pure.pure a : Query α) :=
  ⟨.ok a, fun _ h => ⟨rfl, h⟩⟩

theorem bind {q : Query α} {f : α → Query β} (hq : s.Steady q) (hf : ∀ a, s.Steady (f a)) :
    s.Steady (q >>= f) := by
  obtain ⟨r, hr⟩ := hq
  cases r with
  | error e =>
    refine ⟨.error e, fun bank hbank => ?_⟩
    obtain ⟨hanswer, hafter⟩ := hr bank hbank
    rw [Query.ask_bind]
    cases hask : q.ask bank with
    | mk r after =>
      rw [hask] at hanswer hafter
      subst hanswer
      exact ⟨rfl, hafter⟩
  | ok a =>
    obtain ⟨r', hr'⟩ := hf a
    refine ⟨r', fun bank hbank => ?_⟩
    obtain ⟨hanswer, hafter⟩ := hr bank hbank
    rw [Query.ask_bind]
    cases hask : q.ask bank with
    | mk r after =>
      rw [hask] at hanswer hafter
      subst hanswer
      exact hr' after hafter

theorem foldlM {γ : Type} {f : β → γ → Query β} : ∀ {l : List γ} {b : β},
    (∀ c ∈ l, ∀ b, s.Steady (f b c)) → s.Steady (l.foldlM f b)
  | [], b, _ => pure b
  | c :: l, b, hf => by
    rw [List.foldlM_cons]
    refine (hf c List.mem_cons_self b).bind fun b' => ?_
    exact foldlM fun c' hc' => hf c' (List.mem_cons_of_mem c hc')

/-! ## Questions about standings -/

/-- The standing of a ballot, asked for with the memo of its own slot. -/
theorem standing (hv : s.view.Lawful) {slot : Slot} {ballot : Ballot}
    (hballot : s.registry.ballot? slot = some ballot) (prev : Option BlockId) :
    s.Steady (s.standing slot ballot prev) := by
  refine ⟨s.view.verdict s.clock ballot prev, fun bank hbank => ?_⟩
  obtain ⟨m, hm⟩ := hbank.exists_memo hballot
  obtain ⟨ballot', hballot', hfaithful⟩ := hbank.faithful hm
  rw [hballot] at hballot'
  obtain rfl := Option.some.inj hballot'
  obtain ⟨hanswer, hafter⟩ := View.standing_eq_verdict hv hfaithful prev
  rw [Survey.standing, Query.ask_onMemo slot _ hm]
  exact ⟨hanswer, hbank.set hballot hafter⟩

theorem standingAt (hv : s.view.Lawful) {entry : Deployment × Nat} (hentry : entry ∈ s.entries)
    (prev : Option BlockId) : s.Steady (s.standingAt prev entry) := by
  refine standing hv ?_ prev
  rw [Registry.ballot?, List.mem_zipIdx_iff_getElem?.mp hentry]
  rfl

end Steady

/-- The deployment with a name is an entry, at the position of the name. -/
theorem entry_mem {name : String} {entry : Deployment × Nat} (h : s.entry name = .ok entry) :
    entry ∈ s.entries := by
  rw [Survey.entry, Registry.position, Registry.get, List.find?_eq_bind_findIdx?_getElem?] at h
  cases hi : s.registry.deployments.findIdx? fun d => d.name == name with
  | none =>
    rw [hi] at h
    exact absurd h (by simp)
  | some i =>
    rw [hi] at h
    cases hd : s.registry.deployments[i]? with
    | none =>
      simp only [Option.bind_some, hd, ok_bind, error_bind] at h
      exact absurd h (by simp)
    | some d =>
      simp only [Option.bind_some, hd, ok_bind, pure_eq_ok] at h
      obtain rfl := Except.ok.inj h
      exact List.mk_mem_zipIdx_iff_getElem?.mpr hd

namespace Steady

/-- A question about an entry, asked by name. -/
theorem entry (name : String) {f : Deployment × Nat → Query α}
    (hf : ∀ entry ∈ s.entries, s.Steady (f entry)) :
    s.Steady (do let entry ← s.entry name; f entry) := by
  cases hentry : s.entry name with
  | error e => exact lift (.error e)
  | ok entry => exact hf entry (entry_mem hentry)

theorem standingOf (hv : s.view.Lawful) (name : String) (prev : Option BlockId) :
    s.Steady (s.standingOf name prev) :=
  entry name fun _ hentry => standingAt hv hentry prev

theorem isActive (hv : s.view.Lawful) (name : String) (prev : Option BlockId) :
    s.Steady (s.isActive name prev) :=
  (standingOf hv name prev).bind fun _ => pure _

theorem statusAt (hv : s.view.Lawful) {entry : Deployment × Nat} (hentry : entry ∈ s.entries)
    (tip : Option BlockId) : s.Steady (s.statusAt tip entry) :=
  (standingAt hv hentry tip).bind fun _ => (lift _).bind fun _ => pure _

theorem statusOf (hv : s.view.Lawful) (name : String) (tip : Option BlockId) :
    s.Steady (s.statusOf name tip) :=
  entry name fun _ hentry => statusAt hv hentry tip

theorem report (hv : s.view.Lawful) (tip : Option BlockId) : s.Steady (s.report tip) :=
  foldlM fun _ hentry _ => (statusAt hv hentry tip).bind fun _ => pure _

theorem nextVersion (hv : s.view.Lawful) (prev : Option BlockId) :
    s.Steady (s.nextVersion prev) :=
  foldlM fun _ hentry _ => (standingAt hv hentry prev).bind fun _ => pure _

theorem template (hv : s.view.Lawful) (tip : Option BlockId) (client : List String) :
    s.Steady (s.template tip client) :=
  (nextVersion hv tip).bind fun _ =>
    foldlM fun _ hentry _ => (standingAt hv hentry tip).bind fun _ => lift _

/-! ## Questions about unknown rules -/

theorem unknownRules (hv : s.view.Lawful) (tip : Option BlockId) :
    s.Steady (s.unknownRules tip) := by
  refine foldlM fun bit hbit _ => (standing hv ?_ tip).bind fun _ => pure _
  have hlt : bit < Version.bitCount := List.mem_range.mp (List.mem_filter.mp hbit).1
  rw [Registry.ballot?, if_pos hlt]

theorem unexpectedVersions (hv : s.view.Lawful) (window : Nat) :
    ∀ tip : Option BlockId, s.Steady (s.unexpectedVersions window tip) := by
  induction window with
  | zero => exact fun _ => pure 0
  | succ window ih =>
    intro tip
    cases tip with
    | none => exact pure 0
    | some id =>
      exact (lift _).bind fun b => (nextVersion hv b.parent).bind fun _ =>
        (ih b.parent).bind fun _ => pure _

theorem alerts (hv : s.view.Lawful) (settings : AlertSettings) (tip : Option BlockId) :
    s.Steady (s.alerts settings tip) := by
  rw [Survey.alerts]
  split
  · exact (unknownRules hv tip).bind fun _ =>
      (unexpectedVersions hv settings.window.toNat tip).bind fun _ => pure _
  · exact pure _

end Steady

/-! ## Cold answers -/

/-- The answer with nothing remembered. -/
def cold (s : Survey) (q : Query α) : Except Fault α :=
  (q.ask (.empty s.registry.deployments.length)).1

theorem cold_standing {slot : Slot} {ballot : Ballot}
    (hballot : s.registry.ballot? slot = some ballot) (prev : Option BlockId) :
    s.cold (s.standing slot ballot prev) = (s.view.standing s.clock ballot prev .empty).1 := by
  rcases MemoBank.get_empty s.registry slot with ⟨_, -, hget⟩ | ⟨hnone, -⟩
  · rw [cold, Survey.standing, Query.ask_onMemo slot _ hget]
  · rw [hnone] at hballot
    exact absurd hballot (by simp)

namespace Steady

theorem answer_eq_cold {q : Query α} (hq : s.Steady q) {bank : MemoBank}
    (hbank : bank.Coherent s.registry s.clock s.view) : (q.ask bank).1 = s.cold q := by
  obtain ⟨r, hr⟩ := hq
  rw [(hr bank hbank).1, cold, (hr _ MemoBank.coherent_empty).1]

theorem cold_bind {q : Query α} {f : α → Query β} (hq : s.Steady q)
    (hf : ∀ a, s.Steady (f a)) : s.cold (q >>= f) = s.cold q >>= fun a => s.cold (f a) := by
  have hempty : (MemoBank.empty s.registry.deployments.length).Coherent s.registry s.clock
      s.view := MemoBank.coherent_empty
  obtain ⟨r, hr⟩ := hq
  have hafter := (hr _ hempty).2
  rw [cold, cold, Query.ask_bind]
  cases hask : q.ask (.empty s.registry.deployments.length) with
  | mk r' after =>
    rw [hask] at hafter
    cases r' with
    | error e => rfl
    | ok a => exact (hf a).answer_eq_cold hafter

theorem cold_foldlM {γ : Type} {f : β → γ → Query β} : ∀ {l : List γ} {b : β},
    (∀ c ∈ l, ∀ b, s.Steady (f b c)) →
      s.cold (l.foldlM f b) = l.foldlM (fun b c => s.cold (f b c)) b
  | [], _, _ => rfl
  | c :: l, b, hf => by
    have hrest : ∀ c' ∈ l, ∀ b', s.Steady (f b' c') :=
      fun c' hc' => hf c' (List.mem_cons_of_mem c hc')
    rw [List.foldlM_cons, List.foldlM_cons,
      cold_bind (hf c List.mem_cons_self b) fun b' => foldlM hrest]
    congr 1
    funext b'
    exact cold_foldlM hrest

end Steady
end Survey
end SoftFork
