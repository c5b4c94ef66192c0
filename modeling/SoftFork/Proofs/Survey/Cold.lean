import Mathlib.Data.List.Basic
import SoftFork.Proofs.Rule.Admission
import SoftFork.Proofs.Signal.Bits
import SoftFork.Proofs.Survey.Steady

/-!
# What cold answers come to

A steady question may be asked with nothing remembered, and then it is a computation on the
history alone.  Here the questions that are put together from standings are taken apart once, so
that nobody has to look at the memory again.

A deployment is asked about by its name or by its place in the registry.  The name leads to the
place, and in a registry in which names differ every place is led to by its own name
(`entry_of_mem`); both ways then come to the same slot.

The version of the next block is a loop over all the deployments.  When it is answered every one
of them has a standing, and of the bits that can be voted with exactly those are set whose
deployment signals (`of_cold_nextVersion`).
-/

namespace SoftFork
namespace Survey

variable {s : Survey} {α β : Type}

/-! ## Places and names -/

theorem ballot?_of_mem_entries {entry : Deployment × Nat} (hentry : entry ∈ s.entries) :
    s.registry.ballot? (.deployment entry.2) = some entry.1.ballot := by
  rw [Registry.ballot?, List.mem_zipIdx_iff_getElem?.mp hentry]
  rfl

theorem mem_deployments {entry : Deployment × Nat} (hentry : entry ∈ s.entries) :
    entry.1 ∈ s.registry.deployments :=
  List.mem_of_getElem? (List.mem_zipIdx_iff_getElem?.mp hentry)

/-- Every deployment has a place. -/
theorem exists_entry {d : Deployment} (hd : d ∈ s.registry.deployments) :
    ∃ i, (d, i) ∈ s.entries := by
  obtain ⟨i, hi⟩ := List.mem_iff_getElem?.mp hd
  exact ⟨i, List.mk_mem_zipIdx_iff_getElem?.mpr hi⟩

/-- In a registry that has been put together a name leads to the place of its deployment. -/
theorem entry_of_mem (hr : s.registry.Valid) {entry : Deployment × Nat}
    (hentry : entry ∈ s.entries) : s.entry entry.1.name = .ok entry := by
  obtain ⟨d, i⟩ := entry
  have hi : s.registry.deployments[i]? = some d := List.mk_mem_zipIdx_iff_getElem?.mp hentry
  obtain ⟨hlt, hget⟩ := List.getElem?_eq_some_iff.mp hi
  have hposition : (s.registry.deployments.findIdx? fun e => e.name == d.name) = some i := by
    rw [List.findIdx?_eq_some_iff_getElem]
    refine ⟨hlt, by rw [hget, beq_self_eq_true], fun j hj => ?_⟩
    have hne := (List.pairwise_iff_getElem.mp hr.compatible j i (by omega) hlt hj).name_ne
    rw [hget] at hne
    simpa using hne
  rw [Survey.entry, Registry.position, Registry.get, List.find?_eq_bind_findIdx?_getElem?]
  simp only [hposition, Option.bind_some, hi]
  rfl

/-! ## Standings -/

theorem cold_lift_bind (r : Except Fault α) (f : α → Query β) :
    s.cold (liftM r >>= f) = r >>= fun a => s.cold (f a) := by
  cases r <;> rfl

theorem cold_entry {name : String} {entry : Deployment × Nat} (h : s.entry name = .ok entry)
    (f : Deployment × Nat → Query α) :
    s.cold (do let entry ← s.entry name; f entry) = s.cold (f entry) := by
  rw [cold_lift_bind, h, ok_bind]

theorem cold_standingAt {entry : Deployment × Nat} (hentry : entry ∈ s.entries)
    (prev : Option BlockId) : s.cold (s.standingAt prev entry) =
      (s.view.standing s.clock entry.1.ballot prev .empty).1 := by
  rw [standingAt, cold_standing (ballot?_of_mem_entries hentry)]

/-- A question about a deployment's standing, asked by name. -/
theorem cold_standingOf (hv : s.view.Lawful) (hr : s.registry.Valid) {entry : Deployment × Nat}
    (hentry : entry ∈ s.entries) (prev : Option BlockId) (f : Standing → β) :
    s.cold (do return f (← s.standingOf entry.1.name prev)) =
      s.cold (s.standingAt prev entry) >>= fun standing => .ok (f standing) := by
  rw [Steady.cold_bind (Steady.standingOf hv _ prev) fun _ => Steady.pure _, standingOf,
    cold_entry (entry_of_mem hr hentry)]
  rfl

/-! ## Loops -/

/-- A loop that asks one question in every round, with nothing remembered. -/
theorem Steady.cold_loop {γ : Type} {q : γ → Query α} {g : β → γ → α → β} :
    ∀ {l : List γ} {b : β}, (∀ c ∈ l, s.Steady (q c)) →
      s.cold (l.foldlM (fun b c => do return g b c (← q c)) b) =
        l.foldlM (fun b c => s.cold (q c) >>= fun a => .ok (g b c a)) b
  | [], _, _ => rfl
  | c :: l, b, hq => by
    have hrest : ∀ c' ∈ l, s.Steady (q c') := fun c' hc' => hq c' (List.mem_cons_of_mem c hc')
    have hloop : ∀ b, s.Steady (l.foldlM (fun b c => do return g b c (← q c)) b) :=
      fun _ => Steady.foldlM fun c' hc' _ => (hrest c' hc').bind fun _ => Steady.pure _
    rw [List.foldlM_cons, List.foldlM_cons,
      cold_bind ((hq c List.mem_cons_self).bind fun _ => Steady.pure _) hloop,
      cold_bind (hq c List.mem_cons_self) fun _ => Steady.pure _]
    cases s.cold (q c) with
    | error e => rfl
    | ok a => exact cold_loop hrest

/-! ## The version of the next block -/

/-- The version that is advised for the block after the one with the given number. -/
def advised (s : Survey) (id : BlockId) : Except Fault UInt32 :=
  s.cold (s.nextVersion (some id))

/-- Whether the block that follows `prev` votes for a deployment. -/
def votesFor (s : Survey) (prev : Option BlockId) (entry : Deployment × Nat) : Bool :=
  match s.cold (s.standingAt prev entry) with
  | .ok standing => standing.phase.isSignalling
  | .error _ => false

theorem votesFor_iff {prev : Option BlockId} {entry : Deployment × Nat} :
    s.votesFor prev entry = true ↔ ∃ standing, s.cold (s.standingAt prev entry) = .ok standing ∧
      standing.phase.isSignalling = true := by
  rw [votesFor]
  cases s.cold (s.standingAt prev entry) with
  | error e => simp
  | ok standing => exact ⟨fun h => ⟨standing, rfl, h⟩, fun ⟨_, heq, h⟩ => Except.ok.inj heq ▸ h⟩

/-- The version of the next block, or the first refusal of a standing that it depends on. -/
theorem cold_nextVersion (hv : s.view.Lawful) (prev : Option BlockId) :
    ((∀ entry ∈ s.entries, ∃ standing, s.cold (s.standingAt prev entry) = .ok standing) ∧
      s.cold (s.nextVersion prev) = .ok (s.entries.foldl (fun version entry =>
        (s.cold (s.standingAt prev entry)).toOption.elim version fun standing =>
          if standing.phase.isSignalling then version ||| entry.1.mask else version)
        Version.topBits)) ∨
    ∃ before entry after e, s.entries = before ++ entry :: after ∧
      (∀ earlier ∈ before, ∃ standing, s.cold (s.standingAt prev earlier) = .ok standing) ∧
      s.cold (s.standingAt prev entry) = .error e ∧ s.cold (s.nextVersion prev) = .error e := by
  rw [nextVersion, Steady.cold_loop fun _ hentry => Steady.standingAt hv hentry prev]
  exact foldlM_cases _ _ _ _

/-- Before genesis nothing is voted on. -/
theorem cold_nextVersion_none (s : Survey) (hv : s.view.Lawful) :
    s.cold (s.nextVersion none) = .ok Version.topBits := by
  have hinitial : ∀ entry ∈ s.entries, s.cold (s.standingAt none entry) = .ok .initial :=
    fun _ hentry => cold_standingAt hentry none
  rcases cold_nextVersion hv none with ⟨-, hversion⟩ | ⟨before, entry, after, e, hsplit, -, he, -⟩
  · rw [hversion, List.foldl_ext _ (fun version _ => version) _ fun version entry hentry => ?_,
      List.foldl_fixed]
    rw [hinitial entry hentry]
    rfl
  · rw [hinitial entry (by rw [hsplit]; exact List.mem_append_right _ List.mem_cons_self)] at he
    exact absurd he (by simp)

/-- The version of the next block is a ballot paper, and of the bits that can be voted with it
has those whose deployment signals. -/
theorem of_cold_nextVersion (hv : s.view.Lawful) (hr : s.registry.Valid) {prev : Option BlockId}
    {version : UInt32} (h : s.cold (s.nextVersion prev) = .ok version) :
    Version.isBallot version = true ∧ ∀ i < Version.bitCount,
      (version.toNat.testBit i = true ↔ ∃ entry ∈ s.entries, entry.1.bit.toNat = i ∧
        ∃ standing, s.cold (s.standingAt prev entry) = .ok standing ∧
          standing.phase.isSignalling = true) := by
  have hbits : ∀ entry ∈ s.entries, entry.1.bit.toNat < Version.bitCount :=
    fun _ hentry => (hr.sound _ (mem_deployments hentry)).bit_lt
  rcases cold_nextVersion hv prev with ⟨hall, hversion⟩ | ⟨_, _, _, e, -, -, -, he⟩
  · have hfold : version = s.entries.foldl (fun version entry =>
        if s.votesFor prev entry then version ||| Version.mask entry.1.bit else version)
        Version.topBits := by
      rw [hversion] at h
      rw [← Except.ok.inj h]
      refine List.foldl_ext _ _ _ fun version entry hentry => ?_
      obtain ⟨standing, hstanding⟩ := hall entry hentry
      rw [votesFor, hstanding]
      rfl
    refine ⟨?_, fun i hi => ?_⟩
    · rw [hfold, Version.isBallot_foldl hbits]
      decide
    · rw [hfold, Version.testBit_foldl fun entry hentry =>
        Nat.lt_trans (hbits entry hentry) (by decide), Version.testBit_topBits hi,
        or_iff_right (by decide)]
      simp only [votesFor_iff, and_comm]
  · rw [he] at h
    exact absurd h (by simp)

/-- A deployment that signals has its bit set in the version of the next block. -/
theorem signals_of_isSignalling (hv : s.view.Lawful) (hr : s.registry.Valid) {prev : Option BlockId}
    {version : UInt32} (h : s.cold (s.nextVersion prev) = .ok version) {entry : Deployment × Nat}
    (hentry : entry ∈ s.entries) {standing : Standing}
    (hstanding : s.cold (s.standingAt prev entry) = .ok standing)
    (hsignals : standing.phase.isSignalling = true) :
    Version.signals version entry.1.bit = true := by
  obtain ⟨hballot, hbits⟩ := of_cold_nextVersion hv hr h
  have hbit := (hr.sound _ (mem_deployments hentry)).bit_lt
  refine (Version.signals_iff (Nat.lt_trans hbit (by decide))).mpr ⟨hballot, ?_⟩
  exact (hbits _ hbit).mpr ⟨entry, hentry, rfl, standing, hstanding, hsignals⟩

/-! ## Counting unexpected versions -/

/-- A count of blocks is a judgement on the last of them and a count of the others. -/
theorem unexpectedVersions_succ (s : Survey) {id : BlockId} {b : Block}
    (hb : s.view.block? id = some b) (window : Nat) :
    s.unexpectedVersions (window + 1) (some id) = (do
      let expected ← s.nextVersion b.parent
      let rest ← s.unexpectedVersions window b.parent
      return (if Version.isUnexpected b.version expected then 1 else 0) + rest) := by
  rw [unexpectedVersions, View.get_eq_ok hb]
  rfl

theorem cold_unexpectedVersions_succ (s : Survey) (hv : s.view.Lawful) {id : BlockId} {b : Block}
    (hb : s.view.block? id = some b) (window : Nat) :
    s.cold (s.unexpectedVersions (window + 1) (some id)) =
      s.cold (s.nextVersion b.parent) >>= fun expected =>
        s.cold (s.unexpectedVersions window b.parent) >>= fun rest =>
          .ok ((if Version.isUnexpected b.version expected then 1 else 0) + rest) := by
  have hrest := Steady.unexpectedVersions hv window b.parent
  rw [unexpectedVersions_succ s hb, Steady.cold_bind (Steady.nextVersion hv b.parent) fun _ =>
    hrest.bind fun _ => Steady.pure _]
  congr 1
  funext expected
  rw [Steady.cold_bind hrest fun _ => Steady.pure _]
  rfl

end Survey

/-- The survey of a registry's deployments in a tree. -/
def BlockTree.survey (t : BlockTree) (registry : Registry) (clock : Clock) : Survey :=
  ⟨registry, clock, t.view⟩

end SoftFork
