import SoftFork.Proofs.Standing.Replay
import SoftFork.Proofs.Survey.Agreement

/-!
# Where all the deployments stand

Some questions ask about every deployment in turn and make something of the phases: the version of
the next block, and what a client is told.  A question of this kind is refused when one of the
standings is, so it can be taken apart in two steps.  Either every deployment is `Answered`, and
then there is one list of phases, `phaseOf`, of which the answer is a plain function; or there is
no answer.  The version is such a function (`voted`).  It sets the bits of those that signal,
beside the lowest of the top three bits, and no other bit at all (`testBit_voted`).

At genesis, and at every block whose links lead there, every deployment is answered, whatever the
clock and the times of the blocks are (`BlockTree.Sound.answered`).
-/

namespace SoftFork
namespace Survey

variable {s : Survey} {prev : Option BlockId}

/-- Every deployment has a standing for the block that follows `prev`. -/
def Answered (s : Survey) (prev : Option BlockId) : Prop :=
  ∀ entry ∈ s.entries, ∃ standing, s.cold (s.standingAt prev entry) = .ok standing

/-- The phase of a deployment for the block that follows `prev`, if there is an answer. -/
def phaseOf (s : Survey) (prev : Option BlockId) (d : Deployment) : Phase :=
  match s.cold (s.standingOf d.name prev) with
  | .ok standing => standing.phase
  | .error _ => .defined

theorem phaseOf_eq (hr : s.registry.Valid) {entry : Deployment × Nat} (hentry : entry ∈ s.entries)
    {standing : Standing} (h : s.cold (s.standingAt prev entry) = .ok standing) :
    s.phaseOf prev entry.1 = standing.phase := by
  have hcold : s.cold (s.standingOf entry.1.name prev) = s.cold (s.standingAt prev entry) :=
    cold_entry (entry_of_mem hr hentry) _
  rw [phaseOf, hcold, h]

theorem Answered.exists_since (h : s.Answered prev) (hr : s.registry.Valid)
    {entry : Deployment × Nat} (hentry : entry ∈ s.entries) :
    ∃ since, s.cold (s.standingAt prev entry) = .ok ⟨s.phaseOf prev entry.1, since⟩ := by
  obtain ⟨standing, hstanding⟩ := h entry hentry
  rw [phaseOf_eq hr hentry hstanding]
  exact ⟨standing.since, hstanding⟩

theorem entries_map_fst (s : Survey) : s.entries.map Prod.fst = s.registry.deployments := by
  rw [entries, List.zipIdx_map_fst]

/-! ## The version of the next block -/

/-- The version with the bits of those that signal. -/
def voted (s : Survey) (prev : Option BlockId) : UInt32 :=
  s.registry.deployments.foldl (fun version d =>
    if (s.phaseOf prev d).isSignalling then version ||| Version.mask d.bit else version)
    Version.topBits

theorem cold_nextVersion_of_answered (hv : s.view.Lawful) (hr : s.registry.Valid)
    (h : s.Answered prev) : s.cold (s.nextVersion prev) = .ok (s.voted prev) := by
  rcases cold_nextVersion hv prev with ⟨-, hversion⟩ | ⟨before, entry, after, e, hsplit, -, he, -⟩
  · rw [hversion, voted, ← s.entries_map_fst, List.foldl_map]
    refine congrArg Except.ok (List.foldl_ext _ _ _ fun version entry hentry => ?_)
    obtain ⟨since, hstanding⟩ := h.exists_since hr hentry
    rw [hstanding]
    rfl
  · obtain ⟨standing, hstanding⟩ := h entry (by
      rw [hsplit]
      exact List.mem_append_right _ List.mem_cons_self)
    rw [he] at hstanding
    exact absurd hstanding (by simp)

/-- When there is a version of the next block all the deployments have been asked about. -/
theorem answered_of_nextVersion (hv : s.view.Lawful) {version : UInt32}
    (h : s.cold (s.nextVersion prev) = .ok version) : s.Answered prev := by
  rcases cold_nextVersion hv prev with ⟨hall, -⟩ | ⟨_, _, _, e, -, -, -, he⟩
  · exact hall
  · rw [he] at h
    exact absurd h (by simp)

theorem isBallot_voted (hr : s.registry.Valid) : Version.isBallot (s.voted prev) = true := by
  rw [voted, Version.isBallot_foldl fun d hd => (hr.sound d hd).bit_lt]
  decide

/-- The bits of the version are those of the deployments that signal, beside the top. -/
theorem testBit_voted (hr : s.registry.Valid) (i : Nat) :
    (s.voted prev).toNat.testBit i = true ↔ Version.topBits.toNat.testBit i = true ∨
      ∃ d ∈ s.registry.deployments, (s.phaseOf prev d).isSignalling = true ∧ d.bit.toNat = i :=
  Version.testBit_foldl
    (fun d hd => Nat.lt_trans (hr.sound d hd).bit_lt (by decide)) i

end Survey

/-- Where links lead down to genesis there is an answer about every deployment. -/
theorem BlockTree.Sound.answered {t : BlockTree} (ht : t.Sound) {registry : Registry}
    (hr : registry.Valid) (clock : Clock) {prev : Option BlockId} {past : Past}
    (hpast : PastBefore t.block? prev past) (hroot : past.Rooted) :
    (t.survey registry clock).Answered prev := by
  intro entry hentry
  have hperiod := (hr.sound _ (Survey.mem_deployments hentry)).period_pos
  rw [Survey.cold_standingAt hentry]
  exact View.exists_standing_of_rooted ht.lawful_view hpast hroot clock hperiod

namespace Session

variable {s : Session} {settings : Settings} {registry : Registry} {prev : Option BlockId}

/-- A session replies with the phase of a deployment when it is asked for it by name. -/
def RepliesPhase (s : Session) (prev : Option BlockId) (d : Deployment) (phase : Phase) : Prop :=
  s.Replies (fun s => do return (← s.standingOf d.name prev).phase) (.ok phase)

theorem InOrder.repliesPhase (hs : s.InOrder settings registry) (hr : registry.Valid)
    (h : (s.tree.survey registry settings.clock).Answered prev) {d : Deployment}
    (hd : d ∈ registry.deployments) :
    s.RepliesPhase prev d ((s.tree.survey registry settings.clock).phaseOf prev d) := by
  have hv : (s.tree.survey registry settings.clock).view.Lawful := hs.tree.lawful_view
  obtain ⟨i, hentry⟩ := Survey.exists_entry (s := s.tree.survey registry settings.clock) hd
  obtain ⟨since, hstanding⟩ := h.exists_since hr hentry
  have hreplies := hs.replies (q := fun s => do return (← s.standingOf d.name prev).phase)
    ((Survey.Steady.standingOf hv d.name prev).bind fun _ => .pure _)
  rw [Survey.cold_standingOf hv hr hentry, hstanding] at hreplies
  exact hreplies

/-- While nothing happens but that the tree grows, it grows as it does by itself. -/
theorem tree_foldl_grow (digest : Header → BlockHash) (acts : List BlockTree.Act) (s : Session) :
    ((acts.map .grow).foldl (after digest) s).tree =
      acts.foldl (BlockTree.after digest) s.tree := by
  induction acts generalizing s with
  | nil => rfl
  | cons act acts ih => exact ih _

/-- The forked tree, with a tracker for some deployments that has been asked nothing yet. -/
def forkedSession (deployments : List Deployment) : Session :=
  played BlockTree.nonceDigest (.withRegistry { clock := .blockTime } ⟨⟨2, 2⟩, deployments⟩)
    (BlockTree.forkedActs.map .grow)

theorem inOrder_forkedSession (deployments : List Deployment) :
    (forkedSession deployments).InOrder { clock := .blockTime } ⟨⟨2, 2⟩, deployments⟩ :=
  inOrder_run BlockTree.nonceDigest { clock := .blockTime } ⟨⟨2, 2⟩, deployments⟩
    (BlockTree.forkedActs.map .grow)

theorem tree_forkedSession (deployments : List Deployment) :
    (forkedSession deployments).tree =
      BlockTree.grown BlockTree.nonceDigest BlockTree.forkedActs := by
  rw [forkedSession, played, tree_foldl_grow, BlockTree.grown]

end Session
end SoftFork
