import SoftFork.Proofs.Standing.Forward

/-!
# Since when a phase applies

A standing carries the height of the first block to which its phase applied.  The
height is not looked for: it is put down when the phase moves, remembered with the
phase, and handed on from there.  What it ought to be can be looked for, by asking
about the parent of a block, and about the parent of that, until another phase is
answered or there is no block left.  `firstHeight` does so, and it uses and extends
a memory like everybody else.

The two agree (`since_eq_firstHeight`), at every block whose links lead to genesis.
A block leaves the standing below it as it is, with its height, or the phase moves
there, and then the height is that of the next block (`Past.replay_snoc`).  When it
moves it has changed, because every arrow leads upwards; so the search ends there and
not before.

The search fills its memory on the way down, and asks at blocks that the first question
did not come to.  Neither matters, because memories that questions have filled do not
show.
-/

namespace SoftFork
namespace View

/-- Back from `prev` in so many steps at most, as long as the phase that is answered stays the
same: the height of the first block with this phase.  The block after nothing is genesis. -/
def scanBack (v : View) (clock : Clock) (ballot : Ballot) (phase : Phase) :
    Nat → Option BlockId → Memo → Except Fault Nat × Memo
  | _, none, m => (.ok 0, m)
  | 0, some id, m => (.error (.unknownBlock id), m)
  | steps + 1, some id, m =>
    match v.get id with
    | .error e => (.error e, m)
    | .ok b =>
      match v.standing clock ballot b.parent m with
      | (.error e, m) => (.error e, m)
      | (.ok s, m) =>
        if s.phase = phase then v.scanBack clock ballot phase steps b.parent m
        else (.ok (b.height + 1), m)

/-- The height of the first block to which the phase applies that the block after `prev` has,
found by asking about one block after the other, so many at most. -/
def firstHeight (v : View) (clock : Clock) (ballot : Ballot) (steps : Nat) (prev : Option BlockId)
    (m : Memo) : Except Fault Nat × Memo :=
  match v.standing clock ballot prev m with
  | (.error e, m) => (.error e, m)
  | (.ok s, m) => v.scanBack clock ballot s.phase steps prev m

section Step

variable {v : View} {clock : Clock} {ballot : Ballot} {id : BlockId} {b : Block} {m after : Memo}
  {s : Standing} {phase : Phase}

theorem scanBack_of_same (hb : v.block? id = some b)
    (hask : v.standing clock ballot b.parent m = (.ok s, after)) (hsame : s.phase = phase)
    (steps : Nat) :
    v.scanBack clock ballot phase (steps + 1) (some id) m =
      v.scanBack clock ballot phase steps b.parent after := by
  rw [scanBack, get_eq_ok hb]
  simp only [hask, hsame, if_true]

theorem scanBack_of_other (hb : v.block? id = some b)
    (hask : v.standing clock ballot b.parent m = (.ok s, after)) (hother : s.phase ≠ phase)
    (steps : Nat) :
    v.scanBack clock ballot phase (steps + 1) (some id) m = (.ok (b.height + 1), after) := by
  rw [scanBack, get_eq_ok hb]
  simp only [hask, hother, if_false]

theorem firstHeight_eq {prev : Option BlockId}
    (hask : v.standing clock ballot prev m = (.ok s, after)) (steps : Nat) :
    v.firstHeight clock ballot steps prev m =
      v.scanBack clock ballot s.phase steps prev after := by
  rw [firstHeight, hask]

end Step

end View

namespace Past

variable {past : Past} {clock : Clock} {ballot : Ballot}

/-- The height in a standing is where a period begins, and not above the next block. -/
theorem replay_since (hroot : Rooted past) :
    ballot.period ∣ (replay past clock ballot).since ∧
      (replay past clock ballot).since ≤ past.length := by
  induction past using List.reverseRecOn with
  | nil =>
    rw [replay_nil]
    exact ⟨Nat.dvd_zero _, Nat.le_refl 0⟩
  | append_singleton before b ih =>
    obtain ⟨hdvd, hle⟩ := ih hroot.of_append
    rw [List.length_append, List.length_singleton]
    rcases (replay_snoc hroot : replay (before ++ [b]) clock ballot = _ ∨ _) with
      hsame | ⟨hclosed, hsince, -⟩
    · rw [hsame]
      exact ⟨hdvd, Nat.le_succ_of_le hle⟩
    · rw [hsince]
      exact ⟨hclosed, Nat.le_refl _⟩

end Past

namespace Memo.Remembered

variable {digest : Header → BlockHash} {clock : Clock} {ballot : Ballot}
  {acts : List BlockTree.Act} {m : Memo}

/-- The search comes to the height that the standing carries. -/
theorem scanBack_eq_since (hperiod : 0 < ballot.period) {past : Past} (hroot : past.Rooted)
    (horderly : past.Orderly clock ballot) : ∀ {prev : Option BlockId} {m : Memo} {steps : Nat},
    Remembered digest clock ballot acts m →
    PastBefore (BlockTree.grown digest acts).block? prev past → past.length ≤ steps →
      ((BlockTree.grown digest acts).view.scanBack clock ballot (past.replay clock ballot).phase
        steps prev m).1 = .ok (past.replay clock ballot).since := by
  have ht := BlockTree.sound_grown digest acts
  induction past using List.reverseRecOn with
  | nil =>
    intro prev m steps hm hpast hsteps
    cases prev with
    | none =>
      rw [View.scanBack, Past.replay_nil]
      rfl
    | some id => exact absurd rfl (HasPast.ne_nil hpast)
  | append_singleton before b ih =>
    intro prev m steps hm hpast hsteps
    have hlen : (before ++ [b]).length = before.length + 1 := by
      rw [List.length_append, List.length_singleton]
    obtain ⟨id, rfl, hb, hbefore⟩ := hpast.of_snoc
    have hheight := HasPast.height_of_rooted hpast (ht.consecutive hpast) hroot hb
    rw [hlen] at hheight
    obtain ⟨steps, rfl⟩ := Nat.exists_eq_succ_of_ne_zero (show steps ≠ 0 by omega)
    have horderly' := horderly.of_snoc
    obtain ⟨after, hask, hafter⟩ :=
      hm.standing_eq_replay_before hbefore hroot.of_append hperiod horderly'
    rcases (Past.replay_snoc hroot : Past.replay (before ++ [b]) clock ballot = _ ∨ _) with
      hsame | ⟨-, hsince, hmoves⟩
    · rw [hsame, View.scanBack_of_same hb hask rfl]
      exact ih hroot.of_append horderly' hafter hbefore (by omega)
    · have hrank := Phase.Moves.rank_lt hmoves
      have hother : (Past.replay before clock ballot).phase ≠
          (Past.replay (before ++ [b]) clock ballot).phase := by
        intro heq
        rw [heq] at hrank
        exact Nat.lt_irrefl _ hrank
      rw [View.scanBack_of_other hb hask hother, hsince, hheight]

end Memo.Remembered

namespace BlockTree

/-- In every tree that has grown, at genesis and at every block whose links lead there, and
whatever the memos remember of earlier questions: the height that is reported is the one that
the search finds, given steps for all the blocks.  A period begins there, and it is at most the
height of the block that comes next. -/
theorem since_eq_firstHeight (digest : Header → BlockHash) (acts : List Act)
    {prev : Option BlockId} {past : Past} (hpast : PastBefore (grown digest acts).block? prev past)
    (hroot : past.Rooted) (clock : Clock) (ballot : Ballot) (hperiod : 0 < ballot.period)
    (hrule : clock = .medianTimePast → past.Timely ∧ ballot.startTime < ballot.timeout)
    {m m' : Memo} (hm : m.Remembered digest clock ballot acts)
    (hm' : m'.Remembered digest clock ballot acts) :
    ∃ since,
      ((grown digest acts).view.standing clock ballot prev m).1.map Standing.since = .ok since ∧
      (∀ steps, past.length ≤ steps →
        ((grown digest acts).view.firstHeight clock ballot steps prev m').1 = .ok since) ∧
      ballot.period ∣ since ∧ since ≤ past.length ∧
      ∀ id b, prev = some id → (grown digest acts).block? id = some b →
        past.length = b.height + 1 := by
  obtain ⟨after, hask, -⟩ := hm.standing_eq_replay_before hpast hroot hperiod hrule
  obtain ⟨after', hask', hafter'⟩ := hm'.standing_eq_replay_before hpast hroot hperiod hrule
  have hsince : ballot.period ∣ (past.replay clock ballot).since ∧ _ := Past.replay_since hroot
  refine ⟨_, by rw [hask]; rfl, fun steps hsteps => ?_, hsince.1, hsince.2,
    fun id b hprev hb => ?_⟩
  · rw [View.firstHeight_eq hask']
    exact hafter'.scanBack_eq_since hperiod hroot hrule hpast hsteps
  · subst hprev
    exact (HasPast.height_of_rooted hpast ((sound_grown digest acts).consecutive hpast) hroot
      hb).symm

/-- The last block but one of the row.  The rule was locked in from height 6 on, and the search
finds so with what a question about the branch has left behind. -/
theorem since_forked :
    ((grown nonceDigest forkedActs).view.standing .medianTimePast pairBallot (some 6) .empty).1.map
        Standing.since = .ok 6 ∧
      ((grown nonceDigest forkedActs).view.firstHeight .medianTimePast pairBallot 7 (some 6)
        ((grown nonceDigest forkedActs).view.standing .medianTimePast pairBallot (some 10)
          .empty).2).1 = .ok 6 ∧ pairBallot.period ∣ 6 := by
  have hpast : PastBefore (grown nonceDigest forkedActs).block? (some 6) (forkedPast.take 7) := by
    have h : HasPast (grown nonceDigest forkedActs).block? 6 (forkedPast.take 7) := by
      decide +kernel
    exact h
  have hrule : Past.Orderly (forkedPast.take 7) .medianTimePast pairBallot :=
    fun _ => ⟨by decide +kernel, by decide⟩
  have hnothing : Memo.Remembered nonceDigest .medianTimePast pairBallot forkedActs .empty :=
    .nothing forkedActs
  obtain ⟨after, hask, -⟩ := hnothing.standing_eq_replay_before hpast (by decide) (by decide) hrule
  have hlocked : Past.replay (forkedPast.take 7) .medianTimePast pairBallot = ⟨.lockedIn, 6⟩ := by
    cbv
  have hsix : ((grown nonceDigest forkedActs).view.standing .medianTimePast pairBallot (some 6)
      .empty).1.map Standing.since = .ok 6 := by
    rw [hask, hlocked]
    rfl
  obtain ⟨since, hsince, hsearch, hdvd, -⟩ := since_eq_firstHeight nonceDigest forkedActs hpast
    (by decide) .medianTimePast pairBallot (by decide) hrule hnothing (hnothing.ask (some 10))
  rw [hsix] at hsince
  obtain rfl := Except.ok.inj hsince
  exact ⟨hsix, hsearch 7 (by decide), hdvd⟩

end BlockTree
end SoftFork
