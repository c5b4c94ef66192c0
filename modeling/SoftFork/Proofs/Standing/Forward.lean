import Mathlib.Data.List.Permutation
import Mathlib.Logic.Relation
import SoftFork.Proofs.Standing.Coherence
import SoftFork.Proofs.Standing.Replay

/-!
# Standings move forward

The diagram of the phases has five arrows.  Up a branch the phase follows them, one at
a time and only where a period closes; so it is never seen to go back.

Said of two neighbouring blocks this is a fact about one step of the replay
(`Past.replay_snoc`).  Said of a block and one of its ancestors it is a fact about
runs: a standing that comes later has been reached along arrows
(`Past.replayTo_leads`), and what no arrow does, no run does either.  The rank does not
fall, a final phase has no arrow out of it, and no arrow leads from a settled phase
to `failed`.

## Whose answers these are

The answers that are compared need not have been given by one memory.  `Remembered`
describes all memos that can have come about in a tree that grows: questions were asked
from time to time, about any of its branches, and entries were lost.  Such a memo is
faithful, and does not show.

Under the clock that cannot run backwards the tree's blocks have to keep the rule that
keeps it from doing so, and the timeout has to be later than the start.  Otherwise
a walk could stop early above a block where voting had started, and report that it had
not.
-/

namespace SoftFork

namespace Phase

/-! ## The arrows -/

/-- One phase gives way to another. -/
inductive Moves : Phase → Phase → Prop where
  /-- The start time is reached. -/
  | start : Moves .defined .started
  /-- The timeout is reached before voting has started. -/
  | lapse : Moves .defined .failed
  /-- A period has brought enough votes. -/
  | lockIn : Moves .started .lockedIn
  /-- The timeout is reached before a period has brought enough votes. -/
  | timeOut : Moves .started .failed
  /-- The rule comes into force. -/
  | activate : Moves .lockedIn .active

variable {p q : Phase}

theorem Moves.rank_lt (h : Moves p q) : p.rank < q.rank := by
  cases h <;> decide

theorem Moves.not_isFinal (h : Moves p q) : p.isFinal = false := by
  cases h <;> rfl

theorem Moves.isSettled (h : Moves p q) (hp : p.isSettled = true) : q.isSettled = true := by
  cases h with
  | activate => rfl
  | _ => exact absurd hp (by decide)

end Phase

namespace Standing

/-- One standing gives way to another. -/
def Moves (s s' : Standing) : Prop :=
  s.phase.Moves s'.phase

variable {s s' : Standing}

theorem rank_le_of_leads (h : Relation.ReflTransGen Moves s s') :
    s.phase.rank ≤ s'.phase.rank := by
  induction h with
  | refl => exact Nat.le_refl _
  | tail _ hstep ih => exact Nat.le_trans ih (Nat.le_of_lt (Phase.Moves.rank_lt hstep))

/-- A standing with a final phase is never left. -/
theorem eq_of_leads_of_isFinal (h : Relation.ReflTransGen Moves s s')
    (hs : s.phase.isFinal = true) : s' = s := by
  rcases h.cases_head with rfl | ⟨next, hstep, -⟩
  · rfl
  · rw [Phase.Moves.not_isFinal hstep] at hs
    exact absurd hs (by decide)

theorem isSettled_of_leads (h : Relation.ReflTransGen Moves s s')
    (hs : s.phase.isSettled = true) : s'.phase.isSettled = true := by
  induction h with
  | refl => exact hs
  | tail _ hstep ih => exact Phase.Moves.isSettled hstep ih

end Standing

namespace Past

variable {past : Past} {clock : Clock} {ballot : Ballot}

/-! ## One period -/

/-- The rules leave the phase as it is, or follow an arrow. -/
theorem nextPhase_eq_or_moves (phase : Phase) :
    nextPhase past clock ballot phase = phase ∨
      phase.Moves (nextPhase past clock ballot phase) := by
  cases phase with
  | defined =>
    rw [nextPhase]
    split
    · exact Or.inr .lapse
    · split
      · exact Or.inr .start
      · exact Or.inl rfl
  | started =>
    rw [nextPhase]
    split
    · exact Or.inr .timeOut
    · split
      · exact Or.inr .lockIn
      · exact Or.inl rfl
  | lockedIn =>
    rw [nextPhase]
    split
    · exact Or.inr .activate
    · exact Or.inl rfl
  | active => exact Or.inl rfl
  | failed => exact Or.inl rfl

/-- The standing stays, or moves at the height that comes next. -/
theorem nextStanding_eq_or_moves (s : Standing) :
    nextStanding past clock ballot s = s ∨
      (nextStanding past clock ballot s).since = next past ∧
        s.Moves (nextStanding past clock ballot s) := by
  rw [nextStanding, Standing.advance]
  split
  · exact Or.inl rfl
  · next hne =>
    rcases nextPhase_eq_or_moves s.phase with heq | hmoves
    · exact absurd heq hne
    · exact Or.inr ⟨rfl, hmoves⟩

/-! ## Runs -/

/-- Later standings have been reached along arrows. -/
theorem replayTo_leads {i j : Nat} (hij : i ≤ j) :
    Relation.ReflTransGen Standing.Moves (replayTo past clock ballot i)
      (replayTo past clock ballot j) := by
  induction hij with
  | refl => exact .refl
  | @step j _ ih =>
    rw [replayTo]
    rcases nextStanding_eq_or_moves (replayTo past clock ballot j) with heq | ⟨-, hmoves⟩
    · rw [heq]
      exact ih
    · exact ih.tail hmoves

/-- What comes after the closing block of a period does not change its standing. -/
theorem replayTo_take {k n : Nat} (hle : n * ballot.period ≤ k) :
    replayTo (past.take k) clock ballot n = replayTo past clock ballot n := by
  induction n with
  | zero => rfl
  | succ n ih =>
    have hbefore : n * ballot.period ≤ k :=
      Nat.le_trans (Nat.mul_le_mul_right _ n.le_succ) hle
    rw [replayTo, replayTo, ih hbefore, List.take_take, Nat.min_eq_left hle]

theorem replay_take {k : Nat} (hle : k ≤ past.length) :
    replay (past.take k) clock ballot = replayTo past clock ballot (k / ballot.period) := by
  rw [replay, List.length_take, Nat.min_eq_left hle]
  exact replayTo_take (Nat.div_mul_le_self _ _)

/-- The standings of a past along its beginnings have been reached along arrows. -/
theorem replay_take_leads {k : Nat} (hle : k ≤ past.length) :
    Relation.ReflTransGen Standing.Moves (replay (past.take k) clock ballot)
      (replay past clock ballot) := by
  rw [replay_take hle]
  exact replayTo_leads (Nat.div_le_div_right hle)

/-- A further block leaves the standing as it is, unless it closes a period and the
standing moves. -/
theorem replay_snoc {b : Block} (hroot : Rooted (past ++ [b])) :
    replay (past ++ [b]) clock ballot = replay past clock ballot ∨
      ballot.period ∣ past.length + 1 ∧
        (replay (past ++ [b]) clock ballot).since = past.length + 1 ∧
        (replay past clock ballot).Moves (replay (past ++ [b]) clock ballot) := by
  have hlen : (past ++ [b]).length = past.length + 1 := by
    rw [List.length_append, List.length_singleton]
  have hbefore : replay ((past ++ [b]).take past.length) clock ballot =
      replayTo (past ++ [b]) clock ballot (past.length / ballot.period) :=
    replay_take (by omega)
  rw [List.take_left] at hbefore
  by_cases hclosed : ballot.period ∣ past.length + 1
  · -- the rules are applied once more, to the whole past
    have hafter : replay (past ++ [b]) clock ballot =
        nextStanding (past ++ [b]) clock ballot (replay past clock ballot) := by
      rw [hbefore, replay, hlen, Nat.succ_div_of_dvd hclosed, replayTo,
        ← Nat.succ_div_of_dvd hclosed, Nat.div_mul_cancel hclosed, ← hlen, List.take_length]
    rw [hafter]
    rcases nextStanding_eq_or_moves (replay past clock ballot) with heq | ⟨hsince, hmoves⟩
    · exact Or.inl heq
    · rw [hroot.next, hlen] at hsince
      exact Or.inr ⟨hclosed, hsince, hmoves⟩
  · left
    rw [hbefore, replay, hlen, Nat.succ_div_of_not_dvd hclosed]

theorem Timely.take (h : Timely past) (k : Nat) : Timely (past.take k) := by
  intro i hi hpos
  have hlt := hi
  rw [List.length_take] at hlt
  rw [List.take_take, Nat.min_eq_left (by omega), List.getElem_take]
  exact h i (by omega) hpos

theorem Orderly.take (h : Orderly past clock ballot) (k : Nat) :
    Orderly (past.take k) clock ballot :=
  fun hclock => ⟨(h hclock).1.take k, (h hclock).2⟩

theorem Orderly.of_snoc {before : Past} {b : Block}
    (h : Orderly (before ++ [b]) clock ballot) : Orderly before clock ballot := by
  have hbefore := h.take before.length
  rwa [List.take_left] at hbefore

end Past

/-! ## Memos that questions have filled -/

/-- The memos that can be there, for one ballot, after some acts have made a tree:
the tree has been asked about the ballot at any time and about any block, and entries
may have been lost. -/
inductive Memo.Remembered (digest : Header → BlockHash) (clock : Clock) (ballot : Ballot) :
    List BlockTree.Act → Memo → Prop where
  /-- At first nothing is remembered. -/
  | nothing (acts : List BlockTree.Act) : Remembered digest clock ballot acts .empty
  /-- The tree is changed, or an attempt is made. -/
  | grow {acts : List BlockTree.Act} {m : Memo} (hm : Remembered digest clock ballot acts m)
    (act : BlockTree.Act) : Remembered digest clock ballot (acts ++ [act]) m
  /-- A question is asked. -/
  | ask {acts : List BlockTree.Act} {m : Memo} (hm : Remembered digest clock ballot acts m)
    (prev : Option BlockId) : Remembered digest clock ballot acts
      ((BlockTree.grown digest acts).view.standing clock ballot prev m).2
  /-- The entries that fail a test are lost. -/
  | lose {acts : List BlockTree.Act} {m : Memo} (hm : Remembered digest clock ballot acts m)
    (test : BlockId → Bool) : Remembered digest clock ballot acts (m.keep test)

namespace Memo.Remembered

variable {digest : Header → BlockHash} {clock : Clock} {ballot : Ballot}
  {acts : List BlockTree.Act} {m : Memo}

theorem faithful (hm : Remembered digest clock ballot acts m) :
    m.Faithful (BlockTree.grown digest acts).view clock ballot := by
  induction hm with
  | nothing _ => exact Memo.faithful_empty
  | @grow acts m _ act ih =>
    have hbefore := BlockTree.sound_grown digest acts
    have hafter := BlockTree.sound_grown digest (acts ++ [act])
    refine ih.grow hbefore.climbs hafter.climbs fun id b hb => ?_
    rw [BlockTree.grown, List.foldl_append]
    exact (BlockTree.step_after hbefore act).block? hb
  | @ask acts m _ prev ih =>
    exact (View.standing_eq_verdict (BlockTree.sound_grown digest acts).lawful_view ih prev).2
  | lose _ test ih => exact ih.mono fun _ _ => Memo.getElem?_of_keep

/-- With whatever is remembered, the answer at a block tells what its past tells. -/
theorem standing_tells (hm : Remembered digest clock ballot acts m) {id : BlockId} {past : Past}
    (hpast : HasPast (BlockTree.grown digest acts).block? id past)
    (hperiod : 0 < ballot.period) :
    Tells ((BlockTree.grown digest acts).view.standing clock ballot (some id) m).1
      (past.verdict? clock ballot) := by
  have ht := BlockTree.sound_grown digest acts
  have hcon := ht.consecutive hpast
  rw [(View.standing_eq_verdict_of_hasPast ht.climbs hpast hcon hm.faithful).1]
  exact View.verdict_tells ht.climbs hpast hcon hperiod

/-- Where the past goes down to genesis that is the replay. -/
theorem standing_eq_replay (hm : Remembered digest clock ballot acts m) {id : BlockId}
    {past : Past} (hpast : HasPast (BlockTree.grown digest acts).block? id past)
    (hroot : past.Rooted) (hperiod : 0 < ballot.period) (horderly : past.Orderly clock ballot) :
    ((BlockTree.grown digest acts).view.standing clock ballot (some id) m).1 =
      .ok (past.replay clock ballot) := by
  have htells := hm.standing_tells hpast hperiod
  rw [Past.verdict?_eq_replay hroot hperiod horderly] at htells
  exact htells

/-- With whatever is remembered, the answer is the replay of what lies before, and then the
memo is one that questions have filled. -/
theorem standing_eq_replay_before (hm : Remembered digest clock ballot acts m)
    {prev : Option BlockId} {past : Past}
    (hpast : PastBefore (BlockTree.grown digest acts).block? prev past) (hroot : past.Rooted)
    (hperiod : 0 < ballot.period) (horderly : past.Orderly clock ballot) :
    ∃ after, (BlockTree.grown digest acts).view.standing clock ballot prev m =
      (.ok (past.replay clock ballot), after) ∧ Remembered digest clock ballot acts after := by
  have hanswer : ((BlockTree.grown digest acts).view.standing clock ballot prev m).1 =
      .ok (past.replay clock ballot) := by
    cases prev with
    | none =>
      obtain rfl : past = [] := hpast
      exact congrArg Except.ok Past.replay_nil.symm
    | some id => exact hm.standing_eq_replay hpast hroot hperiod horderly
  exact ⟨_, Prod.ext hanswer rfl, hm.ask prev⟩

/-- At the parent of such a block the answer is the replay without the block.  Genesis
has no parent, and the replay of nothing is the standing there. -/
theorem standing_parent_eq_replay (hm : Remembered digest clock ballot acts m) {id : BlockId}
    {b : Block} {past : Past} (hb : (BlockTree.grown digest acts).block? id = some b)
    (hpast : HasPast (BlockTree.grown digest acts).block? id past) (hroot : past.Rooted)
    (hperiod : 0 < ballot.period) (horderly : past.Orderly clock ballot) :
    ∃ before, past = before ++ [b] ∧
      ((BlockTree.grown digest acts).view.standing clock ballot b.parent m).1 =
        .ok (before.replay clock ballot) := by
  obtain ⟨before, rfl, hbefore⟩ := hpast.exists_before hb
  obtain ⟨_, hask, -⟩ :=
    hm.standing_eq_replay_before hbefore hroot.of_append hperiod horderly.of_snoc
  exact ⟨before, rfl, congrArg Prod.fst hask⟩

end Memo.Remembered

namespace BlockTree

/-- In every tree that has grown, at every block whose links lead to genesis, and
whatever the memos remember of earlier questions.  From the parent to the block the
standing stays, or the block closes a period and the phase follows an arrow there.
From any block that it stands on the rank has not fallen, a final phase has not been
left, and of these two blocks it is never one that has failed and the other that is
locked in or active. -/
theorem standing_forward (digest : Header → BlockHash) (acts : List Act) {id : BlockId}
    {past : Past} (hpast : HasPast (grown digest acts).block? id past) (hroot : past.Rooted)
    (clock : Clock) (ballot : Ballot) (hperiod : 0 < ballot.period)
    (hrule : clock = .medianTimePast → past.Timely ∧ ballot.startTime < ballot.timeout)
    {m m' : Memo} (hm : m.Remembered digest clock ballot acts)
    (hm' : m'.Remembered digest clock ballot acts) :
    (∀ b, (grown digest acts).block? id = some b → ∃ s s',
      ((grown digest acts).view.standing clock ballot b.parent m).1 = .ok s ∧
      ((grown digest acts).view.standing clock ballot (some id) m').1 = .ok s' ∧
      (s' = s ∨ ballot.period ∣ b.height + 1 ∧ s'.since = b.height + 1 ∧
        s.phase.Moves s'.phase)) ∧
    ∀ a, StandsOn (grown digest acts).block? id a → ∃ s s',
      ((grown digest acts).view.standing clock ballot (some a) m).1 = .ok s ∧
      ((grown digest acts).view.standing clock ballot (some id) m').1 = .ok s' ∧
      s.phase.rank ≤ s'.phase.rank ∧ (s.phase.isFinal = true → s' = s) ∧
      ¬ (s.phase = .failed ∧ s'.phase.isSettled = true) ∧
      ¬ (s.phase.isSettled = true ∧ s'.phase = .failed) := by
  have hcon := (sound_grown digest acts).consecutive hpast
  have hnew := hm'.standing_eq_replay hpast hroot hperiod hrule
  constructor
  · intro b hb
    have hheight := hpast.height_of_rooted hcon hroot hb
    obtain ⟨before, rfl, hold⟩ := hm.standing_parent_eq_replay hb hpast hroot hperiod hrule
    rw [List.length_append, List.length_singleton] at hheight
    rw [hheight]
    exact ⟨_, _, hold, hnew, Past.replay_snoc hroot⟩
  · intro a ha
    obtain ⟨k, hk, hle, hbefore⟩ := ha.hasPast hpast
    have hold := hm.standing_eq_replay hbefore (hroot.take k) hperiod (Past.Orderly.take hrule k)
    have hleads : Relation.ReflTransGen Standing.Moves (Past.replay (past.take k) clock ballot)
        (past.replay clock ballot) := Past.replay_take_leads hle
    refine ⟨_, _, hold, hnew, Standing.rank_le_of_leads hleads,
      Standing.eq_of_leads_of_isFinal hleads, ?_, ?_⟩
    · rintro ⟨hfailed, hsettled⟩
      rw [Standing.eq_of_leads_of_isFinal hleads (by rw [hfailed]; rfl), hfailed] at hsettled
      exact absurd hsettled (by decide)
    · rintro ⟨hsettled, hfailed⟩
      have hafter := Standing.isSettled_of_leads hleads hsettled
      rw [hfailed] at hafter
      exact absurd hafter (by decide)

/-- The sixth block of the row closes the period that locks in.  It is asked about with
what a question about the branch has left behind, the fifth with nothing remembered. -/
theorem standing_forward_forked :
    ((grown nonceDigest forkedActs).view.standing .medianTimePast pairBallot (some 4) .empty).1 =
        .ok ⟨.started, 4⟩ ∧
      ((grown nonceDigest forkedActs).view.standing .medianTimePast pairBallot (some 5)
        ((grown nonceDigest forkedActs).view.standing .medianTimePast pairBallot (some 10)
          .empty).2).1 = .ok ⟨.lockedIn, 6⟩ ∧
      Phase.Moves .started .lockedIn ∧ Phase.started.rank ≤ Phase.lockedIn.rank := by
  have hpast : HasPast (grown nonceDigest forkedActs).block? 5 (forkedPast.take 6) := by
    decide +kernel
  have hblock : (grown nonceDigest forkedActs).block? 5 =
      some (blockOn (some 4) 6 5 40 0x20000001) := by
    decide +kernel
  have hpast' : HasPast (grown nonceDigest forkedActs).block? 4 (forkedPast.take 5) :=
    hpast.parent hblock rfl
  have hrule : Past.Orderly (forkedPast.take 6) .medianTimePast pairBallot :=
    fun _ => ⟨by decide +kernel, by decide⟩
  have hnothing : Memo.Remembered nonceDigest .medianTimePast pairBallot forkedActs .empty :=
    .nothing forkedActs
  have hold := hnothing.standing_eq_replay hpast' (by decide) (by decide) (hrule.take 5)
  have hnew := (hnothing.ask (some 10)).standing_eq_replay hpast (by decide) (by decide) hrule
  have hstarted : Past.replay (forkedPast.take 5) .medianTimePast pairBallot = ⟨.started, 4⟩ := by
    cbv
  have hlocked : Past.replay (forkedPast.take 6) .medianTimePast pairBallot = ⟨.lockedIn, 6⟩ := by
    cbv
  rw [hstarted] at hold
  rw [hlocked] at hnew
  obtain ⟨hparent, hbelow⟩ := standing_forward nonceDigest forkedActs hpast (by decide)
    .medianTimePast pairBallot (by decide) hrule hnothing (hnothing.ask (some 10))
  obtain ⟨s, s', hs, hs', hstep⟩ := hparent _ hblock
  obtain rfl := Except.ok.inj (hold.symm.trans hs)
  obtain rfl := Except.ok.inj (hnew.symm.trans hs')
  obtain ⟨s, s', hs, hs', hrank, -⟩ := hbelow 4 (.parent .self hblock rfl)
  obtain rfl := Except.ok.inj (hold.symm.trans hs)
  obtain rfl := Except.ok.inj (hnew.symm.trans hs')
  exact ⟨hold, hnew, (hstep.resolve_left (by decide)).2.2, hrank⟩

end BlockTree
end SoftFork
