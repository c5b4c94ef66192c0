import SoftFork.Proofs.History.MedianClock
import SoftFork.Proofs.Standing.OnPast

/-!
# The walk is a replay

The plain way to find a standing is to start with the standing at genesis and to
apply the rules at every closing block of the past, upwards.  `forwards` does that
with the view's own rules, at the ancestors that it finds, and `replay` on the past
alone.  Neither knows of memories and of stopping early, and where the past goes
down to genesis they agree (`forwards_eq_replayTo`).

The verdict on such a past is the replay as well (`verdict?_eq_replay`), so a
question with an empty memo is answered by it (`standing_empty_eq_replay`).
History never fails to suffice there: every clock can be read, and a closing block
has a whole period below it.

## What the early stop rests on

With the clock that is meant to be monotone the walk stops at a closing block at
which the start time has not been reached.  The replay comes through there as
well, and it has to come with the standing at genesis (`StopsRightly`).  So it does
if at no closing block below had the start been reached, or the timeout, which is
later.  That takes two things, which `Orderly` puts together: blocks that are later
than the median before them, so that the median does not run backwards
(`clockTime_mono`), and a timeout after the start.  With the other clock there is no
early stop and nothing to ask, and none either for a ballot whose start time is zero.
-/

namespace SoftFork

namespace Past

/-- What makes it right to stop early: the clock has not run backwards, and the ballot does not
end before it starts. -/
def Orderly (past : Past) (clock : Clock) (ballot : Ballot) : Prop :=
  clock = .medianTimePast → Timely past ∧ ballot.startTime < ballot.timeout

/-- The standing after so many periods of a past that starts at genesis: the rules
applied at one closing block after the other. -/
def replayTo (past : Past) (clock : Clock) (ballot : Ballot) : Nat → Standing
  | 0 => .initial
  | periods + 1 =>
    nextStanding (past.take ((periods + 1) * ballot.period)) clock ballot
      (replayTo past clock ballot periods)

/-- The standing after all the periods closed in a past that starts at genesis. -/
def replay (past : Past) (clock : Clock) (ballot : Ballot) : Standing :=
  replayTo past clock ballot (past.length / ballot.period)

/-- Where the walk stops early, the replay has the standing at genesis. -/
def StopsRightly (past : Past) (clock : Clock) (ballot : Ballot) : Prop :=
  ∀ periods, 0 < periods → periods * ballot.period ≤ past.length →
    isQuiet? (past.take (periods * ballot.period)) clock ballot = some true →
      replayTo past clock ballot periods = .initial

variable {past : Past} {clock : Clock} {ballot : Ballot}

theorem replay_nil : replay [] clock ballot = .initial := by
  rw [replay, List.length_nil, Nat.zero_div, replayTo]

/-! ## Replaying a quiet past -/

/-- While the clock has not reached the start time, the rules leave the standing at
genesis as it is. -/
theorem nextStanding_initial (hstart : clockTime past clock < ballot.startTime)
    (htimes : ballot.startTime < ballot.timeout) :
    nextStanding past clock ballot .initial = .initial := by
  have hphase : nextPhase past clock ballot .defined = .defined := by
    rw [nextPhase, if_neg (by omega), if_neg (by omega)]
  rw [nextStanding, show Standing.initial.phase = .defined from rfl, hphase]
  rfl

/-- A replay comes to a closing block that the early stop stops at with the
standing at genesis. -/
theorem replayTo_of_quiet (h : Timely past) (htimes : ballot.startTime < ballot.timeout)
    (hperiod : 0 < ballot.period) {periods : Nat} (hle : periods * ballot.period ≤ past.length)
    (hquiet : clockTime (past.take (periods * ballot.period)) .medianTimePast < ballot.startTime) :
    replayTo past .medianTimePast ballot periods = .initial := by
  induction periods with
  | zero => rfl
  | succ periods ih =>
    have hbefore : replayTo past .medianTimePast ballot periods = .initial := by
      rw [Nat.succ_mul] at hle hquiet
      rcases Nat.eq_zero_or_pos periods with rfl | hpos
      · rfl
      · have hmono := clockTime_mono h (Nat.mul_pos hpos hperiod) (Nat.le_add_right _ _) hle
        exact ih (by omega) (Nat.lt_of_le_of_lt hmono hquiet)
    rw [replayTo, hbefore]
    exact nextStanding_initial hquiet htimes

/-! ## The recursion on a past that goes down to genesis -/

/-- With genesis below and a whole period, history suffices for every rule. -/
theorem Rooted.suffices (h : Rooted past) (hle : ballot.period ≤ past.length) (phase : Phase) :
    Suffices past clock ballot phase := by
  cases phase with
  | defined => exact h.legible clock
  | started => exact ⟨h.legible clock, Or.inr hle⟩
  | lockedIn => exact trivial
  | active => exact trivial
  | failed => exact trivial

theorem Rooted.isQuiet?_eq (h : Rooted past) : isQuiet? past clock ballot =
    some (clock.isMonotone && decide (clockTime past clock < ballot.startTime)) := by
  rw [isQuiet?, clockTime?, if_pos (h.legible clock)]
  cases clock <;> rfl

theorem Rooted.clockTime_lt_of_quiet (h : Rooted past)
    (hquiet : isQuiet? past clock ballot = some true) :
    clock = .medianTimePast ∧ clockTime past clock < ballot.startTime := by
  rw [h.isQuiet?_eq, Option.some.injEq, Bool.and_eq_true, decide_eq_true_eq] at hquiet
  refine ⟨?_, hquiet.2⟩
  cases clock with
  | blockTime => exact absurd hquiet.1 (by decide)
  | medianTimePast => rfl

theorem Orderly.stopsRightly (h : Orderly past clock ballot) (hroot : Rooted past)
    (hperiod : 0 < ballot.period) : StopsRightly past clock ballot := by
  intro periods hpos hle hquiet
  obtain ⟨rfl, hlt⟩ := (hroot.take _).clockTime_lt_of_quiet hquiet
  obtain ⟨htimely, htimes⟩ := h rfl
  exact replayTo_of_quiet htimely htimes hperiod hle hlt

/-- No clock is below zero. -/
theorem stopsRightly_of_startTime_zero (hroot : Rooted past)
    (hstart : ballot.startTime = 0) : StopsRightly past clock ballot := by
  intro periods _ _ hquiet
  have hlt := ((hroot.take _).clockTime_lt_of_quiet hquiet).2
  rw [hstart] at hlt
  exact absurd hlt (Nat.not_lt_zero _)

/-- The recursion at a closing block is the replay up to there. -/
theorem settled?_eq_replayTo (hroot : Rooted past) (hperiod : 0 < ballot.period)
    (hstops : StopsRightly past clock ballot) (periods : Nat)
    (hle : periods * ballot.period ≤ past.length) :
    settled? clock ballot periods (past.take (periods * ballot.period)) =
      some (replayTo past clock ballot periods) := by
  induction periods with
  | zero => rfl
  | succ periods ih =>
    have hpos : 0 < (periods + 1) * ballot.period := Nat.mul_pos (Nat.succ_pos _) hperiod
    have hmul : (periods + 1) * ballot.period = periods * ballot.period + ballot.period :=
      Nat.succ_mul _ _
    have hlen : (past.take ((periods + 1) * ballot.period)).length
        = (periods + 1) * ballot.period := by
      rw [List.length_take]
      omega
    have hrooted : Rooted (past.take ((periods + 1) * ballot.period)) := hroot.take _
    have hrules : ∀ s, nextStanding? (past.take ((periods + 1) * ballot.period)) clock ballot s =
        some (nextStanding (past.take ((periods + 1) * ballot.period)) clock ballot s) := by
      intro s
      rw [nextStanding?, if_pos (hrooted.suffices (by omega) _)]
    have hquiet : isQuiet? (past.take ((periods + 1) * ballot.period)) clock ballot = _ :=
      hrooted.isQuiet?_eq
    rw [settled?, hquiet, hrooted.next, hlen]
    cases hearly : clock.isMonotone &&
        decide (clockTime (past.take ((periods + 1) * ballot.period)) clock < ballot.startTime) with
    | true =>
      rw [hearly] at hquiet
      rw [hstops _ periods.succ_pos hle hquiet]
      rfl
    | false =>
      simp only [Option.bind_eq_bind, Option.bind_some, Bool.false_eq_true, if_false]
      rcases Nat.eq_zero_or_pos periods with rfl | hperiods
      · rw [if_pos (by omega), hrules]
        rfl
      · have hbelow : 0 < periods * ballot.period := Nat.mul_pos hperiods hperiod
        rw [if_neg (by omega), if_neg (by omega), List.take_take,
          show min ((periods + 1) * ballot.period - ballot.period) ((periods + 1) * ballot.period)
            = periods * ballot.period by omega, ih (by omega), Option.bind_some, hrules]
        rfl

/-- The verdict is the replay, if the walk is right to stop where it does. -/
theorem verdict?_of_stopsRightly (hroot : Rooted past) (hperiod : 0 < ballot.period)
    (hstops : StopsRightly past clock ballot) :
    verdict? past clock ballot = some (replay past clock ballot) := by
  rw [verdict?, replay, hroot.next]
  by_cases hlt : past.length < ballot.period
  · rw [if_pos hlt, Nat.div_eq_of_lt hlt]
    rfl
  · have hpos : 0 < past.length / ballot.period := Nat.div_pos (by omega) hperiod
    have hmul : 0 < past.length / ballot.period * ballot.period := Nat.mul_pos hpos hperiod
    have hdiv := Nat.div_add_mod' past.length ballot.period
    rw [if_neg hlt, if_neg (by omega), show past.length - past.length % ballot.period =
      past.length / ballot.period * ballot.period by omega]
    exact settled?_eq_replayTo hroot hperiod hstops _ (Nat.div_mul_le_self _ _)

/-- On a past that goes down to genesis there is a verdict, even if the walk stops where it should
not. -/
theorem Rooted.exists_verdict? (hroot : Rooted past) (hperiod : 0 < ballot.period) :
    ∃ s, verdict? past clock ballot = some s := by
  have hclosed : ∀ (periods : Nat) {past : Past}, Rooted past →
      past.length = periods * ballot.period → ∃ s, verdict? past clock ballot = some s := by
    intro periods
    induction periods with
    | zero =>
      intro past _ hlen
      rw [Nat.zero_mul, List.length_eq_zero_iff] at hlen
      rw [hlen]
      exact ⟨_, verdict?_nil hperiod⟩
    | succ periods ih =>
      intro past hroot hlen
      have hmul : (periods + 1) * ballot.period = periods * ballot.period + ballot.period :=
        Nat.succ_mul _ _
      have hquiet : isQuiet? past clock ballot = _ := hroot.isQuiet?_eq
      cases hearly : clock.isMonotone && decide (clockTime past clock < ballot.startTime) with
      | true =>
        rw [hearly] at hquiet
        exact ⟨_, verdict?_of_quiet (List.ne_nil_of_length_pos (by omega)) hperiod
          (by rw [hroot.next, hlen]) hquiet⟩
      | false =>
        rw [hearly] at hquiet
        obtain ⟨s, hs⟩ := ih (hroot.take (periods * ballot.period))
          (by rw [List.length_take]; omega)
        refine ⟨nextStanding past clock ballot s, ?_⟩
        rw [verdict?_of_comes hroot hperiod hlen hquiet, hs, Option.bind_eq_bind,
          Option.bind_some, nextStanding?, if_pos (hroot.suffices (by omega) _)]
  rw [← verdict?_take_closed hroot hperiod]
  exact hclosed _ (hroot.take _)
    (by rw [List.length_take, Nat.min_eq_left (Nat.div_mul_le_self _ _)])

/-- On a past that goes down to genesis the verdict is the replay. -/
theorem verdict?_eq_replay (hroot : Rooted past) (hperiod : 0 < ballot.period)
    (horderly : Orderly past clock ballot) :
    verdict? past clock ballot = some (replay past clock ballot) :=
  verdict?_of_stopsRightly hroot hperiod (horderly.stopsRightly hroot hperiod)

end Past

namespace View

/-! ## Forwards through a view -/

/-- The rules applied at the closing blocks of the first periods below `prev`, one
after the other. -/
def forwards (v : View) (clock : Clock) (ballot : Ballot) (prev : BlockId) :
    Nat → Except Fault Standing
  | 0 => .ok .initial
  | periods + 1 => do
    let s ← v.forwards clock ballot prev periods
    let closing ← v.ancestor prev ((periods + 1) * ballot.period - 1)
    v.nextStanding clock ballot closing s

/-- Below a block whose past goes down to genesis the closing blocks are found, and
the rules there are those on the past. -/
theorem forwards_eq_replayTo {v : View} (hv : v.Climbs) {prev : BlockId} {past : Past}
    (h : HasPast v.block? prev past) (hcon : past.Consecutive) (hroot : past.Rooted)
    (clock : Clock) {ballot : Ballot} (hperiod : 0 < ballot.period) (periods : Nat)
    (hle : periods * ballot.period ≤ past.length) :
    v.forwards clock ballot prev periods = .ok (past.replayTo clock ballot periods) := by
  induction periods with
  | zero => rfl
  | succ periods ih =>
    have hpos : 0 < (periods + 1) * ballot.period := Nat.mul_pos periods.succ_pos hperiod
    have hbefore : periods * ballot.period ≤ past.length :=
      Nat.le_trans (Nat.mul_le_mul_right _ periods.le_succ) hle
    obtain ⟨b, hb, -⟩ := h.exists_block
    have hnext := hroot.next
    have hheight := h.height_succ hcon hb (by omega)
    obtain ⟨c, hc, htake⟩ := hv.found h hb
      (show past.length - (periods + 1) * ballot.period ≤ b.height by omega) (by omega)
    rw [show b.height - (past.length - (periods + 1) * ballot.period) =
      (periods + 1) * ballot.period - 1 by omega] at hc
    rw [Nat.sub_sub_self hle] at htake
    have hlen : ballot.period ≤ (past.take ((periods + 1) * ballot.period)).length := by
      rw [List.length_take, Nat.min_eq_left hle]
      exact Nat.le_mul_of_pos_left _ periods.succ_pos
    have hrules : Tells (v.nextStanding clock ballot c (past.replayTo clock ballot periods)) _ :=
      nextStanding_tells htake (hcon.take _) _
    rw [Past.nextStanding?, if_pos ((hroot.take _).suffices hlen _)] at hrules
    rw [forwards, ih hbefore, ok_bind, hc, ok_bind]
    exact hrules

/-! ## Questions with an empty memo -/

/-- On a past that goes down to genesis the walk with nothing remembered is a replay. -/
theorem standing_of_rooted {v : View} (hv : v.Climbs) {id : BlockId} {past : Past}
    (h : HasPast v.block? id past) (hcon : past.Consecutive) (hroot : past.Rooted) {clock : Clock}
    {ballot : Ballot} (hperiod : 0 < ballot.period) (horderly : past.Orderly clock ballot) :
    (v.standing clock ballot (some id) .empty).1 = .ok (past.replay clock ballot) := by
  have htells := standing_tells hv h hcon clock hperiod
  rw [Past.verdict?_eq_replay hroot hperiod horderly] at htells
  exact htells

/-- At genesis, and at every block whose links lead there, each ballot has a standing. -/
theorem exists_standing_of_rooted {v : View} (hv : v.Lawful) {prev : Option BlockId} {past : Past}
    (h : PastBefore v.block? prev past) (hroot : past.Rooted) (clock : Clock) {ballot : Ballot}
    (hperiod : 0 < ballot.period) :
    ∃ s, (v.standing clock ballot prev .empty).1 = .ok s := by
  cases prev with
  | none => exact ⟨_, rfl⟩
  | some id =>
    obtain ⟨b, hb, -⟩ := HasPast.exists_block h
    obtain ⟨past', hpast', hcon⟩ := hv.past hb
    obtain rfl := hpast'.unique h
    have hverdict : ∃ s, past'.verdict? clock ballot = some s := hroot.exists_verdict? hperiod
    obtain ⟨s, hs⟩ := hverdict
    have htells := standing_tells hv.toClimbs hpast' hcon clock hperiod
    rw [hs] at htells
    exact ⟨s, htells⟩

end View

namespace BlockTree

/-- In every tree that has grown, at every block whose links lead to genesis: the
walk backwards, with nothing remembered, gives what the replay of the past gives,
which is what the rules give when they are applied forwards, by links alone. -/
theorem standing_empty_eq_replay (digest : Header → BlockHash) (acts : List Act)
    {prev : BlockId} {past : Past} (hpast : HasPast (grown digest acts).block? prev past)
    (hroot : past.Rooted) (clock : Clock) (ballot : Ballot) (hperiod : 0 < ballot.period)
    (htimes : ballot.startTime < ballot.timeout)
    (hrule : clock = .medianTimePast → past.Timely) :
    ((grown digest acts).view.standing clock ballot (some prev) .empty).1 =
        .ok (past.replay clock ballot) ∧
      (grown digest acts).plainView.forwards clock ballot prev (past.length / ballot.period) =
        .ok (past.replay clock ballot) := by
  have ht := sound_grown digest acts
  have hcon := ht.consecutive hpast
  constructor
  · exact View.standing_of_rooted ht.climbs hpast hcon hroot hperiod
      fun hclock => ⟨hrule hclock, htimes⟩
  · exact View.forwards_eq_replayTo ht.lawful_plainView.toClimbs hpast hcon hroot clock hperiod _
      (Nat.div_mul_le_self _ _)

/-- The row that the tip is not on: the first period closes before the start, the
second starts the voting, the third locks in. -/
theorem standing_forked :
    ((grown nonceDigest forkedActs).view.standing .medianTimePast pairBallot (some 7) .empty).1 =
        .ok (forkedPast.replay .medianTimePast pairBallot) ∧
      (grown nonceDigest forkedActs).plainView.forwards .medianTimePast pairBallot 7 4 =
        .ok (forkedPast.replay .medianTimePast pairBallot) :=
  standing_empty_eq_replay nonceDigest forkedActs hasPast_forked (by decide)
    .medianTimePast pairBallot (by decide) (by decide) fun _ => by decide +kernel

end BlockTree
end SoftFork
