import SoftFork.Proofs.History.Reading
import SoftFork.Proofs.Standing.Settled

/-!
# Standings read off a past

The verdict on a block is a function of its past.  `nextPhase` are the rules of
voting on the past of a closing block, `settled?` is the recursion from closing
block to closing block, and `verdict?` the standing for the block that comes
next; the last two are `none` when history does not suffice.

Each of them tells what the view's own computation tells (`verdict_tells`).  On
the way from one to the other everything is lost that a past does not hold:
numbers, hashes, other branches, the active chain, and the manner in which the
view finds ancestors.

A rule does not always need the clock or the votes.  `Suffices` says what it
needs: a phase that is final needs nothing, a locked-in one only the height, and
one that has been started needs no votes once its time is up.
-/

namespace SoftFork

namespace Past

/-- The phase after the period that the last block closes, when `phase` was the
phase of the period itself. -/
def nextPhase (past : Past) (clock : Clock) (ballot : Ballot) : Phase → Phase
  | .defined =>
    if ballot.timeout ≤ clockTime past clock then .failed
    else if ballot.startTime ≤ clockTime past clock then .started
    else .defined
  | .started =>
    if ballot.timeout ≤ clockTime past clock then .failed
    else if ballot.threshold ≤ countVotes past ballot.votes ballot.period then .lockedIn
    else .started
  | .lockedIn => if ballot.minActivationHeight ≤ next past then .active else .lockedIn
  | .active => .active
  | .failed => .failed

/-- The standing after the period that the last block closes. -/
def nextStanding (past : Past) (clock : Clock) (ballot : Ballot) (s : Standing) : Standing :=
  s.advance (nextPhase past clock ballot s.phase) (next past)

theorem phase_nextStanding (past : Past) (clock : Clock) (ballot : Ballot) (s : Standing) :
    (nextStanding past clock ballot s).phase = nextPhase past clock ballot s.phase :=
  Standing.phase_advance _ _ _

/-- History suffices for the rule of a phase. -/
def Suffices (past : Past) (clock : Clock) (ballot : Ballot) : Phase → Prop
  | .defined => Legible past clock
  | .started => Legible past clock ∧
      (ballot.timeout ≤ clockTime past clock ∨ ballot.period ≤ past.length)
  | .lockedIn => True
  | .active => True
  | .failed => True

instance (past : Past) (clock : Clock) (ballot : Ballot) (phase : Phase) :
    Decidable (Suffices past clock ballot phase) :=
  match phase with
  | .defined => inferInstanceAs (Decidable (Legible past clock))
  | .started => inferInstanceAs (Decidable (_ ∧ _))
  | .lockedIn => inferInstanceAs (Decidable True)
  | .active => inferInstanceAs (Decidable True)
  | .failed => inferInstanceAs (Decidable True)

/-- The standing after the period that the last block closes, when history
suffices. -/
def nextStanding? (past : Past) (clock : Clock) (ballot : Ballot) (s : Standing) :
    Option Standing :=
  if Suffices past clock ballot s.phase then some (nextStanding past clock ballot s) else none

/-- Whether the clock shows at the last block that voting has not begun before,
when it can be read. -/
def isQuiet? (past : Past) (clock : Clock) (ballot : Ballot) : Option Bool :=
  if clock.isMonotone then
    (clockTime? past clock).map fun time => decide (time < ballot.startTime)
  else some false

/-- The standing after the closing block at the end of the past, below which,
itself included, so many periods are closed. -/
def settled? (clock : Clock) (ballot : Ballot) : Nat → Past → Option Standing
  | 0, _ => some .initial
  | periods + 1, past => do
    if ← isQuiet? past clock ballot then return .initial
    if next past ≤ ballot.period then nextStanding? past clock ballot .initial
    else if past.length ≤ ballot.period then none
    else
      let s ← settled? clock ballot periods (past.take (past.length - ballot.period))
      nextStanding? past clock ballot s

/-- The standing for the block that comes next. -/
def verdict? (past : Past) (clock : Clock) (ballot : Ballot) : Option Standing :=
  if next past < ballot.period then some .initial
  else if past.length ≤ next past % ballot.period then none
  else settled? clock ballot (next past / ballot.period)
    (past.take (past.length - next past % ballot.period))

/-- At a closing block the standing for the next block is that after the block. -/
theorem verdict?_of_closed {past : Past} {clock : Clock} {ballot : Ballot} {periods : Nat}
    (hne : past ≠ []) (hpos : 0 < periods) (hperiod : 0 < ballot.period)
    (hnext : next past = periods * ballot.period) :
    verdict? past clock ballot = settled? clock ballot periods past := by
  have hlen : 0 < past.length := List.length_pos_iff.mpr hne
  have hle : ballot.period ≤ next past := by
    rw [hnext]
    exact Nat.le_mul_of_pos_left _ hpos
  have hdiv : next past / ballot.period = periods := by
    rw [hnext, Nat.mul_div_cancel _ hperiod]
  have hmod : next past % ballot.period = 0 := by
    rw [hnext, Nat.mul_mod_left]
  rw [verdict?, if_neg (Nat.not_lt.mpr hle), hdiv, hmod, if_neg (by omega), Nat.sub_zero,
    List.take_length]

/-- Where the clock has not reached the start time at a closing block, that decides. -/
theorem verdict?_of_quiet {past : Past} {clock : Clock} {ballot : Ballot} {periods : Nat}
    (hne : past ≠ []) (hperiod : 0 < ballot.period)
    (hnext : next past = (periods + 1) * ballot.period)
    (hquiet : isQuiet? past clock ballot = some true) :
    verdict? past clock ballot = some .initial := by
  rw [verdict?_of_closed hne periods.succ_pos hperiod hnext, settled?, hquiet]
  rfl

/-- The verdict on nothing is the standing at genesis. -/
theorem verdict?_nil {clock : Clock} {ballot : Ballot} (hperiod : 0 < ballot.period) :
    verdict? [] clock ballot = some .initial := by
  rw [verdict?, if_pos (show next [] < ballot.period from hperiod)]

/-- The blocks after the last closing block do not count. -/
theorem verdict?_take_closed {past : Past} {clock : Clock} {ballot : Ballot} (hroot : Rooted past)
    (hperiod : 0 < ballot.period) :
    verdict? (past.take (past.length / ballot.period * ballot.period)) clock ballot =
      verdict? past clock ballot := by
  have hle := Nat.div_mul_le_self past.length ballot.period
  rcases Nat.eq_zero_or_pos (past.length / ballot.period) with hzero | hpos
  · have hlt : past.length < ballot.period := Nat.lt_of_div_eq_zero hperiod hzero
    rw [hzero, Nat.zero_mul, List.take_zero, verdict?_nil hperiod, verdict?,
      if_pos (by rwa [hroot.next])]
  · have hclosed : 0 < past.length / ballot.period * ballot.period := Nat.mul_pos hpos hperiod
    have hne : past.take (past.length / ballot.period * ballot.period) ≠ [] := by
      refine List.ne_nil_of_length_pos ?_
      rw [List.length_take]
      omega
    have hnext : next (past.take (past.length / ballot.period * ballot.period)) =
        past.length / ballot.period * ballot.period := by
      rw [(hroot.take _).next, List.length_take]
      omega
    have hmul := Nat.div_add_mod' past.length ballot.period
    have hge : ¬ past.length < ballot.period := fun hlt => by
      rw [Nat.div_eq_of_lt hlt] at hpos
      omega
    rw [verdict?_of_closed hne hpos hperiod hnext, verdict?, hroot.next, if_neg hge,
      if_neg (by omega), show past.length - past.length % ballot.period =
        past.length / ballot.period * ballot.period by omega]

/-- Where the walk does not stop early at a closing block, the verdict is what the rules
make there of the verdict one period below. -/
theorem verdict?_of_comes {past : Past} {clock : Clock} {ballot : Ballot} {periods : Nat}
    (hroot : Rooted past) (hperiod : 0 < ballot.period)
    (hlen : past.length = (periods + 1) * ballot.period)
    (hquiet : isQuiet? past clock ballot = some false) :
    verdict? past clock ballot = verdict? (past.take (periods * ballot.period)) clock ballot >>=
      nextStanding? past clock ballot := by
  have hmul : (periods + 1) * ballot.period = periods * ballot.period + ballot.period :=
    Nat.succ_mul _ _
  have hne : past ≠ [] := List.ne_nil_of_length_pos (by omega)
  rw [verdict?_of_closed hne periods.succ_pos hperiod (by rw [hroot.next, hlen]), settled?, hquiet,
    hroot.next]
  simp only [Option.bind_eq_bind, Option.bind_some, Bool.false_eq_true, if_false]
  rcases Nat.eq_zero_or_pos periods with rfl | hpos
  · rw [if_pos (by omega), Nat.zero_mul, List.take_zero, verdict?_nil hperiod, Option.bind_some]
  · have hbelow : 0 < periods * ballot.period := Nat.mul_pos hpos hperiod
    have hne' : past.take (periods * ballot.period) ≠ [] := by
      refine List.ne_nil_of_length_pos ?_
      rw [List.length_take]
      omega
    have hnext : next (past.take (periods * ballot.period)) = periods * ballot.period := by
      rw [(hroot.take _).next, List.length_take]
      omega
    rw [if_neg (by omega), if_neg (by omega), verdict?_of_closed hne' hpos hperiod hnext,
      show past.length - ballot.period = periods * ballot.period by omega]

end Past

namespace View

variable {v : View} {id : BlockId} {past : Past} {clock : Clock} {ballot : Ballot}

/-! ## The rules -/

theorem nextPhase_tells (h : HasPast v.block? id past) (hcon : past.Consecutive)
    (phase : Phase) : Tells (v.nextPhase clock ballot id phase)
      (if past.Suffices clock ballot phase then some (past.nextPhase clock ballot phase)
        else none) := by
  have hclock := clockTime_tells h clock
  rw [Past.clockTime?] at hclock
  cases phase with
  | defined =>
    rw [nextPhase]
    by_cases hleg : past.Legible clock
    · rw [if_pos hleg] at hclock
      rw [if_pos (show past.Suffices clock ballot .defined from hleg), hclock]
      exact Tells.of_ok _
    · rw [if_neg hleg] at hclock
      obtain ⟨m, hm⟩ := hclock
      rw [if_neg (show ¬ past.Suffices clock ballot .defined from hleg), hm]
      exact Tells.of_missing m
  | started =>
    rw [nextPhase]
    by_cases hleg : past.Legible clock
    · rw [if_pos hleg] at hclock
      rw [hclock, ok_bind]
      have hvotes := countWhere_tells h ballot.votes ballot.period
      rw [Past.countVotes?] at hvotes
      by_cases htimeout : ballot.timeout ≤ past.clockTime clock
      · rw [if_pos (show past.Suffices clock ballot .started from ⟨hleg, Or.inl htimeout⟩),
          if_pos htimeout, Past.nextPhase, if_pos htimeout]
        exact Tells.of_ok _
      · rw [if_neg htimeout]
        by_cases hlen : ballot.period ≤ past.length
        · rw [if_pos hlen] at hvotes
          rw [if_pos (show past.Suffices clock ballot .started from ⟨hleg, Or.inr hlen⟩),
            Past.nextPhase, if_neg htimeout, hvotes]
          exact Tells.of_ok _
        · rw [if_neg hlen] at hvotes
          obtain ⟨m, hm⟩ := hvotes
          have hnot : ¬ past.Suffices clock ballot .started := by
            rintro ⟨_, htime | hperiod⟩
            · exact htimeout htime
            · exact hlen hperiod
          rw [if_neg hnot, hm]
          exact Tells.of_missing m
    · rw [if_neg hleg] at hclock
      obtain ⟨m, hm⟩ := hclock
      rw [if_neg (show ¬ past.Suffices clock ballot .started from fun hs => hleg hs.1), hm]
      exact Tells.of_missing m
  | lockedIn =>
    obtain ⟨b, hb, -⟩ := h.exists_block
    rw [nextPhase, get_eq_ok hb, ok_bind, h.above_eq hcon hb,
      if_pos (show past.Suffices clock ballot .lockedIn from trivial)]
    exact Tells.of_ok _
  | active =>
    rw [if_pos (show past.Suffices clock ballot .active from trivial)]
    exact Tells.of_ok _
  | failed =>
    rw [if_pos (show past.Suffices clock ballot .failed from trivial)]
    exact Tells.of_ok _

theorem nextStanding_tells (h : HasPast v.block? id past) (hcon : past.Consecutive)
    (s : Standing) :
    Tells (v.nextStanding clock ballot id s) (past.nextStanding? clock ballot s) := by
  obtain ⟨b, hb, -⟩ := h.exists_block
  have hrules : Tells (v.nextPhase clock ballot id s.phase) _ := nextPhase_tells h hcon s.phase
  have hphase := hrules.map fun phase => s.advance phase past.next
  rw [nextStanding, get_eq_ok hb, ok_bind, h.above_eq hcon hb, Past.nextStanding?]
  by_cases hs : past.Suffices clock ballot s.phase
  · rw [if_pos hs] at hphase ⊢
    exact hphase
  · rw [if_neg hs] at hphase ⊢
    exact hphase

theorem isQuiet_tells (h : HasPast v.block? id past) :
    Tells (v.isQuiet clock ballot id) (past.isQuiet? clock ballot) := by
  rw [isQuiet, Past.isQuiet?]
  split
  · exact (clockTime_tells h clock).map _
  · exact Tells.of_ok false

/-! ## The recursion -/

theorem settled_tells (hv : v.Climbs) (periods : Nat) :
    ∀ {id : BlockId} {past : Past}, HasPast v.block? id past → past.Consecutive → 0 < past.next →
      Tells (v.settled clock ballot periods id) (Past.settled? clock ballot periods past) := by
  induction periods with
  | zero => exact fun _ _ _ => Tells.of_ok _
  | succ periods ih =>
    intro id past h hcon hpos
    obtain ⟨b, hb, -⟩ := h.exists_block
    have hheight := h.height_succ hcon hb hpos
    rw [settled, Past.settled?]
    refine (isQuiet_tells h).bind fun quiet _ => ?_
    cases quiet with
    | true => exact Tells.of_ok _
    | false =>
      simp only [Bool.false_eq_true, if_false, get_eq_ok hb, ok_bind]
      by_cases hfirst : past.next ≤ ballot.period
      · rw [if_pos hfirst, if_pos (by omega)]
        exact nextStanding_tells h hcon _
      · rw [if_neg hfirst, if_neg (by omega)]
        by_cases hlen : past.length ≤ ballot.period
        · obtain ⟨m, hm⟩ := hv.missing h hb (by omega) hlen
          rw [if_pos hlen, hm]
          exact Tells.of_missing m
        · have hlt := Nat.lt_of_not_le hlen
          obtain ⟨a, ha, htake⟩ := hv.found h hb (by omega) hlt
          have hbefore := Past.next_take_sub hlt (show ballot.period ≤ past.next by omega)
          rw [if_neg hlen, ha, ok_bind]
          exact (ih htake (hcon.take _) (by omega)).bind fun s _ => nextStanding_tells h hcon s

/-- The verdict on a block is that on its past. -/
theorem verdict_tells (hv : v.Climbs) (h : HasPast v.block? id past) (hcon : past.Consecutive)
    (hperiod : 0 < ballot.period) :
    Tells (v.verdict clock ballot (some id)) (past.verdict? clock ballot) := by
  have hclosing := closing_eq hv h hcon hperiod
  rw [verdict, Past.verdict?]
  by_cases hnone : past.next < ballot.period
  · rw [if_pos hnone] at hclosing ⊢
    rw [hclosing]
    exact Tells.of_ok _
  · rw [if_neg hnone] at hclosing ⊢
    by_cases hlen : past.length ≤ past.next % ballot.period
    · rw [if_pos hlen] at hclosing ⊢
      obtain ⟨m, hm⟩ := hclosing
      rw [hm]
      exact Tells.of_missing m
    · rw [if_neg hlen] at hclosing ⊢
      obtain ⟨c, hc, htake⟩ := hclosing
      obtain ⟨b, hb, -⟩ := htake.exists_block
      have hnext := Past.next_take_closed (Nat.lt_of_not_le hlen)
      have hcount : b.above / ballot.period = past.next / ballot.period := by
        rw [htake.above_eq (hcon.take _) hb, hnext, Nat.mul_div_cancel _ hperiod]
      have hdiv : 0 < past.next / ballot.period := Nat.div_pos (Nat.le_of_not_lt hnone) hperiod
      rw [hc, ok_bind]
      simp only [get_eq_ok hb, ok_bind, hcount]
      refine settled_tells hv _ htake (hcon.take _) ?_
      rw [hnext]
      exact Nat.mul_pos hdiv hperiod

/-- With nothing remembered, the answer on a block tells what its past tells. -/
theorem standing_tells (hv : v.Climbs) (h : HasPast v.block? id past)
    (hcon : past.Consecutive) (clock : Clock) (hperiod : 0 < ballot.period) :
    Tells (v.standing clock ballot (some id) .empty).1 (past.verdict? clock ballot) := by
  have hanswer := standing_eq_verdict_of_hasPast hv h hcon
    (Memo.faithful_empty : Memo.Faithful _ clock ballot _)
  have hverdict : Tells (v.verdict clock ballot (some id)) _ := verdict_tells hv h hcon hperiod
  rw [← hanswer.1] at hverdict
  exact hverdict

/-- What a faithful memo remembers of a block is what is found there with nothing
remembered. -/
theorem standing_of_remembered (hv : v.Climbs) {m : Memo} (hm : m.Faithful v clock ballot)
    {s : Standing} (hs : m[id]? = some s) :
    (v.standing clock ballot (some id) .empty).1 = .ok s := by
  obtain ⟨periods, hcloses, hsettled⟩ := hm id s hs
  have hperiod := hcloses.pos
  have hperiods := hcloses.periods_pos
  obtain ⟨past, hpast, hcon, hpos, hnext⟩ := hcloses
  have hanswer := standing_tells hv hpast hcon clock hperiod
  rw [Past.verdict?_of_closed hpast.ne_nil hperiods hperiod hnext,
    (settled_tells hv periods hpast hcon hpos).eq_some hsettled] at hanswer
  exact hanswer

end View
end SoftFork
