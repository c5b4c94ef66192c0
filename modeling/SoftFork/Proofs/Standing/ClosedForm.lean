import SoftFork.Proofs.Standing.Replay

/-!
# What a standing means

The replay says how a standing comes about.  The closed form says what it is, by
looking at all closing blocks at once and replaying nothing.

Three facts about the closed periods decide.  A period *locks in* when no clock
up to its closing block had reached the timeout, some clock before it had reached
the start, and its votes are enough (`LocksIn`).  The first period that locks in
settles the matter: the rule is in force from the first later period that ends at
its minimum height or above.  Without such a period the first clock that reached
the timeout decides, and without that the first that reached the start.

Clocks may run backwards.  Nothing is said about the order in which start and
timeout are reached; the first closing block of each kind is all that counts.

## The step

Both descriptions take one period after another, and a closed form of one period
more is one step of the rules (`closedFormTo_succ`).  The cases are those of the
closed form.  Each first number that has been found stays the first when a
further one is looked at (`firstOf_succ_of_some`), so in every case only the last period
has to be examined.
-/

namespace SoftFork

/-! ## First numbers -/

/-- The first of the numbers from one to `n` with a property. -/
def firstOf (n : Nat) (p : Nat → Prop) [DecidablePred p] : Option Nat :=
  (List.range' 1 n).find? fun i => decide (p i)

variable {n i : Nat} {p : Nat → Prop} [DecidablePred p]

/-- What has been found stays the first when a further number is looked at. -/
theorem firstOf_succ_of_some (h : firstOf n p = some i) : firstOf (n + 1) p = some i := by
  rw [firstOf] at h
  rw [firstOf, List.range'_1_concat, List.find?_append, h]
  rfl

/-- While nothing has been found only the last number can be the first. -/
theorem firstOf_succ_of_none (h : firstOf n p = none) :
    firstOf (n + 1) p = if p (n + 1) then some (n + 1) else none := by
  rw [firstOf] at h
  rw [firstOf, List.range'_1_concat, List.find?_append, h, Nat.add_comm 1 n, Option.none_or,
    List.find?_singleton]
  simp only [decide_eq_true_eq]

theorem firstOf_eq_some_iff :
    firstOf n p = some i ↔ p i ∧ (0 < i ∧ i ≤ n) ∧ ∀ j, 0 < j → j < i → ¬ p j := by
  rw [firstOf, List.find?_range'_eq_some, decide_eq_true_eq, List.mem_range'_1, Nat.add_comm 1 n,
    Nat.lt_succ_iff, Nat.succ_le_iff]
  simp only [Nat.succ_le_iff, Bool.not_eq_true', decide_eq_false_iff_not]

theorem firstOf_eq_none_iff : firstOf n p = none ↔ ∀ j, 0 < j → j ≤ n → ¬ p j := by
  rw [firstOf, List.find?_range'_eq_none, Nat.add_comm 1 n]
  simp only [Nat.succ_le_iff, Nat.lt_succ_iff, Bool.not_eq_true', decide_eq_false_iff_not]

namespace Past

/-! ## The closed form -/

/-- What the clock shows at the closing block of a period; the first is numbered one. -/
def clockAt (past : Past) (clock : Clock) (ballot : Ballot) (i : Nat) : Nat :=
  clockTime (past.take (i * ballot.period)) clock

/-- The votes in a period. -/
def votesAt (past : Past) (ballot : Ballot) (i : Nat) : Nat :=
  countVotes (past.take (i * ballot.period)) ballot.votes ballot.period

/-- The period would lock in, if none had before: time had not run out up to its end,
voting had started before it, and its votes are enough. -/
def LocksIn (past : Past) (clock : Clock) (ballot : Ballot) (j : Nat) : Prop :=
  (∀ i, i ≤ j → 0 < i → clockAt past clock ballot i < ballot.timeout) ∧
    (∃ i, i < j ∧ 0 < i ∧ ballot.startTime ≤ clockAt past clock ballot i) ∧
    ballot.threshold ≤ votesAt past ballot j

instance (past : Past) (clock : Clock) (ballot : Ballot) (j : Nat) :
    Decidable (LocksIn past clock ballot j) :=
  inferInstanceAs (Decidable (_ ∧ _ ∧ _))

/-- The standing after `n` periods of a past that starts at genesis, from all their
closing blocks at once. -/
def closedFormTo (past : Past) (clock : Clock) (ballot : Ballot) (n : Nat) : Standing :=
  match firstOf n (LocksIn past clock ballot) with
  | some l =>
    match firstOf n fun k => l < k ∧ ballot.minActivationHeight ≤ k * ballot.period with
    | some k => ⟨.active, k * ballot.period⟩
    | none => ⟨.lockedIn, l * ballot.period⟩
  | none =>
    match firstOf n fun i => ballot.timeout ≤ clockAt past clock ballot i with
    | some i => ⟨.failed, i * ballot.period⟩
    | none =>
      match firstOf n fun i => ballot.startTime ≤ clockAt past clock ballot i with
      | some i => ⟨.started, i * ballot.period⟩
      | none => ⟨.defined, 0⟩

/-- The standing after all the periods closed in a past that starts at genesis. -/
def closedForm (past : Past) (clock : Clock) (ballot : Ballot) : Standing :=
  closedFormTo past clock ballot (past.length / ballot.period)

variable {past : Past} {clock : Clock} {ballot : Ballot}

/-- Without a period that locks in, nothing is settled. -/
theorem isSettled_closedFormTo_of_none {n : Nat}
    (h : firstOf n (LocksIn past clock ballot) = none) :
    (closedFormTo past clock ballot n).phase.isSettled = false := by
  rw [closedFormTo, h]
  simp only
  split
  · rfl
  · split <;> rfl

/-- A rule that waits for no height is in force one period after it has locked in. -/
theorem phase_closedFormTo_of_some {n l : Nat} (hmin : ballot.minActivationHeight = 0)
    (h : firstOf n (LocksIn past clock ballot) = some l) :
    (closedFormTo past clock ballot n).phase = if l = n then .lockedIn else .active := by
  obtain ⟨-, ⟨-, hle⟩, -⟩ := firstOf_eq_some_iff.mp h
  rw [closedFormTo, h]
  simp only [hmin, Nat.zero_le, and_true]
  cases hk : firstOf n fun k => l < k with
  | none =>
    have hlast : l = n := by
      refine Nat.le_antisymm hle (Nat.le_of_not_lt fun hlt => ?_)
      exact firstOf_eq_none_iff.mp hk n (by omega) (Nat.le_refl n) hlt
    rw [if_pos hlast]
  | some k =>
    obtain ⟨hlt, ⟨-, hkn⟩, -⟩ := firstOf_eq_some_iff.mp hk
    rw [if_neg (by omega)]

/-! ## One period more -/

/-- While time has not run out the last of the periods locks in when time has not run
out at its end either, voting has started before it and its votes are enough. -/
theorem locksIn_succ_iff {n : Nat}
    (h : (firstOf n fun i => ballot.timeout ≤ clockAt past clock ballot i) = none) :
    LocksIn past clock ballot (n + 1) ↔ clockAt past clock ballot (n + 1) < ballot.timeout ∧
      (firstOf n fun i => ballot.startTime ≤ clockAt past clock ballot i) ≠ none ∧
      ballot.threshold ≤ votesAt past ballot (n + 1) := by
  rw [firstOf_eq_none_iff] at h
  constructor
  · rintro ⟨htimes, ⟨i, hlt, hpos, hstart⟩, hvotes⟩
    refine ⟨htimes (n + 1) (Nat.le_refl _) n.succ_pos, fun hnone => ?_, hvotes⟩
    exact firstOf_eq_none_iff.mp hnone i hpos (Nat.le_of_lt_succ hlt) hstart
  · rintro ⟨htime, hsome, hvotes⟩
    obtain ⟨i, hi⟩ := Option.ne_none_iff_exists'.mp hsome
    obtain ⟨hstart, ⟨hpos, hle⟩, -⟩ := firstOf_eq_some_iff.mp hi
    refine ⟨fun j hj hjpos => ?_, ⟨i, Nat.lt_succ_of_le hle, hpos, hstart⟩, hvotes⟩
    rcases Nat.le_or_eq_of_le_succ hj with hle | rfl
    · exact Nat.lt_of_not_le (h j hjpos hle)
    · exact htime

/-- The rules at a closing block of a past that starts at genesis. -/
theorem nextStanding_take (hroot : Rooted past) {i : Nat}
    (hle : i * ballot.period ≤ past.length) (s : Standing) :
    nextStanding (past.take (i * ballot.period)) clock ballot s =
      s.advance
        (match s.phase with
          | .defined =>
            if ballot.timeout ≤ clockAt past clock ballot i then .failed
            else if ballot.startTime ≤ clockAt past clock ballot i then .started
            else .defined
          | .started =>
            if ballot.timeout ≤ clockAt past clock ballot i then .failed
            else if ballot.threshold ≤ votesAt past ballot i then .lockedIn
            else .started
          | .lockedIn =>
            if ballot.minActivationHeight ≤ i * ballot.period then .active else .lockedIn
          | .active => .active
          | .failed => .failed)
        (i * ballot.period) := by
  have hnext := hroot.next_take hle
  rw [nextStanding, hnext]
  cases s.phase with
  | lockedIn => rw [nextPhase, hnext]
  | _ => rfl

section Step

variable {n : Nat} (hroot : Rooted past) (hle : (n + 1) * ballot.period ≤ past.length)

include hroot hle

/-- One period more after one that locks in: the rule comes into force, or waits. -/
theorem closedFormTo_succ_of_locked {l : Nat}
    (hl : firstOf n (LocksIn past clock ballot) = some l) :
    closedFormTo past clock ballot (n + 1) =
      nextStanding (past.take ((n + 1) * ballot.period)) clock ballot
        (closedFormTo past clock ballot n) := by
  have hlocked := firstOf_succ_of_some hl
  obtain ⟨-, ⟨-, hln⟩, -⟩ := firstOf_eq_some_iff.mp hl
  rw [nextStanding_take hroot hle]
  cases hk : firstOf n fun k => l < k ∧ ballot.minActivationHeight ≤ k * ballot.period with
  | some k =>
    have hactive := firstOf_succ_of_some hk
    simp only [closedFormTo, hl, hk, hlocked, hactive]
    rfl
  | none =>
    have hactive := firstOf_succ_of_none hk
    simp only [closedFormTo, hl, hk, hlocked, hactive]
    by_cases hmin : ballot.minActivationHeight ≤ (n + 1) * ballot.period
    · rw [if_pos ⟨Nat.lt_succ_of_le hln, hmin⟩, if_pos hmin]
      rfl
    · rw [if_neg fun h => hmin h.2, if_neg hmin]
      rfl

/-- One period more while votes count: time runs out, or the period locks in, or
nothing changes. -/
theorem closedFormTo_succ_of_started {s : Nat}
    (hl : firstOf n (LocksIn past clock ballot) = none)
    (ht : (firstOf n fun i => ballot.timeout ≤ clockAt past clock ballot i) = none)
    (hs : (firstOf n fun i => ballot.startTime ≤ clockAt past clock ballot i) = some s) :
    closedFormTo past clock ballot (n + 1) =
      nextStanding (past.take ((n + 1) * ballot.period)) clock ballot
        (closedFormTo past clock ballot n) := by
  have hlocked := firstOf_succ_of_none hl
  have hfailed := firstOf_succ_of_none ht
  have hstarted := firstOf_succ_of_some hs
  have hiff := locksIn_succ_iff ht
  rw [hs] at hiff
  rw [nextStanding_take hroot hle]
  simp only [closedFormTo, hl, ht, hs, hlocked, hfailed, hstarted]
  by_cases htime : ballot.timeout ≤ clockAt past clock ballot (n + 1)
  · rw [if_neg fun h => Nat.not_lt.mpr htime (hiff.mp h).1, if_pos htime, if_pos htime]
    rfl
  · by_cases hvotes : ballot.threshold ≤ votesAt past ballot (n + 1)
    · -- no closing block lies above the one that locks in
      have hnone : (firstOf (n + 1) fun k =>
          n + 1 < k ∧ ballot.minActivationHeight ≤ k * ballot.period) = none :=
        firstOf_eq_none_iff.mpr fun k _ hk h => Nat.not_lt.mpr hk h.1
      rw [if_pos (hiff.mpr ⟨Nat.lt_of_not_le htime, by simp, hvotes⟩), if_pos hvotes]
      simp only [hnone, if_neg htime]
      rfl
    · rw [if_neg fun h => hvotes (hiff.mp h).2.2, if_neg htime, if_neg htime, if_neg hvotes]
      rfl

/-- One period more before votes count: time runs out, or voting starts, or nothing
changes. -/
theorem closedFormTo_succ_of_defined
    (hl : firstOf n (LocksIn past clock ballot) = none)
    (ht : (firstOf n fun i => ballot.timeout ≤ clockAt past clock ballot i) = none)
    (hs : (firstOf n fun i => ballot.startTime ≤ clockAt past clock ballot i) = none) :
    closedFormTo past clock ballot (n + 1) =
      nextStanding (past.take ((n + 1) * ballot.period)) clock ballot
        (closedFormTo past clock ballot n) := by
  have hlocked := firstOf_succ_of_none hl
  have hfailed := firstOf_succ_of_none ht
  have hstarted := firstOf_succ_of_none hs
  have hnot : ¬ LocksIn past clock ballot (n + 1) := fun h => ((locksIn_succ_iff ht).mp h).2.1 hs
  rw [if_neg hnot] at hlocked
  rw [nextStanding_take hroot hle]
  simp only [closedFormTo, hl, ht, hs, hlocked, hfailed, hstarted]
  by_cases htime : ballot.timeout ≤ clockAt past clock ballot (n + 1)
  · rw [if_pos htime, if_pos htime]
    rfl
  · rw [if_neg htime, if_neg htime]
    by_cases hstart : ballot.startTime ≤ clockAt past clock ballot (n + 1)
    · rw [if_pos hstart, if_pos hstart]
      rfl
    · rw [if_neg hstart, if_neg hstart]
      rfl

/-- The closed form of one period more is one step of the rules. -/
theorem closedFormTo_succ :
    closedFormTo past clock ballot (n + 1) =
      nextStanding (past.take ((n + 1) * ballot.period)) clock ballot
        (closedFormTo past clock ballot n) := by
  cases hl : firstOf n (LocksIn past clock ballot) with
  | some l => exact closedFormTo_succ_of_locked hroot hle hl
  | none =>
    cases ht : firstOf n fun i => ballot.timeout ≤ clockAt past clock ballot i with
    | some t =>
      -- a period that ends after time has run out cannot lock in any more
      obtain ⟨htime, ⟨htpos, htn⟩, -⟩ := firstOf_eq_some_iff.mp ht
      have hnot : ¬ LocksIn past clock ballot (n + 1) := fun h =>
        absurd (h.1 t (by omega) htpos) (Nat.not_lt.mpr htime)
      have hlocked := firstOf_succ_of_none hl
      have hfailed := firstOf_succ_of_some ht
      rw [if_neg hnot] at hlocked
      rw [nextStanding_take hroot hle]
      simp only [closedFormTo, hl, ht, hlocked, hfailed]
      rfl
    | none =>
      cases hs : firstOf n fun i => ballot.startTime ≤ clockAt past clock ballot i with
      | some s => exact closedFormTo_succ_of_started hroot hle hl ht hs
      | none => exact closedFormTo_succ_of_defined hroot hle hl ht hs

end Step

/-- The replay comes to the closed form. -/
theorem replayTo_eq_closedFormTo (hroot : Rooted past) {n : Nat}
    (hle : n * ballot.period ≤ past.length) :
    replayTo past clock ballot n = closedFormTo past clock ballot n := by
  induction n with
  | zero => rfl
  | succ n ih =>
    have hbefore : n * ballot.period ≤ past.length :=
      Nat.le_trans (Nat.mul_le_mul_right _ n.le_succ) hle
    rw [replayTo, ih hbefore, closedFormTo_succ hroot hle]

theorem replay_eq_closedForm (hroot : Rooted past) :
    replay past clock ballot = closedForm past clock ballot :=
  replayTo_eq_closedFormTo hroot (Nat.div_mul_le_self _ _)

end Past

namespace BlockTree

/-- In every tree that has grown, at every block whose links lead to genesis: the
standing is the closed form of the closed periods. -/
theorem standing_eq_closedForm (digest : Header → BlockHash) (acts : List Act)
    {prev : BlockId} {past : Past} (hpast : HasPast (grown digest acts).block? prev past)
    (hroot : past.Rooted) (clock : Clock) (ballot : Ballot) (hperiod : 0 < ballot.period)
    (hrule : clock = .medianTimePast → past.Timely ∧ ballot.startTime < ballot.timeout) :
    ((grown digest acts).view.standing clock ballot (some prev) .empty).1 =
      .ok (past.closedForm clock ballot) := by
  have ht := sound_grown digest acts
  rw [← Past.replay_eq_closedForm hroot]
  exact View.standing_of_rooted ht.climbs hpast (ht.consecutive hpast) hroot hperiod hrule

/-- The past of the tip of the forked tree. -/
def branchPast : Past :=
  forkedPast.take 5 ++
    [blockOn (some 4) 9 5 41 4, blockOn (some 8) 10 6 51 0x20000001,
     blockOn (some 9) 11 7 61 0x20000001]

/-- On the branch one vote is missing in the third period, and the fourth locks in. -/
theorem standing_branch :
    ((grown nonceDigest forkedActs).view.standing .blockTime pairBallot (some 10) .empty).1 =
      .ok ⟨.lockedIn, 8⟩ := by
  have hform : branchPast.closedForm .blockTime pairBallot = ⟨.lockedIn, 8⟩ := by decide +kernel
  have hpast : HasPast (grown nonceDigest forkedActs).block? 10 branchPast := by decide +kernel
  rw [← hform]
  exact standing_eq_closedForm nonceDigest forkedActs hpast (by decide) .blockTime pairBallot
    (by decide) fun h => absurd h (by decide)

end BlockTree
end SoftFork
