import SoftFork.Proofs.Standing.Forward

/-!
# What the open period's votes decide

Votes are counted twice, in two places.  A tally counts those of the open period, from
any of its blocks back to where the period began.  The rules count once more at the block
that closes the period, over all of it.  An operator who reads the first count wants to
know what the second will be.

The two counts are sums over parts of one past: the votes at the closing block are those in
the tally and those of the blocks that come later (`Past.countVotes_of_take`).  The rules are
applied to the standing that the open period has, and that standing is the same at each of
its blocks.  So while votes count, the period locks in exactly when these votes together are
enough and the clock at its closing block is between start and timeout; and as a later block
brings at most one vote, what is not `possible` does not happen (`BlockTree.tally_foretells`).

All of this is about one tip and every branch above it, as far as the period goes.

## Clocks that run backwards above the tip

Under the clock that is meant to be monotone the walk from the closing block stops early if
the start time is not reached there.  Voting has started below, so this takes a clock that has
run backwards above the tip.  Then nothing locks in, however many votes there are
(`BlockTree.tally_misled_by_clock`).  The rule that forbids it would have to be kept by the
blocks above the tip, up to the closing one.  Of the tip itself nothing has to be asked: that
voting has started says enough.
-/

namespace SoftFork

namespace Past

variable {past later : Past} {clock : Clock} {ballot : Ballot} {votes : Block → Bool}

/-- The votes of the blocks at a height and above it. -/
def votesFrom (past : Past) (votes : Block → Bool) (height : Nat) : Nat :=
  past.countP fun b => decide (height ≤ b.height) && votes b

/-! ## Two ways to count -/

theorem countVotes_le (past : Past) (votes : Block → Bool) (blocks : Nat) :
    countVotes past votes blocks ≤ blocks := by
  refine Nat.le_trans List.countP_le_length ?_
  rw [List.length_drop]
  omega

/-- A block of a rooted past stands as high as its place in it. -/
theorem Rooted.height (hroot : Rooted past) (hcon : Consecutive past) {i : Nat}
    (h : i < past.length) : past[i].height = i := by
  rw [hcon i h, hroot.1, Nat.zero_add, Nat.mod_eq_of_lt (Nat.lt_trans h hroot.2)]

/-- The last blocks are those from a height on. -/
theorem countVotes_eq_votesFrom (hcon : Consecutive past) (hroot : Rooted past) {blocks : Nat}
    (hle : blocks ≤ past.length) :
    countVotes past votes blocks = votesFrom past votes (past.length - blocks) := by
  have hheight : ∀ i (h : i < past.length), past[i].height = i := fun i h => hroot.height hcon h
  have hlow : (past.take (past.length - blocks)).countP
      (fun b => decide (past.length - blocks ≤ b.height) && votes b) = 0 := by
    refine List.countP_eq_zero.mpr fun b hb => ?_
    obtain ⟨i, hi, rfl⟩ := List.getElem_of_mem hb
    rw [List.length_take] at hi
    rw [List.getElem_take, hheight i (by omega), decide_eq_false (by omega)]
    exact Bool.false_ne_true
  have hhigh : (past.drop (past.length - blocks)).countP
      (fun b => decide (past.length - blocks ≤ b.height) && votes b) =
      (past.drop (past.length - blocks)).countP votes := by
    refine List.countP_congr fun b hb => ?_
    obtain ⟨i, hi, rfl⟩ := List.getElem_of_mem hb
    rw [List.length_drop] at hi
    rw [List.getElem_drop, hheight _ (by omega), decide_eq_true (by omega), Bool.true_and]
  rw [votesFrom, ← List.take_append_drop (past.length - blocks) past, List.countP_append,
    List.take_append_drop, hlow, hhigh, Nat.zero_add, countVotes]

/-- At most all blocks from a height on vote. -/
theorem votesFrom_le (hcon : Consecutive past) (hroot : Rooted past) {k : Nat}
    (hle : k ≤ past.length) : votesFrom past votes k ≤ past.length - k := by
  have hcount : countVotes past votes (past.length - k) = votesFrom past votes _ :=
    countVotes_eq_votesFrom hcon hroot (Nat.sub_le _ _)
  rw [Nat.sub_sub_self hle] at hcount
  rw [← hcount]
  exact countVotes_le _ _ _

/-- When all of them vote, that many votes are there. -/
theorem votesFrom_eq_of_forall (hcon : Consecutive past) (hroot : Rooted past) {k : Nat}
    (hle : k ≤ past.length) (h : ∀ b ∈ past, k ≤ b.height → votes b = true) :
    votesFrom past votes k = past.length - k := by
  have hcount : countVotes past votes (past.length - k) = votesFrom past votes _ :=
    countVotes_eq_votesFrom hcon hroot (Nat.sub_le _ _)
  rw [Nat.sub_sub_self hle] at hcount
  rw [← hcount]
  refine countVotes_eq_of_forall (Nat.sub_le _ _) fun i hi hge => h _ (List.getElem_mem hi) ?_
  rw [hroot.height hcon hi]
  omega

/-- Blocks that come later add their votes to those of the blocks before. -/
theorem countVotes_of_take {k : Nat} (hle : k ≤ later.length) (blocks : Nat) :
    countVotes later votes (blocks + (later.length - k)) =
      countVotes (later.take k) votes blocks + countVotes later votes (later.length - k) := by
  have hlen : (later.take k).length = k := by
    rw [List.length_take, Nat.min_eq_left hle]
  have hdrop : later.drop (later.length - (blocks + (later.length - k))) =
      (later.take k).drop (k - blocks) ++ later.drop k := by
    rw [show later.length - (blocks + (later.length - k)) = k - blocks by omega,
      ← List.drop_append_of_le_length (by omega), List.take_append_drop]
  rw [countVotes, hdrop, List.countP_append, countVotes, hlen, countVotes,
    show later.length - (later.length - k) = k by omega]

/-! ## The period that is open while votes count -/

/-- Where voting has started, the clock had reached the start time when the period before
closed. -/
theorem startTime_le_of_started (hroot : Rooted past) (hperiod : 0 < ballot.period) {s : Standing}
    (hs : verdict? past .medianTimePast ballot = some s) (hstarted : s.phase = .started) :
    0 < past.length / ballot.period * ballot.period ∧ ballot.startTime ≤
      clockTime (past.take (past.length / ballot.period * ballot.period)) .medianTimePast := by
  have hinitial : verdict? past .medianTimePast ballot ≠ some .initial := by
    intro h
    rw [hs] at h
    obtain rfl := Option.some.inj h
    exact absurd hstarted (by decide)
  have hle := Nat.div_mul_le_self past.length ballot.period
  rw [← verdict?_take_closed hroot hperiod] at hinitial
  have hclosed : 0 < past.length / ballot.period * ballot.period := by
    refine Nat.pos_of_ne_zero fun hzero => hinitial ?_
    rw [hzero, List.take_zero, verdict?_nil hperiod]
  refine ⟨hclosed, Nat.le_of_not_lt fun hlt => hinitial ?_⟩
  have hrooted := hroot.take (past.length / ballot.period * ballot.period)
  have hlen : (past.take (past.length / ballot.period * ballot.period)).length =
      past.length / ballot.period * ballot.period := by
    rw [List.length_take, Nat.min_eq_left hle]
  obtain ⟨periods, hperiods⟩ := Nat.exists_eq_succ_of_ne_zero
    (Nat.ne_of_gt (Nat.pos_of_mul_pos_right hclosed))
  have hnext : next (past.take (past.length / ballot.period * ballot.period)) =
      (periods + 1) * ballot.period := by
    rw [hrooted.next, hlen, hperiods]
  have hne : past.take (past.length / ballot.period * ballot.period) ≠ [] :=
    List.ne_nil_of_length_pos (by rwa [hlen])
  refine verdict?_of_quiet hne hperiod hnext ?_
  rw [hrooted.isQuiet?_eq, decide_eq_true hlt]
  rfl

/-- At the end of a period in which votes count, a clock that has not run backwards shows the
start time. -/
theorem startTime_le_of_timely (hroot : Rooted later) (hperiod : 0 < ballot.period) {k : Nat}
    (hle : k ≤ later.length) {s : Standing}
    (hs : verdict? (later.take k) .medianTimePast ballot = some s) (hstarted : s.phase = .started)
    (htimely : Timely later) : ballot.startTime ≤ clockTime later .medianTimePast := by
  have hlen : (later.take k).length = k := by
    rw [List.length_take, Nat.min_eq_left hle]
  have hbelow : k / ballot.period * ballot.period ≤ k := Nat.div_mul_le_self _ _
  obtain ⟨hclosed, hstart⟩ := startTime_le_of_started (hroot.take k) hperiod hs hstarted
  rw [hlen] at hclosed hstart
  rw [List.take_take, Nat.min_eq_left hbelow] at hstart
  have hmono := clockTime_mono htimely hclosed (Nat.le_trans hbelow hle) (Nat.le_refl _)
  rw [List.take_length] at hmono
  exact Nat.le_trans hstart hmono

/-- There the rules are applied once more to the standing that the open period has. -/
theorem verdict?_of_open (hroot : Rooted later) (hperiod : 0 < ballot.period) {k : Nat}
    (hle : k ≤ later.length)
    (hlen : later.length = (k / ballot.period + 1) * ballot.period) {s : Standing}
    (hs : verdict? (later.take k) clock ballot = some s)
    (hquiet : isQuiet? later clock ballot = some false) :
    verdict? later clock ballot = some (nextStanding later clock ballot s) := by
  have hclosed : _ = verdict? (later.take k) clock ballot :=
    verdict?_take_closed (hroot.take k) hperiod
  rw [hs, List.length_take, Nat.min_eq_left hle, List.take_take,
    Nat.min_eq_left (Nat.div_mul_le_self _ _)] at hclosed
  have hwhole : ballot.period ≤ later.length := by
    rw [hlen]
    exact Nat.le_mul_of_pos_left _ (Nat.succ_pos _)
  rw [verdict?_of_comes hroot hperiod hlen hquiet, hclosed, Option.bind_eq_bind, Option.bind_some,
    nextStanding?, if_pos (hroot.suffices hwhole _)]

/-- While votes count the period locks in exactly when time has not run out at its end and the
votes are enough. -/
theorem phase_nextStanding_eq_lockedIn_iff {s : Standing} (hstarted : s.phase = .started) :
    (nextStanding past clock ballot s).phase = .lockedIn ↔
      clockTime past clock < ballot.timeout ∧
        ballot.threshold ≤ countVotes past ballot.votes ballot.period := by
  rw [phase_nextStanding, hstarted, nextPhase]
  by_cases htime : ballot.timeout ≤ clockTime past clock
  · rw [if_pos htime]
    exact ⟨fun h => absurd h (by decide), fun h => absurd htime (Nat.not_le.mpr h.1)⟩
  · rw [if_neg htime]
    by_cases hvotes : ballot.threshold ≤ countVotes past ballot.votes ballot.period
    · rw [if_pos hvotes]
      exact ⟨fun _ => ⟨Nat.lt_of_not_le htime, hvotes⟩, fun _ => rfl⟩
    · rw [if_neg hvotes]
      exact ⟨fun h => absurd h (by decide), fun h => absurd h.2 hvotes⟩

/-- The votes of the open period up to one of its blocks, and those of the later ones, are what
the closing block is judged by, unless the walk stops early there. -/
theorem verdict?_of_started (hroot : Rooted later) (hperiod : 0 < ballot.period) {k : Nat}
    (hle : k ≤ later.length) (hlen : later.length = (k / ballot.period + 1) * ballot.period)
    {s : Standing} (hs : verdict? (later.take k) clock ballot = some s)
    (hstarted : s.phase = .started) :
    ∃ s', verdict? later clock ballot = some s' ∧
      (s'.phase = .lockedIn ↔ clockTime later clock < ballot.timeout ∧
        (clock = .medianTimePast → ballot.startTime ≤ clockTime later clock) ∧
        ballot.threshold ≤ countVotes (later.take k) ballot.votes (k % ballot.period) +
          countVotes later ballot.votes (later.length - k)) := by
  have hmod : k / ballot.period * ballot.period + k % ballot.period = k :=
    Nat.div_add_mod' k ballot.period
  have hmul : (k / ballot.period + 1) * ballot.period =
      k / ballot.period * ballot.period + ballot.period := Nat.succ_mul _ _
  have hquiet : isQuiet? later clock ballot = _ := hroot.isQuiet?_eq
  cases hearly : clock.isMonotone && decide (clockTime later clock < ballot.startTime) with
  | true =>
    rw [hearly] at hquiet
    obtain ⟨hclock, hlt⟩ := hroot.clockTime_lt_of_quiet hquiet
    have hne : later ≠ [] := List.ne_nil_of_length_pos (by omega)
    refine ⟨_, verdict?_of_quiet hne hperiod (hroot.next.trans hlen) hquiet, ?_⟩
    exact ⟨fun h => absurd h (by decide), fun h => absurd (h.2.1 hclock) (Nat.not_le.mpr hlt)⟩
  | false =>
    rw [hearly] at hquiet
    have hstart : clock = .medianTimePast → ballot.startTime ≤ clockTime later clock := by
      rintro rfl
      exact Nat.le_of_not_lt (of_decide_eq_false hearly)
    refine ⟨_, verdict?_of_open hroot hperiod hle hlen hs hquiet, ?_⟩
    rw [← countVotes_of_take hle,
      show k % ballot.period + (later.length - k) = ballot.period by omega,
      phase_nextStanding_eq_lockedIn_iff hstarted]
    exact and_congr_right fun _ => (and_iff_right hstart).symm

end Past

/-- The past of what a block stands on is the beginning of the block's. -/
theorem StandsOn.take_eq {block? : BlockId → Option Block} {id a : BlockId} {past before : Past}
    (ha : StandsOn block? id a) (hpast : HasPast block? id past)
    (hbefore : HasPast block? a before) :
    before.length ≤ past.length ∧ past.take before.length = before := by
  obtain ⟨k, -, hle, htake⟩ := ha.hasPast hpast
  obtain rfl := hbefore.unique htake
  rw [List.length_take, Nat.min_eq_left hle]
  exact ⟨hle, rfl⟩

namespace BlockTree

/-- The tally at a block whose links lead to genesis is given, and it counts the blocks of the
open period. -/
theorem tally_of_rooted {t : BlockTree} (ht : t.Sound) {tip : BlockId} {past : Past}
    (hpast : HasPast t.block? tip past) (hroot : past.Rooted) {ballot : Ballot}
    (hperiod : 0 < ballot.period) :
    t.view.tally ballot (some tip) = .ok (Tally.of (past.length / ballot.period) ballot.period
      ballot.threshold (past.length % ballot.period)
      (past.countVotes ballot.votes (past.length % ballot.period))) := by
  have htally : Tells (t.view.tally ballot (some tip)) (past.tally? ballot) :=
    View.tally_tells hpast (ht.consecutive hpast) ballot hperiod
  rw [Past.tally?, hroot.next, Past.countVotes?, if_pos (Nat.mod_le _ _)] at htally
  exact htally

/-- Above a block after which votes count, at a block that closes the period: it locks in exactly
when time has not run out, the clock has not run back below the start, and the votes up to the
lower block and above it are enough. -/
theorem lockedIn_iff_of_started {digest : Header → BlockHash} {acts : List Act}
    {tip last : BlockId} {past later : Past} (hpast : HasPast (grown digest acts).block? tip past)
    (hlater : HasPast (grown digest acts).block? last later)
    (hstands : StandsOn (grown digest acts).block? last tip) (hroot : later.Rooted) {clock : Clock}
    {ballot : Ballot} (hperiod : 0 < ballot.period)
    (hlen : later.length = (past.length / ballot.period + 1) * ballot.period) {m m' : Memo}
    (hm : m.Remembered digest clock ballot acts) (hm' : m'.Remembered digest clock ballot acts)
    {s : Standing}
    (hs : ((grown digest acts).view.standing clock ballot (some tip) m).1 = .ok s)
    (hstarted : s.phase = .started) :
    ∃ s' time, ((grown digest acts).view.standing clock ballot (some last) m').1 = .ok s' ∧
      (grown digest acts).view.clockTime clock last = .ok time ∧
      (s'.phase = .lockedIn ↔ time < ballot.timeout ∧
        (clock = .medianTimePast → ballot.startTime ≤ time) ∧
        ballot.threshold ≤ past.countVotes ballot.votes (past.length % ballot.period) +
          later.votesFrom ballot.votes past.length) ∧
      (clock = .medianTimePast → later.Timely → ballot.startTime ≤ time) := by
  obtain ⟨hle, htake⟩ := hstands.take_eq hlater hpast
  have hcount : later.countVotes ballot.votes (later.length - past.length) =
      later.votesFrom ballot.votes _ :=
    Past.countVotes_eq_votesFrom ((sound_grown digest acts).consecutive hlater) hroot
      (Nat.sub_le _ _)
  rw [Nat.sub_sub_self hle] at hcount
  have hverdict := (hm.standing_tells hpast hperiod).eq_some hs
  rw [← htake] at hverdict
  obtain ⟨s', hs', hiff⟩ := Past.verdict?_of_started hroot hperiod hle hlen hverdict hstarted
  have hanswer := hm'.standing_tells hlater hperiod
  have hclock := View.clockTime_tells (v := (grown digest acts).view) hlater clock
  rw [hs'] at hanswer
  rw [Past.clockTime?, if_pos (hroot.legible clock)] at hclock
  rw [htake, hcount] at hiff
  refine ⟨s', _, hanswer, hclock, hiff, ?_⟩
  rintro rfl htimely
  exact Past.startTime_le_of_timely hroot hperiod hle hverdict hstarted htimely

/-- In every tree that has grown, at every block whose links lead to genesis: the tally counts
the votes of the open period.  If votes count there, then at every block above at which
the period closes, on whatever branch, the period locks in exactly when time has not run out,
these votes and those above the tip are enough, and the clock, if it is the one that is meant to
be monotone, has not run back below the start.  It has not where the blocks keep the rule for
their times.  What is not possible does not happen, and what is possible happens if all blocks to
come vote in time. -/
theorem tally_foretells (digest : Header → BlockHash) (acts : List Act) {tip : BlockId}
    {b : Block} {past : Past} (hb : (grown digest acts).block? tip = some b)
    (hpast : HasPast (grown digest acts).block? tip past) (hroot : past.Rooted) (clock : Clock)
    (ballot : Ballot) (hperiod : 0 < ballot.period) {m m' : Memo}
    (hm : m.Remembered digest clock ballot acts) (hm' : m'.Remembered digest clock ballot acts) :
    ∃ tally, (grown digest acts).view.tally ballot (some tip) = .ok tally ∧
      (tally.periodIndex * ballot.period + tally.elapsed = b.height + 1 ∧
        tally.elapsed < ballot.period ∧
        tally.count = past.votesFrom ballot.votes (tally.periodIndex * ballot.period) ∧
        tally.count ≤ tally.elapsed ∧ tally.elapsed + tally.remaining = ballot.period) ∧
      ∀ s, ((grown digest acts).view.standing clock ballot (some tip) m).1 = .ok s →
        s.phase = .started → ∀ last c later, StandsOn (grown digest acts).block? last tip →
        (grown digest acts).block? last = some c →
        c.height + 1 = (tally.periodIndex + 1) * ballot.period →
        HasPast (grown digest acts).block? last later → later.Rooted →
        ∃ s' time, ((grown digest acts).view.standing clock ballot (some last) m').1 = .ok s' ∧
          (grown digest acts).view.clockTime clock last = .ok time ∧
          (s'.phase = .lockedIn ↔ time < ballot.timeout ∧
            (clock = .medianTimePast → ballot.startTime ≤ time) ∧
            ballot.threshold ≤ tally.count + later.votesFrom ballot.votes (b.height + 1)) ∧
          (clock = .medianTimePast → later.Timely → ballot.startTime ≤ time) ∧
          (tally.possible = false → s'.phase ≠ .lockedIn) ∧
          (tally.possible = true → time < ballot.timeout →
            (clock = .medianTimePast → ballot.startTime ≤ time) →
            (∀ c ∈ later, b.height < c.height → ballot.votes c = true) →
            s'.phase = .lockedIn) := by
  have ht := sound_grown digest acts
  have hcon := ht.consecutive hpast
  have hheight := hpast.height_of_rooted hcon hroot hb
  have hmod : past.length / ballot.period * ballot.period + past.length % ballot.period =
      past.length := Nat.div_add_mod' _ _
  have hlt : past.length % ballot.period < ballot.period := Nat.mod_lt _ hperiod
  refine ⟨_, tally_of_rooted ht hpast hroot hperiod, ⟨hmod.trans hheight.symm, hlt, ?_,
    Past.countVotes_le _ _ _, Nat.add_sub_cancel' (Nat.le_of_lt hlt)⟩, ?_⟩
  · show past.countVotes ballot.votes (past.length % ballot.period) =
      past.votesFrom ballot.votes (past.length / ballot.period * ballot.period)
    rw [Past.countVotes_eq_votesFrom hcon hroot (Nat.mod_le _ _),
      show past.length - past.length % ballot.period =
        past.length / ballot.period * ballot.period by omega]
  · intro s hs hstarted last c later hstands hc hclosing hlater hroot'
    have hcon' := ht.consecutive hlater
    have hle := (hstands.take_eq hlater hpast).1
    have hlen : later.length = (past.length / ballot.period + 1) * ballot.period :=
      (hlater.height_of_rooted hcon' hroot' hc).symm.trans hclosing
    have hmul : (past.length / ballot.period + 1) * ballot.period =
        past.length / ballot.period * ballot.period + ballot.period := Nat.succ_mul _ _
    obtain ⟨s', time, hs', htime, hiff, htimely⟩ := lockedIn_iff_of_started hpast hlater hstands
      hroot' hperiod hlen hm hm' hs hstarted
    refine ⟨s', time, hs', htime, by rwa [hheight], htimely, fun himpossible hlocked => ?_,
      fun hpossible hintime hstart hvote => ?_⟩
    · have hmost : later.votesFrom ballot.votes past.length ≤ later.length - past.length :=
        Past.votesFrom_le hcon' hroot' hle
      have hnot : ¬ ballot.threshold ≤ past.countVotes ballot.votes (past.length % ballot.period) +
          (ballot.period - past.length % ballot.period) := of_decide_eq_false himpossible
      have henough := (hiff.mp hlocked).2.2
      omega
    · have hall : later.votesFrom ballot.votes past.length = later.length - past.length :=
        Past.votesFrom_eq_of_forall hcon' hroot' hle fun c hmem hge =>
          hvote c hmem (by omega)
      have hcan : ballot.threshold ≤ past.countVotes ballot.votes (past.length % ballot.period) +
          (ballot.period - past.length % ballot.period) := of_decide_eq_true hpossible
      exact hiff.mpr ⟨hintime, hstart, by omega⟩

/-- The fifth block of the row, on which the branch stands as well.  It votes, and one more vote is
needed.  The row's next block gives it and the branch's does not. -/
theorem tally_foretells_forked :
    (grown nonceDigest forkedActs).view.tally pairBallot (some 4) = .ok (Tally.of 2 2 2 1 1) ∧
      (∃ s, ((grown nonceDigest forkedActs).view.standing .medianTimePast pairBallot (some 5)
          .empty).1 = .ok s ∧ s.phase = .lockedIn) ∧
      ∃ s, ((grown nonceDigest forkedActs).view.standing .medianTimePast pairBallot (some 8)
          .empty).1 = .ok s ∧ s.phase ≠ .lockedIn := by
  have hblocks : HasPast (grown nonceDigest forkedActs).block? 4 (forkedPast.take 5) ∧
      (grown nonceDigest forkedActs).block? 4 = some (blockOn (some 3) 5 4 22 0x20000001) ∧
      (grown nonceDigest forkedActs).block? 5 = some (blockOn (some 4) 6 5 40 0x20000001) ∧
      (grown nonceDigest forkedActs).block? 8 = some (blockOn (some 4) 9 5 41 4) := by
    decide +kernel
  obtain ⟨hpast, hb, hvotes, hother⟩ := hblocks
  have hnothing : Memo.Remembered nonceDigest .medianTimePast pairBallot forkedActs .empty :=
    .nothing forkedActs
  have hstarted := hnothing.standing_tells hpast (by decide)
  rw [show Past.verdict? (forkedPast.take 5) .medianTimePast pairBallot = some ⟨.started, 4⟩ by
    cbv] at hstarted
  have hcount : (grown nonceDigest forkedActs).view.tally pairBallot (some 4) =
      .ok (Tally.of 2 2 2 1 1) :=
    tally_of_rooted (sound_grown nonceDigest forkedActs) hpast (by decide) (by decide)
  obtain ⟨tally, htally, -, hclose⟩ := tally_foretells nonceDigest forkedActs hb hpast (by decide)
    .medianTimePast pairBallot (by decide) hnothing hnothing
  rw [hcount] at htally
  obtain rfl := Except.ok.inj htally
  refine ⟨hcount, ?_, ?_⟩
  · have hsix := HasPast.later hvotes rfl hpast
    obtain ⟨s, time, hs, htime, hiff, -⟩ := hclose _ hstarted rfl 5 _ _
      (.parent .self hvotes rfl) hvotes rfl hsix (by decide)
    have hclock := View.clockTime_tells (v := (grown nonceDigest forkedActs).view) hsix
      .medianTimePast
    rw [show Past.clockTime? _ .medianTimePast = some 22 by cbv] at hclock
    obtain rfl := Except.ok.inj (hclock.symm.trans htime)
    exact ⟨s, hs, hiff.mpr ⟨by decide, fun _ => by decide, by decide⟩⟩
  · obtain ⟨s, time, hs, -, hiff, -⟩ := hclose _ hstarted rfl 8 _ _
      (.parent .self hother rfl) hother rfl (.later hother rfl hpast) (by decide)
    exact ⟨s, hs, fun hlocked => absurd (hiff.mp hlocked).2.2 (by decide)⟩

/-- Eight blocks in a row, all of which vote.  The times of the first four rise, and those of the
others are far below. -/
def fallingActs : List Act :=
  [.genesis (headerOn 0 1 10 0x20000001),
   .insert (headerOn 1 2 20 0x20000001),
   .insert (headerOn 2 3 21 0x20000001),
   .insert (headerOn 3 4 30 0x20000001),
   .insert (headerOn 4 5 1 0x20000001),
   .insert (headerOn 5 6 1 0x20000001),
   .insert (headerOn 6 7 1 0x20000001),
   .insert (headerOn 7 8 1 0x20000001)]

/-- The past of the fourth of them. -/
def risingPast : Past :=
  [blockOn none 1 0 10 0x20000001, blockOn (some 0) 2 1 20 0x20000001,
   blockOn (some 1) 3 2 21 0x20000001, blockOn (some 2) 4 3 30 0x20000001]

/-- A ballot with periods of four blocks, all of which have to vote. -/
def quadBallot : Ballot :=
  { pairBallot with startTime := 20, period := 4, threshold := 4 }

/-- Up to the fourth block every time is above the median before it, and with this block voting
starts.  The next four vote, all of them, and the last one closes their period before the timeout.
Its median has run back below the start, and what is reported is the standing at genesis. -/
theorem tally_misled_by_clock :
    HasPast (grown nonceDigest fallingActs).block? 3 risingPast ∧ risingPast.Rooted ∧
      risingPast.Timely ∧ quadBallot.startTime < quadBallot.timeout ∧
      (grown nonceDigest fallingActs).view.tally quadBallot (some 3) = .ok (Tally.of 1 4 4 0 0) ∧
      ((grown nonceDigest fallingActs).view.standing .medianTimePast quadBallot (some 3)
        .empty).1 = .ok ⟨.started, 4⟩ ∧
      StandsOn (grown nonceDigest fallingActs).block? 7 3 ∧
      (grown nonceDigest fallingActs).view.countWhere quadBallot.votes 4 7 = .ok 4 ∧
      (grown nonceDigest fallingActs).view.clockTime .medianTimePast 7 = .ok 10 ∧
      ((grown nonceDigest fallingActs).view.standing .medianTimePast quadBallot (some 7)
        .empty).1 = .ok .initial := by
  have hrun : HasPast (grown nonceDigest fallingActs).block? 3 risingPast ∧
      ((grown nonceDigest fallingActs).view.tally quadBallot (some 3)).toOption =
        some (Tally.of 1 4 4 0 0) ∧
      ((grown nonceDigest fallingActs).plainView.climb 4 7).toOption = some 3 ∧
      ((grown nonceDigest fallingActs).view.countWhere quadBallot.votes 4 7).toOption = some 4 := by
    decide +kernel
  obtain ⟨hpast, htally, hclimb, hvotes⟩ := hrun
  exact ⟨hpast, by decide, by decide +kernel, by decide, eq_ok_of_toOption htally, by cbv,
    View.standsOn_of_climb 4 (eq_ok_of_toOption hclimb), eq_ok_of_toOption hvotes, by cbv, by cbv⟩

end BlockTree
end SoftFork
