import SoftFork.Proofs.Standing.ClosedForm
import SoftFork.Proofs.Survey.Agreement

/-!
# Rules that nobody has announced

A bit that no deployment claims is followed like a deployment whose time has always been and
never ends.  What the walk makes of it can then be said in terms of votes alone.  Voting is
open after the first period, whatever its blocks are, because every clock is past zero.
From then on the first period with enough votes locks in, since no clock gets to the end of
time (`BlockTree.time_lt_of_grown`), and with the next period the rule is in force, as
there is no height to wait for (`Past.settles_unclaimed_iff`).

## No rule for the times

Under the clock that is meant to be monotone the walk stops early where the start time has not
been reached.  It is reached everywhere here, so nothing has to be asked of the times, and a
clock that runs backwards cannot hide a bit.

## Which bits are unclaimed

The registry is read off as a mask that has the bits of all deployments.  Of the bits
that can be voted with the others are looked at, in ascending order, and each of them has a
memo of its own (`Survey.cold_unknownRules`).
-/

namespace SoftFork

namespace Past

variable {past : Past} {clock : Clock} {bit : UInt8} {params : Params} {j n : Nat}

/-- A closed period after the first one has enough votes with a bit. -/
def Carries (past : Past) (bit : UInt8) (params : Params) (j : Nat) : Prop :=
  (1 < j ∧ j * params.period.toNat ≤ past.length) ∧
    params.threshold.toNat ≤ votesAt past (.unclaimed bit params) j

/-- No period before has enough votes. -/
def CarriesFirst (past : Past) (bit : UInt8) (params : Params) (j : Nat) : Prop :=
  Carries past bit params j ∧ ∀ i < j, ¬ Carries past bit params i

theorem CarriesFirst.unique {i : Nat} (hi : CarriesFirst past bit params i)
    (hj : CarriesFirst past bit params j) : i = j := by
  rcases Nat.lt_trichotomy i j with hlt | heq | hlt
  · exact absurd hi.1 (hj.2 i hlt)
  · exact heq
  · exact absurd hj.1 (hi.2 j hlt)

/-! ## A ballot that is always open -/

section AlwaysOpen

variable (htimes : ∀ m ∈ past, m.time < UInt32.size)

include htimes

/-- A period of an unclaimed bit locks in when it is not the first and has enough votes. -/
theorem locksIn_unclaimed_iff : LocksIn past clock (.unclaimed bit params) j ↔
    1 < j ∧ params.threshold.toNat ≤ votesAt past (.unclaimed bit params) j := by
  have hclock : ∀ i, clockAt past clock (.unclaimed bit params) i < 0xFFFFFFFFFFFFFFFF :=
    fun i => Nat.lt_trans
      (clockTime_lt (by decide) (fun m hm => htimes m (List.mem_of_mem_take hm)) clock) (by decide)
  constructor
  · rintro ⟨-, ⟨i, hlt, hpos, -⟩, hvotes⟩
    exact ⟨by omega, hvotes⟩
  · rintro ⟨hlt, hvotes⟩
    exact ⟨fun i _ _ => hclock i, ⟨1, hlt, Nat.one_pos, Nat.zero_le _⟩, hvotes⟩

/-- The first period that locks in is the first with enough votes. -/
theorem firstOf_locksIn_unclaimed_iff (hperiod : 0 < params.period.toNat) :
    firstOf (past.length / params.period.toNat) (LocksIn past clock (.unclaimed bit params)) =
      some j ↔ CarriesFirst past bit params j := by
  have hcarries : ∀ i, LocksIn past clock (.unclaimed bit params) i ∧
      i ≤ past.length / params.period.toNat ↔ Carries past bit params i := by
    intro i
    rw [locksIn_unclaimed_iff htimes, Nat.le_div_iff_mul_le hperiod, Carries]
    tauto
  rw [firstOf_eq_some_iff, CarriesFirst, ← hcarries j]
  constructor
  · rintro ⟨hlocks, ⟨hpos, hle⟩, hfirst⟩
    refine ⟨⟨hlocks, hle⟩, fun i hlt hi => ?_⟩
    have hone := hi.1.1
    exact hfirst i (by omega) hlt ((hcarries i).mpr hi).1
  · rintro ⟨⟨hlocks, hle⟩, hfirst⟩
    have hone := ((locksIn_unclaimed_iff htimes).mp hlocks).1
    exact ⟨hlocks, ⟨by omega, hle⟩,
      fun i _ hlt hi => hfirst i hlt ((hcarries i).mp ⟨hi, by omega⟩)⟩

/-- What the votes of the closed periods make of an unclaimed bit. -/
theorem settles_unclaimed_iff (hroot : Rooted past) (hperiod : 0 < params.period.toNat)
    (phase : Phase) :
    (replay past clock (.unclaimed bit params)).phase = phase ∧ phase.isSettled = true ↔
      ∃ j, CarriesFirst past bit params j ∧
        phase = if j = past.length / params.period.toNat then .lockedIn else .active := by
  have hform : replay past clock (.unclaimed bit params) =
      closedFormTo past clock (.unclaimed bit params) (past.length / params.period.toNat) :=
    replay_eq_closedForm hroot
  rw [hform]
  cases hl : firstOf (past.length / params.period.toNat)
      (LocksIn past clock (.unclaimed bit params)) with
  | none =>
    have hnot := isSettled_closedFormTo_of_none hl
    constructor
    · rintro ⟨rfl, hsettled⟩
      rw [hnot] at hsettled
      exact absurd hsettled (by decide)
    · rintro ⟨j, hj, -⟩
      rw [(firstOf_locksIn_unclaimed_iff htimes hperiod).mpr hj] at hl
      exact absurd hl (by simp)
  | some l =>
    have hfirst := (firstOf_locksIn_unclaimed_iff htimes hperiod).mp hl
    rw [phase_closedFormTo_of_some rfl hl]
    constructor
    · rintro ⟨rfl, -⟩
      exact ⟨l, hfirst, rfl⟩
    · rintro ⟨j, hj, rfl⟩
      obtain rfl := hfirst.unique hj
      refine ⟨rfl, ?_⟩
      split <;> rfl

end AlwaysOpen
end Past

/-! ## The bits that are looked at -/

/-- The mask of a registry has the bits of its deployments. -/
theorem Registry.Valid.testBit_knownMask {r : Registry} (hr : r.Valid) (i : Nat) :
    r.knownMask.toNat.testBit i = true ↔ ∃ d ∈ r.deployments, d.bit.toNat = i := by
  have hbits : ∀ d ∈ r.deployments, d.bit.toNat < 32 :=
    fun d hd => Nat.lt_trans (hr.sound d hd).bit_lt (by decide)
  have hmask : r.knownMask = r.deployments.foldl
      (fun mask d => if (fun _ => true) d then mask ||| Version.mask d.bit else mask) 0 := rfl
  rw [hmask, Version.testBit_foldl hbits, UInt32.toNat_zero, Nat.zero_testBit,
    or_iff_right (by decide)]
  simp only [true_and]

namespace Survey

variable {s : Survey}

theorem mem_unclaimedBits_iff (hr : s.registry.Valid) {i : Nat} :
    i ∈ s.unclaimedBits ↔ i < Version.bitCount ∧ ∀ d ∈ s.registry.deployments, d.bit.toNat ≠ i := by
  rw [unclaimedBits, List.mem_filter, List.mem_range, beq_iff_eq]
  refine and_congr_right fun hi => ?_
  have hbit : (UInt8.ofNat i).toNat = i := UInt8.toNat_ofNat_of_lt (Nat.lt_trans hi (by decide))
  have hlt : (UInt8.ofNat i).toNat < 32 := by
    rw [hbit]
    exact Nat.lt_trans hi (by decide)
  rw [Version.and_mask_eq_zero_iff hlt, hbit, hr.testBit_knownMask]
  push Not
  rfl

/-- The unclaimed bits that have locked in, when each of them has a standing. -/
theorem cold_unknownRules (hv : s.view.Lawful) {tip : Option BlockId} {standing : Nat → Standing}
    (hstanding : ∀ i ∈ s.unclaimedBits, (s.view.standing s.clock
      (.unclaimed (UInt8.ofNat i) s.registry.params) tip .empty).1 = .ok (standing i)) :
    s.cold (s.unknownRules tip) = .ok ((s.unclaimedBits.filter fun i =>
      (standing i).phase.isSettled).map fun i => ⟨UInt8.ofNat i, (standing i).phase⟩) := by
  have hballot : ∀ i ∈ s.unclaimedBits, s.registry.ballot? (.bit i) =
      some (.unclaimed (UInt8.ofNat i) s.registry.params) := by
    intro i hi
    rw [Registry.ballot?, if_pos (List.mem_range.mp (List.mem_filter.mp hi).1)]
  have hcold : ∀ i ∈ s.unclaimedBits, s.cold (s.standing (.bit i)
      (.unclaimed (UInt8.ofNat i) s.registry.params) tip) = .ok (standing i) :=
    fun i hi => (cold_standing (hballot i hi) tip).trans (hstanding i hi)
  rw [unknownRules, Steady.cold_loop fun i hi => Steady.standing hv (hballot i hi) tip]
  exact foldlM_filter (fun standing : Standing => standing.phase.isSettled)
    (fun i standing => UnknownRule.mk (UInt8.ofNat i) standing.phase) hcold []

end Survey

/-! ## Every session -/

/-- Where an unclaimed bit stands is the replay, whatever the times of the blocks are. -/
theorem BlockTree.Sound.standing_unclaimed {t : BlockTree} (ht : t.Sound) {tip : Option BlockId}
    {past : Past} (hpast : PastBefore t.block? tip past) (hroot : past.Rooted) (clock : Clock)
    (bit : UInt8) {params : Params} (hperiod : 0 < params.period.toNat) :
    (t.view.standing clock (.unclaimed bit params) tip .empty).1 =
      .ok (past.replay clock (.unclaimed bit params)) := by
  cases tip with
  | none =>
    obtain rfl : past = [] := hpast
    exact congrArg Except.ok Past.replay_nil.symm
  | some id =>
    have htells := View.standing_tells ht.climbs hpast (ht.consecutive hpast) clock
      (show 0 < (Ballot.unclaimed bit params).period from hperiod)
    rw [Past.verdict?_of_stopsRightly hroot hperiod
      (Past.stopsRightly_of_startTime_zero hroot rfl)] at htells
    exact htells

/-- The answer on a past that goes down to genesis. -/
theorem BlockTree.Sound.cold_unknownRules {t : BlockTree} (ht : t.Sound) {registry : Registry}
    (hr : registry.Valid) (clock : Clock) {tip : Option BlockId} {past : Past}
    (hpast : PastBefore t.block? tip past) (hroot : past.Rooted)
    (htimes : ∀ m ∈ past, m.time < UInt32.size) :
    ∃ found, (t.survey registry clock).cold ((t.survey registry clock).unknownRules tip) =
        .ok found ∧
      found.Pairwise (fun rule later => rule.bit < later.bit) ∧
      ∀ rule, rule ∈ found ↔
        rule.bit ≤ 28 ∧ (∀ d ∈ registry.deployments, d.bit ≠ rule.bit) ∧
        ∃ j, past.CarriesFirst rule.bit registry.params j ∧
          rule.phase = if j = past.length / registry.params.period.toNat then .lockedIn
            else .active := by
  have hperiod := hr.params_period_pos
  have hcold := Survey.cold_unknownRules (s := t.survey registry clock) ht.lawful_view
    fun i _ => ht.standing_unclaimed hpast hroot clock (UInt8.ofNat i) hperiod
  have hunclaimed : ∀ {i}, i ∈ (t.survey registry clock).unclaimedBits ↔ _ :=
    Survey.mem_unclaimedBits_iff hr
  have hbit : ∀ {i}, i ∈ (t.survey registry clock).unclaimedBits → (UInt8.ofNat i).toNat = i :=
    fun hi => UInt8.toNat_ofNat_of_lt (Nat.lt_trans (hunclaimed.mp hi).1 (by decide))
  refine ⟨_, hcold, ?_, fun rule => ?_⟩
  · rw [List.pairwise_map]
    refine ((List.pairwise_lt_range.filter _).filter _).imp_of_mem fun {i j} hi hj hlt => ?_
    rw [UInt8.lt_iff_toNat_lt, hbit (List.mem_filter.mp hi).1, hbit (List.mem_filter.mp hj).1]
    exact hlt
  · rw [List.mem_map]
    constructor
    · rintro ⟨i, hi, rfl⟩
      obtain ⟨hi, hsettled⟩ := List.mem_filter.mp hi
      obtain ⟨hlt, hnone⟩ := hunclaimed.mp hi
      refine ⟨?_, fun d hd heq => hnone d hd ?_,
        (Past.settles_unclaimed_iff htimes hroot hperiod _).mp ⟨rfl, hsettled⟩⟩
      · rw [UInt8.le_iff_toNat_le, hbit hi]
        exact Nat.le_of_lt_succ hlt
      · rw [heq, hbit hi]
    · rintro ⟨hle, hnone, hcarries⟩
      obtain ⟨hphase, hsettled⟩ :
          (past.replay clock (.unclaimed rule.bit registry.params)).phase = rule.phase ∧ _ :=
        (Past.settles_unclaimed_iff htimes hroot hperiod _).mpr hcarries
      have hi : rule.bit.toNat ∈ (t.survey registry clock).unclaimedBits :=
        hunclaimed.mpr ⟨Nat.lt_succ_of_le (UInt8.le_iff_toNat_le.mp hle),
          fun d hd heq => hnone d hd (UInt8.toNat_inj.mp heq)⟩
      refine ⟨rule.bit.toNat, List.mem_filter.mpr ⟨hi, ?_⟩, ?_⟩
      · rw [UInt8.ofNat_toNat]
        exact hphase ▸ hsettled
      · rw [UInt8.ofNat_toNat]
        exact congrArg (UnknownRule.mk rule.bit) hphase

namespace Session

/-- The tree of a session has grown. -/
theorem exists_grown (digest : Header → BlockHash) (t : Tracker) (events : List Event) :
    ∃ acts, (played digest t events).tree = BlockTree.grown digest acts := by
  have hrun : ∀ s : Session, ∃ acts : List BlockTree.Act,
      (events.foldl (after digest) s).tree = acts.foldl (BlockTree.after digest) s.tree := by
    induction events with
    | nil => exact fun s => ⟨[], rfl⟩
    | cons event events ih =>
      intro s
      obtain ⟨acts, hacts⟩ := ih (s.after digest event)
      cases event with
      | grow act => exact ⟨act :: acts, hacts⟩
      | ask q => exact ⟨acts, hacts⟩
      | keep slot test => exact ⟨acts, hacts⟩
      | evict live => exact ⟨acts, hacts⟩
      | tipMoved live => exact ⟨acts, hacts⟩
      | clear => exact ⟨acts, hacts⟩
  exact hrun _

/-- At every moment of every session with a tracker that has been made in one of the ways there
are, with either clock, at genesis and at every block whose links lead there, and whatever the
times of the blocks are.  The question about unknown rules is answered.  The answer is in ascending
order of the bits and has each of them once.  It has exactly the bits that can be voted with, that
no deployment has, and that enough blocks of some closed period after the first one vote with: as
locked in when the first such period is the last one that has closed, and as active when it is an
earlier one. -/
theorem unknownRules_complete (digest : Header → BlockHash) {t : Tracker} (ht : t.Made)
    (events : List Event) {tip : Option BlockId} {past : Past}
    (hpast : PastBefore (played digest t events).tree.block? tip past) (hroot : past.Rooted) :
    ∃ found, (played digest t events).Replies (fun s => s.unknownRules tip) (.ok found) ∧
      found.Pairwise (fun rule later => rule.bit < later.bit) ∧
      ∀ rule, rule ∈ found ↔
        rule.bit ≤ 28 ∧ (∀ d ∈ t.registry.deployments, d.bit ≠ rule.bit) ∧
        ∃ j, past.CarriesFirst rule.bit t.registry.params j ∧
          rule.phase = if j = past.length / t.registry.params.period.toNat then .lockedIn
            else .active := by
  obtain ⟨settings, registry, rfl, hr⟩ := ht.exists_valid
  have hs : (played digest (.withRegistry settings registry) events).InOrder settings registry :=
    inOrder_run digest settings registry events
  have htimes : ∀ m ∈ past, m.time < UInt32.size := by
    obtain ⟨acts, hacts⟩ := exists_grown digest (.withRegistry settings registry) events
    rw [hacts] at hpast
    cases tip with
    | none =>
      obtain rfl : past = [] := hpast
      exact fun m hm => absurd hm List.not_mem_nil
    | some id => exact HasPast.forall_mem hpast BlockTree.time_lt_of_grown
  obtain ⟨found, hcold, hfound⟩ :=
    hs.tree.cold_unknownRules hr settings.clock hpast hroot htimes
  have hreplies := hs.replies (q := fun s => s.unknownRules tip)
    (.unknownRules hs.tree.lawful_view tip)
  rw [hcold] at hreplies
  exact ⟨found, hreplies, hfound⟩

/-- At the fourth block of the forked tree, when the deployment has another bit than the one that
is voted with.  The second period has just locked that one in. -/
theorem unknownRules_forked : ∃ found,
    (played BlockTree.nonceDigest (.withRegistry {} ⟨⟨2, 2⟩, [{ pairDeployment with bit := 1 }]⟩)
      (BlockTree.forkedActs.map .grow)).Replies (fun s => s.unknownRules (some 3)) (.ok found) ∧
    ⟨0, .lockedIn⟩ ∈ found ∧ ∀ rule ∈ found, rule.bit ≠ 1 := by
  have hbuild : Registry.build ⟨2, 2⟩ [{ pairDeployment with bit := 1 }] =
      .ok ⟨⟨2, 2⟩, [{ pairDeployment with bit := 1 }]⟩ := rfl
  have hpast : PastBefore (played BlockTree.nonceDigest
      (.withRegistry {} ⟨⟨2, 2⟩, [{ pairDeployment with bit := 1 }]⟩)
      (BlockTree.forkedActs.map .grow)).tree.block? (some 3) (BlockTree.forkedPast.take 4) := by
    have h : HasPast (played BlockTree.nonceDigest
        (.withRegistry {} ⟨⟨2, 2⟩, [{ pairDeployment with bit := 1 }]⟩)
        (BlockTree.forkedActs.map .grow)).tree.block? 3 (BlockTree.forkedPast.take 4) := by
      decide +kernel
    exact h
  obtain ⟨found, hreplies, -, hfound⟩ := unknownRules_complete BlockTree.nonceDigest
    (.withRegistry {} hbuild) (BlockTree.forkedActs.map .grow) hpast (by decide)
  refine ⟨found, hreplies, (hfound _).mpr ⟨by decide, ?_, 2, ⟨⟨by decide, by decide⟩, ?_⟩, rfl⟩, ?_⟩
  · exact List.forall_mem_singleton.mpr (by decide)
  · exact fun i hlt hi => absurd hi.1.1 (Nat.not_lt.mpr (Nat.le_of_lt_succ hlt))
  · intro rule hrule heq
    exact ((hfound rule).mp hrule).2.1 _ List.mem_cons_self heq.symm

end Session
end SoftFork
