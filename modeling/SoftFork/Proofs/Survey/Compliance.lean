import SoftFork.Proofs.Session
import SoftFork.Proofs.Standing.Forward
import SoftFork.Proofs.Survey.Cold

/-!
# When everybody follows the advice

The version of the next block is advice.  If every block of a chain has been given the version
that was advised for it, the chain is `Composed`, and then the three parts of this library that
look at versions have to agree: the one that sets bits, the one that counts them, and the one that
warns of bits which nobody should have set.

## No warning

Each block is compared with the version that was advised on its own parent, and that is its
version.  The first block has none that was advised.  It is compared with what is advised where
there is no block, and no bit of a version that is a plain number is ever unexpected.

## No vote is lost

The standing of a deployment changes only where one of its periods closes.  So if it has started
after the closing block of one period, then it has so after every block of the next one but the
last, and each of its blocks has been advised to vote.  Whatever other deployments there are, and
whichever periods they have, the bit is set in all of these blocks and is read back from all of
them (`countVotes_of_composed`).  The votes are as many as the blocks, no threshold is larger, and
only the timeout can still prevent that the deployment locks in.
-/

namespace SoftFork

/-- Every block that `tip` stands on has the version that is advised after its parent, and the
first of them has one that carries no vote. -/
structure Composed (block? : BlockId → Option Block) (advised : BlockId → Except Fault UInt32)
    (tip : BlockId) : Prop where
  oldest : ∀ {id b}, StandsOn block? tip id → block? id = some b → b.parent = none →
    b.version ≤ Version.lastPlain ∨ b.version = Version.topBits
  later : ∀ {id p b}, StandsOn block? tip id → block? id = some b → b.parent = some p →
    advised p = .ok b.version

namespace BlockTree

variable {t : BlockTree} {registry : Registry} {clock : Clock} {tip : BlockId} {past : Past}

/-! ## No warning -/

/-- None of the last blocks has a version that is unexpected, however many are looked at. -/
theorem unexpectedVersions_of_composed (ht : t.Sound)
    (hcomposed : Composed t.block? (t.survey registry clock).advised tip) (window : Nat) :
    ∀ {id : BlockId} {b : Block}, StandsOn t.block? tip id → t.block? id = some b →
      (t.survey registry clock).cold
        ((t.survey registry clock).unexpectedVersions window (some id)) = .ok 0 := by
  induction window with
  | zero => exact fun _ _ => rfl
  | succ window ih =>
    intro id b hid hb
    rw [Survey.cold_unexpectedVersions_succ _ ht.lawful_view hb]
    cases hparent : b.parent with
    | none =>
      have hexpected : Version.isUnexpected b.version Version.topBits = false := by
        rcases hcomposed.oldest hid hb hparent with hplain | hballot
        · exact Version.isUnexpected_of_plain hplain _
        · rw [hballot, Version.isUnexpected_self]
      have hnone : (t.survey registry clock).unexpectedVersions window none = pure 0 := by
        cases window <;> rfl
      rw [Survey.cold_nextVersion_none _ ht.lawful_view, ok_bind, hexpected, hnone]
      rfl
    | some p =>
      obtain ⟨-, q, hq, -⟩ := ht.parent hb hparent
      have hadvised : (t.survey registry clock).cold
          ((t.survey registry clock).nextVersion (some p)) = .ok b.version :=
        hcomposed.later hid hb hparent
      rw [hadvised, ih (hid.parent hb hparent) hq, ok_bind, ok_bind, Version.isUnexpected_self]
      rfl

/-! ## No vote is lost -/

section Votes

variable {entry : Deployment × Nat} (ht : t.Sound) (hr : registry.Valid) (hroot : past.Rooted)
  (hrule : clock = .medianTimePast → past.Timely)
  (hentry : entry ∈ (t.survey registry clock).entries)

include ht hr hroot hrule hentry

/-- The standing of a deployment for the block after one on the chain. -/
theorem cold_standingAt_of_hasPast {id : BlockId} {k : Nat}
    (hid : HasPast t.block? id (past.take k)) (hle : k ≤ past.length) :
    (t.survey registry clock).cold ((t.survey registry clock).standingAt (some id) entry) =
      .ok (past.replayTo clock entry.1.ballot (k / entry.1.ballot.period)) := by
  have hd := hr.sound _ (Survey.mem_deployments hentry)
  rw [Survey.cold_standingAt hentry, ← Past.replay_take hle]
  exact View.standing_of_rooted ht.climbs hid (ht.consecutive hid) (hroot.take k) hd.period_pos
    fun hclock => ⟨(hrule hclock).take k, hd.start_lt_timeout⟩

variable (hpast : HasPast t.block? tip past)
  (hcomposed : Composed t.block? (t.survey registry clock).advised tip)

include hpast hcomposed

/-- All the blocks of a period vote for a deployment whose votes are counted in it. -/
theorem countVotes_of_composed {n : Nat} (hle : (n + 1) * entry.1.ballot.period ≤ past.length)
    (hstarted : (past.replayTo clock entry.1.ballot n).phase = .started) :
    Past.countVotes (past.take ((n + 1) * entry.1.ballot.period)) entry.1.ballot.votes
      entry.1.ballot.period = entry.1.ballot.period := by
  have hperiod : 0 < entry.1.ballot.period :=
    (hr.sound _ (Survey.mem_deployments hentry)).period_pos
  have hmul : (n + 1) * entry.1.ballot.period = n * entry.1.ballot.period + entry.1.ballot.period :=
    Nat.succ_mul _ _
  -- nothing has started at genesis, so there is a whole period below
  have hpos : 0 < n * entry.1.ballot.period := by
    refine Nat.mul_pos (Nat.pos_of_ne_zero ?_) hperiod
    rintro rfl
    rw [Past.replayTo] at hstarted
    exact absurd hstarted (by decide)
  have hlen : (past.take ((n + 1) * entry.1.ballot.period)).length =
      (n + 1) * entry.1.ballot.period := by
    rw [List.length_take, Nat.min_eq_left hle]
  refine Past.countVotes_eq_of_forall (by omega) fun k hk hfrom => ?_
  rw [hlen] at hk hfrom
  obtain ⟨id, p, hid, hb, hparent, hp⟩ :=
    hpast.exists_child (show 0 < k by omega) (by omega)
  rw [List.getElem_take]
  -- the parent is in the same period, or closes the one before
  have hstanding := cold_standingAt_of_hasPast ht hr hroot hrule hentry hp (by omega)
  rw [Nat.div_eq_of_lt_le (show n * entry.1.ballot.period ≤ k by omega) (by omega)] at hstanding
  refine Survey.signals_of_isSignalling ht.lawful_view hr (hcomposed.later hid hb hparent) hentry
    hstanding ?_
  rw [hstarted]
  rfl

/-- One period after a deployment has started the rules find all the votes they can find. -/
theorem phase_replayTo_of_composed {n : Nat} (hle : (n + 1) * entry.1.ballot.period ≤ past.length)
    (hstarted : (past.replayTo clock entry.1.ballot n).phase = .started) :
    (past.replayTo clock entry.1.ballot (n + 1)).phase =
      if entry.1.timeout.toNat ≤
        Past.clockTime (past.take ((n + 1) * entry.1.ballot.period)) clock then .failed
      else .lockedIn := by
  have hvotes := countVotes_of_composed ht hr hroot hrule hentry hpast hcomposed hle hstarted
  have henough : entry.1.ballot.threshold ≤ entry.1.ballot.period :=
    (hr.sound _ (Survey.mem_deployments hentry)).threshold_le
  rw [Past.replayTo, Past.phase_nextStanding, hstarted, Past.nextPhase, hvotes, if_pos henough]
  rfl

/-- What becomes of a deployment one period after it has started. -/
theorem decided_of_composed {id last : BlockId} {b c : Block} (hid : StandsOn t.block? tip id)
    (hb : t.block? id = some b) (hlast : StandsOn t.block? tip last) (hc : t.block? last = some c)
    (hclosed : entry.1.ballot.period ∣ b.height + 1)
    (hheight : c.height = b.height + entry.1.ballot.period)
    (hstarted : (t.survey registry clock).cold
      ((t.survey registry clock).standingAt (some id) entry) >>= (fun s => .ok s.phase) =
        .ok .started) :
    ∃ time, t.view.clockTime clock last = .ok time ∧
      (t.survey registry clock).cold ((t.survey registry clock).standingAt (some last) entry) >>=
        (fun s => .ok s.phase) =
          .ok (if entry.1.timeout.toNat ≤ time then .failed else .lockedIn) := by
  obtain ⟨n, hn⟩ := hclosed
  have hperiod : 0 < entry.1.ballot.period :=
    (hr.sound _ (Survey.mem_deployments hentry)).period_pos
  obtain ⟨hlt, hidpast⟩ := ht.hasPast_of_standsOn hpast hroot hid hb
  obtain ⟨hlt', hlastpast⟩ := ht.hasPast_of_standsOn hpast hroot hlast hc
  have hnext : c.height + 1 = entry.1.ballot.period * (n + 1) := by
    rw [hheight, Nat.mul_succ, ← hn]
    omega
  have hbefore := cold_standingAt_of_hasPast ht hr hroot hrule hentry hidpast hlt
  have hafter := cold_standingAt_of_hasPast ht hr hroot hrule hentry hlastpast hlt'
  have hclock : Tells (t.view.clockTime clock last) _ := View.clockTime_tells hlastpast clock
  rw [Past.clockTime?, if_pos ((hroot.take _).legible clock)] at hclock
  rw [hn, Nat.mul_div_cancel_left _ hperiod] at hbefore
  rw [hnext, Nat.mul_div_cancel_left _ hperiod] at hafter
  rw [hbefore] at hstarted
  rw [hnext, Nat.mul_comm] at hclock
  refine ⟨_, hclock, ?_⟩
  rw [hafter, ok_bind, phase_replayTo_of_composed ht hr hroot hrule hentry hpast hcomposed
    (by rw [Nat.mul_comm, ← hnext]; exact hlt') (Except.ok.inj hstarted)]

end Votes
end BlockTree

/-! ## In a session -/

namespace Session

/-- At every moment of every session, on a chain that goes down to genesis, all of whose blocks have
been given the versions that the tracker advises.  There is no block with an unexpected version
below any block of the chain, whatever the window.  And a deployment that has started after the
closing block of one period locks in after that of the next one, or fails if the clock there shows
its timeout. -/
theorem composed_run (digest : Header → BlockHash) (settings : Settings) {params : Params}
    {deployments : List Deployment} {registry : Registry}
    (hbuild : Registry.build params deployments = .ok registry) (events : List Event)
    {tip : BlockId} {past : Past}
    (hpast : HasPast (run digest settings registry events).tree.block? tip past)
    (hroot : past.Rooted) (hrule : settings.clock = .medianTimePast → past.Timely)
    (hcomposed : Composed (run digest settings registry events).tree.block?
      (fun p => ((run digest settings registry events).tracker.answer
        (run digest settings registry events).tree.view (.nextVersion (some p))).1) tip) :
    (∀ (window : Nat) (prev : Option BlockId),
      (∀ id ∈ prev, StandsOn (run digest settings registry events).tree.block? tip id) →
      ((run digest settings registry events).tracker.ask
        (run digest settings registry events).tree.view
          fun s => s.unexpectedVersions window prev).1 = .ok 0) ∧
    ∀ d ∈ deployments, ∀ (id last : BlockId) (b c : Block),
      StandsOn (run digest settings registry events).tree.block? tip id →
      (run digest settings registry events).tree.block? id = some b →
      StandsOn (run digest settings registry events).tree.block? tip last →
      (run digest settings registry events).tree.block? last = some c →
      d.period.toNat ∣ b.height + 1 → c.height = b.height + d.period.toNat →
      ((run digest settings registry events).tracker.answer
        (run digest settings registry events).tree.view (.phase d.name (some id))).1 =
          .ok .started →
      ∃ time, (run digest settings registry events).tree.view.clockTime settings.clock last =
          .ok time ∧
        ((run digest settings registry events).tracker.answer
          (run digest settings registry events).tree.view (.phase d.name (some last))).1 =
            .ok (if d.timeout.toNat ≤ time then .failed else .lockedIn) := by
  obtain ⟨rfl, hr⟩ := Registry.build_eq_ok_iff.mp hbuild
  have horder := inOrder_run digest settings ⟨params, deployments⟩ events
  generalize run digest settings ⟨params, deployments⟩ events = s at hpast hcomposed horder ⊢
  obtain ⟨ht, htracker⟩ := horder
  have hadvised : (fun p => (s.tracker.answer s.tree.view (.nextVersion (some p))).1) =
      (s.tree.survey ⟨params, deployments⟩ settings.clock).advised :=
    funext fun p => htracker.ask_eq_cold (.nextVersion ht.lawful_view (some p))
  rw [hadvised] at hcomposed
  constructor
  · intro window prev hprev
    rw [htracker.ask_eq_cold (.unexpectedVersions ht.lawful_view window prev)]
    cases prev with
    | none => cases window <;> rfl
    | some id =>
      have hid := hprev id rfl
      obtain ⟨k, -, -, hidpast⟩ := hid.hasPast hpast
      obtain ⟨b, hb, -⟩ := hidpast.exists_block
      exact BlockTree.unexpectedVersions_of_composed ht hcomposed window hid hb
  · intro d hd id last b c hid hb hlast hc hclosed hheight hstarted
    obtain ⟨i, hentry⟩ := Survey.exists_entry
      (s := s.tree.survey ⟨params, deployments⟩ settings.clock) hd
    have hphase : ∀ prev, (s.tracker.answer s.tree.view (.phase d.name prev)).1 =
        (s.tree.survey ⟨params, deployments⟩ settings.clock).cold
          ((s.tree.survey ⟨params, deployments⟩ settings.clock).standingAt prev (d, i)) >>=
            fun standing => .ok standing.phase := by
      intro prev
      rw [← Survey.cold_standingOf ht.lawful_view hr hentry]
      exact htracker.ask_eq_cold ((Survey.Steady.standingOf ht.lawful_view d.name prev).bind
        fun _ => .pure _)
    rw [hphase] at hstarted ⊢
    exact BlockTree.decided_of_composed ht hr hroot hrule hentry hpast hcomposed hid hb hlast hc
      hclosed hheight hstarted

/-- A deployment that votes with another bit and in longer periods than the first one. -/
def tripleDeployment : Deployment :=
  { name := "triple", bit := 1, startTime := 21, timeout := 1000, period := 3, threshold := 3 }

/-- Six blocks with the versions that are advised, and somebody who looks at the fifth. -/
def composedSession : Session :=
  run BlockTree.nonceDigest { clock := .blockTime } ⟨⟨2, 2⟩, [pairDeployment, tripleDeployment]⟩
    [.grow (.genesis (BlockTree.headerOn 0 1 10 4)),
     .grow (.insert (BlockTree.headerOn 1 2 20 0x20000000)),
     .grow (.insert (BlockTree.headerOn 2 3 30 0x20000000)),
     .grow (.insert (BlockTree.headerOn 3 4 40 0x20000002)),
     .grow (.insert (BlockTree.headerOn 4 5 50 0x20000003)),
     .ask (.status "pair" (some 4)),
     .grow (.insert (BlockTree.headerOn 5 6 60 0x20000003))]

/-- The past of the last of them. -/
def composedPast : Past :=
  [BlockTree.blockOn none 1 0 10 4, BlockTree.blockOn (some 0) 2 1 20 0x20000000,
   BlockTree.blockOn (some 1) 3 2 30 0x20000000, BlockTree.blockOn (some 2) 4 3 40 0x20000002,
   BlockTree.blockOn (some 3) 5 4 50 0x20000003, BlockTree.blockOn (some 4) 6 5 60 0x20000003]

/-- The second deployment starts with the fourth block and the first one with the fifth.  With
the sixth one both of them lock in. -/
theorem composed_pair :
    (∀ window, (composedSession.tracker.ask composedSession.tree.view
      fun s => s.unexpectedVersions window (some 5)).1 = .ok 0) ∧
      (composedSession.tracker.answer composedSession.tree.view (.phase "pair" (some 5))).1 =
        .ok .lockedIn ∧
      (composedSession.tracker.answer composedSession.tree.view (.phase "triple" (some 5))).1 =
        .ok .lockedIn := by
  have hrun : composedSession.tree.size = 6 ∧ HasPast composedSession.tree.block? 5 composedPast ∧
      (∀ id < 6, ∀ b ∈ composedSession.tree.block? id, (b.parent = none → b.version ≤ 4) ∧
        ∀ p ∈ b.parent, (composedSession.tracker.ask composedSession.tree.view fun s =>
          s.nextVersion (some p)).1.toOption = some b.version) ∧
      composedSession.tree.block? 5 = some ⟨⟨Vector.replicate 32 6⟩, 5, 60, 0x20000003, some 4⟩ ∧
      composedSession.tree.block? 4 = some ⟨⟨Vector.replicate 32 5⟩, 4, 50, 0x20000003, some 3⟩ ∧
      composedSession.tree.block? 3 = some ⟨⟨Vector.replicate 32 4⟩, 3, 40, 0x20000002, some 2⟩ ∧
      composedSession.tree.block? 2 = some ⟨⟨Vector.replicate 32 3⟩, 2, 30, 0x20000000, some 1⟩ ∧
      (composedSession.tracker.ask composedSession.tree.view fun s => do
        return (← s.standingOf "pair" (some 3)).phase).1.toOption = some .started ∧
      (composedSession.tracker.ask composedSession.tree.view fun s => do
        return (← s.standingOf "triple" (some 2)).phase).1.toOption = some .started := by
    decide +kernel
  obtain ⟨hsize, hpast, hstored, hfive, hfour, hthree, htwo, hpair, htriple⟩ := hrun
  have hcomposed : Composed composedSession.tree.block? (fun p =>
      (composedSession.tracker.answer composedSession.tree.view (.nextVersion (some p))).1) 5 := by
    have hlt : ∀ {id b}, composedSession.tree.block? id = some b → id < 6 := by
      intro id b hb
      rw [← hsize]
      exact (Array.getElem?_eq_some_iff.mp hb).1
    exact ⟨fun {id b} _ hb hparent => Or.inl ((hstored id (hlt hb) b hb).1 hparent),
      fun {id p b} _ hb hparent =>
        eq_ok_of_toOption ((hstored id (hlt hb) b hb).2 p hparent)⟩
  have hbuild : Registry.build ⟨2, 2⟩ [pairDeployment, tripleDeployment] =
      .ok ⟨⟨2, 2⟩, [pairDeployment, tripleDeployment]⟩ := rfl
  obtain ⟨hquiet, hdecided⟩ := composed_run BlockTree.nonceDigest { clock := .blockTime } hbuild _
    hpast (by decide) (fun hclock => absurd hclock (by decide)) hcomposed
  have hbelow : StandsOn composedSession.tree.block? 5 3 :=
    .parent (.parent .self hfive rfl) hfour rfl
  have hclock : ∀ {time}, composedSession.tree.view.clockTime .blockTime 5 = .ok time →
      time = 60 := by
    intro time htime
    rw [View.clockTime, View.get_eq_ok (v := composedSession.tree.view) hfive] at htime
    exact (Except.ok.inj htime).symm
  refine ⟨fun window => hquiet window (some 5) fun id hid => ?_, ?_, ?_⟩
  · obtain rfl := Option.some.inj hid
    exact .self
  · obtain ⟨time, htime, hphase⟩ := hdecided pairDeployment (by simp) 3 5 _ _ hbelow hthree .self
      hfive (by decide) rfl (eq_ok_of_toOption hpair)
    rw [hclock htime] at hphase
    exact hphase
  · obtain ⟨time, htime, hphase⟩ := hdecided tripleDeployment (by simp) 2 5 _ _
      (hbelow.parent hthree rfl) htwo .self hfive (by decide) rfl (eq_ok_of_toOption htriple)
    rw [hclock htime] at hphase
    exact hphase

end Session
end SoftFork
