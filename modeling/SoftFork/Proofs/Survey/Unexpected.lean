import SoftFork.Proofs.History.Shortcut
import SoftFork.Proofs.Standing.Forward
import SoftFork.Proofs.Survey.Standings
import SoftFork.Proofs.Survey.Unclaimed

/-!
# Which versions are unexpected

The loop over the last blocks goes from parent to parent, asks at each of them for the version of
the next block, and compares.  It is bounded by the window and by the history, whichever ends
first.  Here its count is shown to be the size of a set that is described without the loop: the
blocks that the tip stands on, among the highest as many as the window takes, whose versions are no
plain numbers and have a bit that neither belongs to the top nor to a deployment which signals for
that very block (`Session.unexpectedVersions_exact`).

## Each block by itself

Where a deployment stands is different from block to block, so no one version is expected in the
whole window.  A block is judged on its own parent, and genesis, which has none, on the standing
at genesis.  The standings are worked out with a memory that the loop itself extends, from the
highest block downwards; that they come out as when each is asked about alone is what steadiness
says.

## The window

A window is a condition on heights, counted down from the tip.  One block less of a window is the
same window on the parent, since the parent is one lower where the past goes down to genesis
(`BlockTree.inWindow_succ_iff`).  So the end cases, no blocks at all and more than there are, need
no lemmas of their own.
-/

namespace SoftFork
namespace BlockTree

/-- A block is one of the last blocks below a tip, itself included, so many of them. -/
def InWindow (t : BlockTree) (tip : Option BlockId) (window : Nat) (id : BlockId) (b : Block) :
    Prop :=
  ∃ top c, tip = some top ∧ t.block? top = some c ∧ StandsOn t.block? top id ∧
    t.block? id = some b ∧ c.height < b.height + window

variable {t : BlockTree} {id : BlockId} {b : Block}

theorem InWindow.stored {tip : Option BlockId} {window : Nat} (h : t.InWindow tip window id b) :
    t.block? id = some b := by
  obtain ⟨-, -, -, -, -, hb, -⟩ := h
  exact hb

theorem not_inWindow_none {window : Nat} : ¬ t.InWindow none window id b := by
  rintro ⟨_, _, h, -⟩
  exact absurd h (by simp)

/-- On a past that goes down to genesis no block stands above one that stands on it. -/
theorem Sound.height_le_of_standsOn (ht : t.Sound) {top : BlockId} {past : Past}
    (hpast : HasPast t.block? top past) (hroot : past.Rooted) (hstands : StandsOn t.block? top id)
    {c : Block} (hc : t.block? top = some c) (hb : t.block? id = some b) :
    b.height ≤ c.height := by
  obtain ⟨k, -, -, htake⟩ := hstands.hasPast hpast
  have hlow := htake.height_of_rooted (ht.consecutive htake) (hroot.take k) hb
  have htop := hpast.height_of_rooted (ht.consecutive hpast) hroot hc
  have hlength := List.length_take_le' k past
  omega

/-- On a past that goes down to genesis a block stands one above its parent. -/
theorem Sound.height_eq_of_parent (ht : t.Sound) {past : Past} (hpast : HasPast t.block? id past)
    (hroot : past.Rooted) (hb : t.block? id = some b) {p : BlockId} (hparent : b.parent = some p) :
    ∃ q, t.block? p = some q ∧ b.height = q.height + 1 := by
  obtain ⟨before, rfl, hbefore⟩ := hpast.exists_before hb
  rw [hparent] at hbefore
  obtain ⟨q, hq, -⟩ := HasPast.exists_block hbefore
  have hlow := HasPast.height_of_rooted hbefore (ht.consecutive hbefore) hroot.of_append hq
  have hheight := hpast.height_of_rooted (ht.consecutive hpast) hroot hb
  rw [List.length_append, List.length_singleton] at hheight
  exact ⟨q, hq, by omega⟩

theorem not_inWindow_zero (ht : t.Sound) {tip : Option BlockId} {past : Past}
    (hpast : PastBefore t.block? tip past) (hroot : past.Rooted) : ¬ t.InWindow tip 0 id b := by
  rintro ⟨top, c, rfl, hc, hstands, hb, hlt⟩
  exact absurd (ht.height_le_of_standsOn hpast hroot hstands hc hb) (Nat.not_le.mpr hlt)

/-- The last blocks below a tip are the tip and the last blocks below its parent, one less. -/
theorem inWindow_succ_iff (ht : t.Sound) {top : BlockId} {past : Past}
    (hpast : HasPast t.block? top past) (hroot : past.Rooted) {c : Block}
    (hc : t.block? top = some c) {window : Nat} :
    t.InWindow (some top) (window + 1) id b ↔
      (id = top ∧ b = c) ∨ t.InWindow c.parent window id b := by
  constructor
  · rintro ⟨top', c', htop, hc', hstands, hb, hlt⟩
    obtain rfl := Option.some.inj htop
    obtain rfl := Option.some.inj (hc.symm.trans hc')
    rcases hstands.eq_or_parent with rfl | ⟨c', p, hc', hparent, hp⟩
    · exact Or.inl ⟨rfl, Option.some.inj (hb.symm.trans hc)⟩
    · obtain rfl := Option.some.inj (hc.symm.trans hc')
      obtain ⟨q, hq, hheight⟩ := ht.height_eq_of_parent hpast hroot hc hparent
      exact Or.inr ⟨p, q, hparent, hq, hp, hb, by omega⟩
  · rintro (⟨rfl, rfl⟩ | ⟨p, q, hparent, hq, hp, hb, hlt⟩)
    · exact ⟨id, b, rfl, hc, .self, hc, by omega⟩
    · obtain ⟨q', hq', hheight⟩ := ht.height_eq_of_parent hpast hroot hc hparent
      obtain rfl := Option.some.inj (hq.symm.trans hq')
      exact ⟨top, c, rfl, hc, .trans (.parent .self hc hparent) hp, hb, by omega⟩

/-- No block is among the last ones below its own parent. -/
theorem not_inWindow_parent (ht : t.Sound) {past : Past} (hpast : HasPast t.block? id past)
    (hroot : past.Rooted) (hb : t.block? id = some b) {window : Nat} :
    ¬ t.InWindow b.parent window id b := by
  rintro ⟨p, q, hparent, hq, hstands, -, -⟩
  obtain ⟨q', hq', hheight⟩ := ht.height_eq_of_parent hpast hroot hb hparent
  obtain rfl := Option.some.inj (hq.symm.trans hq')
  obtain ⟨before, rfl, hbefore⟩ := hpast.exists_before hb
  rw [hparent] at hbefore
  have hle := ht.height_le_of_standsOn hbefore hroot.of_append hstands hq hb
  omega

/-- What is counted are the blocks of the window whose versions are not what was expected of
them. -/
theorem Sound.cold_unexpectedVersions (ht : t.Sound) {registry : Registry} (hr : registry.Valid)
    (clock : Clock) (window : Nat) : ∀ {tip : Option BlockId} {past : Past},
      PastBefore t.block? tip past → past.Rooted → ∃ blocks : List BlockId,
        (t.survey registry clock).cold ((t.survey registry clock).unexpectedVersions window tip) =
          .ok blocks.length ∧
        blocks.Nodup ∧ ∀ id, id ∈ blocks ↔ ∃ b, t.InWindow tip window id b ∧
          Version.isUnexpected b.version ((t.survey registry clock).voted b.parent) = true := by
  induction window with
  | zero =>
    intro tip _ hpast hroot
    refine ⟨[], rfl, List.nodup_nil, fun id => iff_of_false List.not_mem_nil ?_⟩
    rintro ⟨b, hwindow, -⟩
    exact not_inWindow_zero ht hpast hroot hwindow
  | succ window ih =>
    intro tip past hpast hroot
    cases tip with
    | none =>
      refine ⟨[], rfl, List.nodup_nil, fun id => iff_of_false List.not_mem_nil ?_⟩
      rintro ⟨b, hwindow, -⟩
      exact not_inWindow_none hwindow
    | some top =>
      obtain ⟨c, hc, -⟩ := HasPast.exists_block hpast
      obtain ⟨before, heq, hbefore⟩ := HasPast.exists_before hpast hc
      have hrooted : before.Rooted := by
        rw [heq] at hroot
        exact hroot.of_append
      obtain ⟨blocks, hcount, hnodup, hmem⟩ := ih hbefore hrooted
      have hexpected := Survey.cold_nextVersion_of_answered (s := t.survey registry clock)
        ht.lawful_view hr (ht.answered hr clock hbefore hrooted)
      have hstep : (t.survey registry clock).cold
          ((t.survey registry clock).unexpectedVersions (window + 1) (some top)) =
            .ok ((if Version.isUnexpected c.version
              ((t.survey registry clock).voted c.parent) then 1 else 0) + blocks.length) := by
        rw [Survey.cold_unexpectedVersions_succ _ ht.lawful_view hc, hexpected, hcount]
        rfl
      have hjudged : ∀ id, (∃ b, t.InWindow (some top) (window + 1) id b ∧
          Version.isUnexpected b.version ((t.survey registry clock).voted b.parent) = true) ↔
            (id = top ∧ Version.isUnexpected c.version
              ((t.survey registry clock).voted c.parent) = true) ∨ id ∈ blocks := by
        intro id
        simp only [hmem, inWindow_succ_iff ht hpast hroot hc, or_and_right, exists_or, and_assoc,
          exists_and_left, exists_eq_left]
      simp only [hjudged]
      cases hodd : Version.isUnexpected c.version ((t.survey registry clock).voted c.parent) with
      | true =>
        -- The count goes up because no block is found twice on the way down.
        have htop : top ∉ blocks := by
          intro htop
          obtain ⟨b, hwindow, -⟩ := (hmem top).mp htop
          obtain rfl := Option.some.inj (hc.symm.trans hwindow.stored)
          exact not_inWindow_parent ht hpast hroot hc hwindow
        refine ⟨top :: blocks, ?_, List.nodup_cons.mpr ⟨htop, hnodup⟩, fun id => ?_⟩
        · rw [hstep, hodd, if_pos rfl, List.length_cons, Nat.add_comm]
        · rw [List.mem_cons, and_iff_left rfl]
      | false =>
        refine ⟨blocks, ?_, hnodup, fun id => ?_⟩
        · rw [hstep, hodd, if_neg (by decide), Nat.zero_add]
        · rw [or_iff_right fun h => absurd h.2 (by decide)]

end BlockTree

namespace Survey

/-- A version is not what was expected when it is no plain number and has a bit that neither
belongs to the top nor to a deployment that signals. -/
theorem isUnexpected_voted_iff {s : Survey} (hr : s.registry.Valid) {prev : Option BlockId}
    {version : UInt32} : Version.isUnexpected version (s.voted prev) = true ↔
      Version.lastPlain < version ∧ ∃ i, version.toNat.testBit i = true ∧
        ¬ Version.topBits.toNat.testBit i = true ∧ ∀ d ∈ s.registry.deployments,
          d.bit.toNat = i → ¬ (s.phaseOf prev d = .started ∨ s.phaseOf prev d = .lockedIn) := by
  rw [Version.isUnexpected_iff]
  refine and_congr_right fun _ => exists_congr fun i => and_congr_right fun _ => ?_
  rw [testBit_voted hr, not_or]
  refine and_congr_right fun _ => ?_
  simp only [not_exists, not_and, Phase.isSignalling_iff]
  exact ⟨fun h d hd hbit hsignals => h d hd hsignals hbit,
    fun h d hd hsignals hbit => h d hd hbit hsignals⟩

/-- Both signs together, each with its cold answer. -/
theorem cold_alerts {s : Survey} (hv : s.view.Lawful) {settings : AlertSettings}
    (henabled : settings.enabled = true) {tip : Option BlockId} {rules : List UnknownRule}
    {count : Nat} (hrules : s.cold (s.unknownRules tip) = .ok rules)
    (hcount : s.cold (s.unexpectedVersions settings.window.toNat tip) = .ok count) :
    s.cold (s.alerts settings tip) =
      .ok ⟨rules, count, decide (settings.limit.toNat < count)⟩ := by
  have hsecond : s.Steady (s.unexpectedVersions settings.window.toNat tip) :=
    .unexpectedVersions hv _ tip
  rw [alerts, if_pos henabled, Steady.cold_bind (Steady.unknownRules hv tip)
    fun _ => hsecond.bind fun _ => Steady.pure _, hrules, ok_bind,
    Steady.cold_bind hsecond fun _ => Steady.pure _, hcount]
  rfl

end Survey

/-- Where links lead down to genesis the question about unknown rules is answered. -/
theorem BlockTree.Sound.exists_unknownRules {t : BlockTree} (ht : t.Sound) {registry : Registry}
    (hr : registry.Valid) (clock : Clock) {tip : Option BlockId} {past : Past}
    (hpast : PastBefore t.block? tip past) (hroot : past.Rooted) : ∃ rules,
      (t.survey registry clock).cold ((t.survey registry clock).unknownRules tip) = .ok rules := by
  have hperiod : ∀ bit, 0 < (Ballot.unclaimed bit registry.params).period :=
    fun _ => hr.params_period_pos
  choose standing hstanding using fun i => View.exists_standing_of_rooted ht.lawful_view hpast
    hroot clock (hperiod (UInt8.ofNat i))
  exact ⟨_, Survey.cold_unknownRules (s := t.survey registry clock) ht.lawful_view
    fun i _ => hstanding i⟩

/-- Every block that one stands on has what lies before it, down to genesis if one has. -/
theorem StandsOn.exists_before {block? : BlockId → Option Block} {top id : BlockId} {b : Block}
    {past : Past} (h : StandsOn block? top id) (hpast : HasPast block? top past)
    (hroot : past.Rooted) (hb : block? id = some b) :
    ∃ before : Past, PastBefore block? b.parent before ∧ before.Rooted := by
  obtain ⟨k, hk, -, htake⟩ := h.hasPast hpast
  obtain ⟨before, heq, hbefore⟩ := htake.exists_before hb
  have hrooted := hroot.take k
  rw [heq] at hrooted
  exact ⟨before, hbefore, hrooted.of_append⟩

namespace Session

/-- At every moment of every session with a tracker that has been made in one of the ways there
are, with either clock, at genesis and at every block whose links lead there, and whatever the
times of the blocks are.  Every deployment has a phase at the parent of every block that the tip
stands on.  With every window the question about unexpected versions is answered, and it counts
exactly those of the last blocks whose version is above four and has a bit that is not in
`0x20000000` and does not belong to a deployment that has started or locked in for the block.  If
warnings are enabled, they give the number for the window of the settings, and warn when it is
above the limit. -/
theorem unexpectedVersions_exact (digest : Header → BlockHash) {t : Tracker} (ht : t.Made)
    (events : List Event) {tip : Option BlockId} {past : Past}
    (hpast : PastBefore (played digest t events).tree.block? tip past) (hroot : past.Rooted) :
    ∃ (phase : Option BlockId → Deployment → Phase) (count : Nat → Nat),
      (∀ top ∈ tip, ∀ id b, StandsOn (played digest t events).tree.block? top id →
        (played digest t events).tree.block? id = some b → ∀ d ∈ t.registry.deployments,
          (played digest t events).RepliesPhase b.parent d (phase b.parent d)) ∧
      (∀ window, ∃ blocks : List BlockId, blocks.length = count window ∧ blocks.Nodup ∧
        ∀ id, id ∈ blocks ↔ ∃ b, (played digest t events).tree.InWindow tip window id b ∧
          Version.lastPlain < b.version ∧ ∃ i, b.version.toNat.testBit i = true ∧
            ¬ Version.topBits.toNat.testBit i = true ∧ ∀ d ∈ t.registry.deployments,
              d.bit.toNat = i → ¬ (phase b.parent d = .started ∨ phase b.parent d = .lockedIn)) ∧
      (∀ window, (played digest t events).Replies (fun s => s.unexpectedVersions window tip)
        (.ok (count window))) ∧
      (t.settings.alerts.enabled = true → ∃ rules,
        (played digest t events).Replies (fun s => s.unknownRules tip) (.ok rules) ∧
        (played digest t events).Replies (fun s => s.alerts t.settings.alerts tip)
          (.ok {
            unknownRules := rules
            unexpected := count t.settings.alerts.window.toNat
            manyUnexpected := decide (t.settings.alerts.limit.toNat <
              count t.settings.alerts.window.toNat) })) := by
  obtain ⟨settings, registry, rfl, hr⟩ := ht.exists_valid
  have hs : (played digest (.withRegistry settings registry) events).InOrder settings registry :=
    inOrder_run digest settings registry events
  generalize played digest (.withRegistry settings registry) events = s at hpast hs
  have hv : (s.tree.survey registry settings.clock).view.Lawful := hs.tree.lawful_view
  choose blocks hcount hnodup hmem using fun window =>
    hs.tree.cold_unexpectedVersions hr settings.clock window hpast hroot
  refine ⟨(s.tree.survey registry settings.clock).phaseOf, fun window => (blocks window).length,
    ?_, fun window => ⟨blocks window, rfl, hnodup window, fun id => ?_⟩, fun window => ?_,
    fun henabled => ?_⟩
  · rintro top htop id b hstands hb d hd
    rw [Option.mem_def] at htop
    rw [htop] at hpast
    obtain ⟨before, hbefore, hrooted⟩ := hstands.exists_before hpast hroot hb
    exact hs.repliesPhase hr (hs.tree.answered hr settings.clock hbefore hrooted) hd
  · rw [hmem]
    exact exists_congr fun b => and_congr_right fun _ => Survey.isUnexpected_voted_iff hr
  · have hreplies := hs.replies (q := fun s => s.unexpectedVersions window tip)
      (.unexpectedVersions hv window tip)
    rwa [hcount] at hreplies
  · obtain ⟨rules, hrules⟩ := hs.tree.exists_unknownRules hr settings.clock hpast hroot
    have hfirst := hs.replies (q := fun s => s.unknownRules tip) (.unknownRules hv tip)
    have hboth := hs.replies (q := fun s => s.alerts settings.alerts tip)
      (.alerts hv settings.alerts tip)
    rw [hrules] at hfirst
    have henabled : settings.alerts.enabled = true := henabled
    rw [Survey.cold_alerts hv henabled hrules (hcount _)] at hboth
    exact ⟨rules, hfirst, hboth⟩

/-- Three blocks back from the sixth of the forked tree the deployment has not started, and a
single block votes too early. -/
theorem unexpectedVersions_forked : ∃ id b,
    (forkedSession [pairDeployment]).Replies (fun s => s.unexpectedVersions 3 (some 5)) (.ok 1) ∧
      (forkedSession [pairDeployment]).tree.InWindow (some 5) 3 id b ∧
      Version.lastPlain < b.version := by
  have hbuild : Registry.build ⟨2, 2⟩ [pairDeployment] = .ok ⟨⟨2, 2⟩, [pairDeployment]⟩ := rfl
  have hpast : PastBefore (forkedSession [pairDeployment]).tree.block? (some 5)
      (BlockTree.forkedPast.take 6) := by
    have h : HasPast (BlockTree.grown BlockTree.nonceDigest BlockTree.forkedActs).block? 5
        (BlockTree.forkedPast.take 6) := by
      decide +kernel
    rw [tree_forkedSession]
    exact h
  have hrun : ((forkedSession [pairDeployment]).tracker.ask
      (forkedSession [pairDeployment]).tree.view fun s =>
        s.unexpectedVersions 3 (some 5)).1.toOption = some 1 := by
    decide +kernel
  obtain ⟨_, count, -, hblocks, hreplies, -⟩ := unexpectedVersions_exact BlockTree.nonceDigest
    (.withRegistry { clock := .blockTime } hbuild) (BlockTree.forkedActs.map .grow) hpast
    (by decide)
  have hcount : count 3 = 1 :=
    Except.ok.inj ((hreplies 3).ask.symm.trans (eq_ok_of_toOption hrun))
  obtain ⟨blocks, hlength, -, hmem⟩ := hblocks 3
  obtain ⟨id, rfl⟩ := List.length_eq_one_iff.mp (hlength.trans hcount)
  obtain ⟨b, hwindow, habove, -⟩ := (hmem id).mp List.mem_cons_self
  exact ⟨id, b, hcount ▸ hreplies 3, hwindow, habove⟩

end Session
end SoftFork
