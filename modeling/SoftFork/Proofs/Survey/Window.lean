import SoftFork.Proofs.Session
import SoftFork.Proofs.Standing.Truncated
import SoftFork.Proofs.Survey.Cold

/-!
# Counting back to the end of what is stored

Whether a version was expected is asked at the block's parent, and a block without a
parent is taken for genesis: nothing was voted on for it, and there is nothing more to
count below it.  Every other walk looks at the height of such a block first.  This one does
not, and where history has been cut off it makes a difference.

A question `Defers` to an answer when it gives that answer or is refused for lack of
history, as long as its memory comes from the whole history.  Like steadiness this goes
through `do` blocks and loops, and what it is compared with are the cold answers of the
survey with the whole history.

So the version that was expected of a block with a parent is the right one or none
(`BlockTree.nextVersion_defers`).  A window that ends above the oldest of the stored
blocks is counted rightly or not at all.  A longer one is counted down to the oldest block,
which is judged as if it was genesis (`Past.excess`), and is given out as the count over
the whole window (`BlockTree.unexpectedVersions_of_truncates`).  The count can be too high by
that block (`BlockTree.unexpectedVersions_detached`), and too low by those below it.
-/

namespace SoftFork

/-! ## Banks of memos with a property -/

/-- Every ballot has its memo, and the memo has a property. -/
def MemoBank.All (bank : MemoBank) (registry : Registry) (p : Ballot → Memo → Prop) : Prop :=
  ∀ slot ballot, registry.ballot? slot = some ballot → ∃ m, bank.get slot = .ok m ∧ p ballot m

namespace MemoBank

variable {bank : MemoBank} {registry : Registry} {p : Ballot → Memo → Prop}

theorem All.imp {q : Ballot → Memo → Prop} (h : bank.All registry p)
    (himp : ∀ slot ballot m, registry.ballot? slot = some ballot → p ballot m → q ballot m) :
    bank.All registry q := by
  intro slot ballot hballot
  obtain ⟨m, hm, hp⟩ := h slot ballot hballot
  exact ⟨m, hm, himp slot ballot m hballot hp⟩

theorem All.set (h : bank.All registry p) {slot : Slot} {ballot : Ballot}
    (hballot : registry.ballot? slot = some ballot) {m : Memo} (hm : p ballot m) :
    (bank.set slot m).All registry p := by
  intro slot' ballot' hballot'
  obtain ⟨m', hm', hp⟩ := h slot' ballot' hballot'
  rw [get_set, hm']
  split
  · next heq =>
    subst heq
    rw [hballot] at hballot'
    obtain rfl := Option.some.inj hballot'
    exact ⟨m, rfl, hm⟩
  · exact ⟨m', rfl, hp⟩

theorem all_empty (h : ∀ ballot, p ballot .empty) :
    (empty registry.deployments.length).All registry p := by
  intro slot ballot hballot
  rcases get_empty registry slot with ⟨_, -, hget⟩ | ⟨hnone, -⟩
  · exact ⟨_, hget, h ballot⟩
  · rw [hnone] at hballot
    exact absurd hballot (by simp)

end MemoBank

/-- One if the oldest block of a past has bits that nobody expects before genesis. -/
def Past.excess (past : Past) : Nat :=
  match past.head? with
  | some b => if Version.isUnexpected b.version Version.topBits then 1 else 0
  | none => 0

/-- On the ballot of a deployment blocks vote with their versions. -/
theorem Deployment.votes_congr (d : Deployment) (b b' : Block) (h : b.version = b'.version) :
    d.ballot.votes b = d.ballot.votes b' := by
  show Version.signals b.version d.bit = Version.signals b'.version d.bit
  rw [h]

/-- In a registry that has been put together every ballot has periods with blocks. -/
theorem Registry.Valid.period_pos_of_ballot? {registry : Registry} (hr : registry.Valid)
    {slot : Slot} {ballot : Ballot} (h : registry.ballot? slot = some ballot) :
    0 < ballot.period := by
  cases slot with
  | deployment position =>
    obtain ⟨d, hd, rfl⟩ := Option.map_eq_some_iff.mp h
    exact (hr.sound d (List.mem_of_getElem? hd)).period_pos
  | bit bit =>
    rw [Registry.ballot?] at h
    split at h
    · obtain rfl := Option.some.inj h
      exact hr.params_period_pos
    · exact absurd h (by simp)

namespace Survey

variable {s : Survey} {whole : Past} {α β : Type}

/-! ## Questions that defer to an answer -/

/-- What is remembered comes from the whole past. -/
def Seeded (s : Survey) (whole : Past) (bank : MemoBank) : Prop :=
  bank.All s.registry fun ballot m => m.Seeded s.view s.clock ballot whole

/-- With memory from the whole past the question abridges an answer, and what it
remembers does not go beyond the whole past. -/
def Defers (s : Survey) (whole : Past) (q : Query α) (r : Except Fault α) : Prop :=
  ∀ bank, s.Seeded whole bank → Abridges (q.ask bank).1 r ∧ s.Seeded whole (q.ask bank).2

namespace Defers

theorem pure (a : α) : s.Defers whole (Pure.pure a : Query α) (.ok a) :=
  fun _ h => ⟨Or.inl ⟨a, rfl, rfl⟩, h⟩

theorem bind {q : Query α} {r : Except Fault α} {f : α → Query β} {g : α → Except Fault β}
    (hq : s.Defers whole q r) (hf : ∀ a, r = .ok a → s.Defers whole (f a) (g a)) :
    s.Defers whole (q >>= f) (r >>= g) := by
  intro bank hbank
  obtain ⟨hanswer, hafter⟩ := hq bank hbank
  rw [Query.ask_bind]
  cases hask : q.ask bank with
  | mk r' after =>
    rw [hask] at hanswer hafter
    rcases hanswer with ⟨a, rfl, hr⟩ | ⟨height, rfl⟩
    · rw [hr]
      exact hf a hr after hafter
    · exact ⟨Or.inr ⟨height, rfl⟩, hafter⟩

theorem foldlM {γ : Type} {f : β → γ → Query β} {g : β → γ → Except Fault β} :
    ∀ {l : List γ} {b : β}, (∀ c ∈ l, ∀ b, s.Defers whole (f b c) (g b c)) →
      s.Defers whole (l.foldlM f b) (l.foldlM g b)
  | [], b, _ => pure b
  | c :: l, b, hf => by
    rw [List.foldlM_cons, List.foldlM_cons]
    refine (hf c List.mem_cons_self b).bind fun b' _ => ?_
    exact foldlM fun c' hc' => hf c' (List.mem_cons_of_mem c hc')

end Defers

/-! ## Versions that were expected -/

/-- The version that another survey expects, when it has the same deployments and an answer
about every one of them. -/
theorem nextVersion_defers {s' : Survey} (hentries : s'.entries = s.entries)
    (hv : s'.view.Lawful) {prev prev' : Option BlockId}
    (h : ∀ entry ∈ s.entries, s.Defers whole (s.standingAt prev entry)
      (s'.cold (s'.standingAt prev' entry))) :
    s.Defers whole (s.nextVersion prev) (s'.cold (s'.nextVersion prev')) := by
  have hsteady : ∀ entry ∈ s'.entries, s'.Steady (s'.standingAt prev' entry) :=
    fun _ hentry => Steady.standingAt hv hentry prev'
  rw [nextVersion, nextVersion, Steady.cold_foldlM fun entry hentry _ =>
    (hsteady entry hentry).bind fun _ => Steady.pure _]
  rw [hentries] at hsteady ⊢
  refine Defers.foldlM fun entry hentry version => ?_
  rw [Steady.cold_bind (hsteady entry hentry) fun _ => Steady.pure _]
  exact (h entry hentry).bind fun _ _ => Defers.pure _

theorem nextVersion_none_defers (hv : s.view.Lawful) :
    s.Defers whole (s.nextVersion none) (.ok Version.topBits) := by
  rw [← cold_nextVersion_none s hv]
  refine nextVersion_defers rfl hv fun entry hentry bank hbank => ?_
  have hballot := ballot?_of_mem_entries hentry
  obtain ⟨m, hm, hseeded⟩ := hbank _ _ hballot
  rw [standingAt, standing, Query.ask_onMemo _ _ hm, ← standing, cold_standing hballot]
  exact ⟨Or.inl ⟨.initial, rfl, rfl⟩, hbank.set hballot hseeded⟩

end Survey

namespace BlockTree

/-! ## Two trees -/

variable {part whole : BlockTree} {tip : BlockId} {past : Past} {registry : Registry}
  {clock : Clock}

section Trees

variable (hs : part.Sound) (ht : whole.Sound) (hpast : HasPast whole.block? tip past)
  (hroot : past.Rooted) (hpart : Truncates part whole tip)

include hs ht hpast hroot hpart

/-- A standing at one of the blocks that both trees have. -/
theorem standing_defers {slot : Slot} {ballot : Ballot}
    (hballot : registry.ballot? slot = some ballot) (hperiod : 0 < ballot.period)
    (hvotes : VotesAlike part whole ballot) {id id' : BlockId} {b : Block}
    (hb : part.block? id = some b) (hid' : whole.find? b.hash = some id') :
    (part.survey registry clock).Defers past
      ((part.survey registry clock).standing slot ballot (some id))
      ((whole.survey registry clock).cold
        ((whole.survey registry clock).standing slot ballot (some id'))) := by
  intro bank hbank
  obtain ⟨left, hleft⟩ := hs.exists_past hb
  obtain ⟨_, hkeeps⟩ := hpart.keeps_of_find ht hpast hroot hb hid'
  have hcon := ht.consecutive hkeeps.hasPast
  obtain ⟨m, hm, hseeded⟩ := hbank slot ballot hballot
  obtain ⟨hanswer, hafter⟩ := View.standing_atMost hs.climbs
    (hpart.shows hs ht hpast hroot hvotes) hperiod hb hleft (hs.consecutive hleft) hseeded
  have hwhole : Tells (whole.view.standing clock ballot (some id') .empty).1 _ :=
    View.standing_tells ht.climbs hkeeps.hasPast hcon clock hperiod
  rw [Survey.standing, Query.ask_onMemo slot _ hm, Survey.cold_standing hballot]
  exact ⟨hanswer.abridges hwhole, hbank.set hballot hafter⟩

variable (hr : registry.Valid)

include hr

theorem nextVersion_defers {id id' : BlockId} {b : Block} (hb : part.block? id = some b)
    (hid' : whole.find? b.hash = some id') :
    (part.survey registry clock).Defers past
      ((part.survey registry clock).nextVersion (some id))
      ((whole.survey registry clock).cold
        ((whole.survey registry clock).nextVersion (some id'))) := by
  have hentries : (whole.survey registry clock).entries = (part.survey registry clock).entries :=
    rfl
  refine Survey.nextVersion_defers hentries ht.lawful_view fun entry hentry => ?_
  have hmem : entry.1 ∈ registry.deployments := List.fst_mem_of_mem_zipIdx hentry
  have hvotes : VotesAlike part whole entry.1.ballot := hpart.votesAlike ht entry.1.votes_congr
  exact standing_defers hs ht hpast hroot hpart (Survey.ballot?_of_mem_entries hentry)
    (hr.sound _ hmem).period_pos hvotes hb hid'

/-- Above the oldest of the stored blocks, both trees judge a block in the same way. -/
theorem unexpectedVersions_succ_defers {id id' p : BlockId} {b : Block}
    (hb : part.block? id = some b) (hparent : b.parent = some p)
    (hid' : whole.find? b.hash = some id') {window window' : Nat} {extra : Nat}
    (hbelow : ∀ q p', part.block? p = some q → whole.find? q.hash = some p' →
      (part.survey registry clock).Defers past
        ((part.survey registry clock).unexpectedVersions window (some p))
        ((whole.survey registry clock).cold
          ((whole.survey registry clock).unexpectedVersions window' (some p')) >>= fun count =>
            .ok (count + extra))) :
    (part.survey registry clock).Defers past
      ((part.survey registry clock).unexpectedVersions (window + 1) (some id))
      ((whole.survey registry clock).cold
        ((whole.survey registry clock).unexpectedVersions (window' + 1) (some id')) >>=
          fun count => .ok (count + extra)) := by
  obtain ⟨q, p', b', hq, hp', hb', hmark, hparent'⟩ :=
    hpart.exists_find_parent hs ht hpast hroot hb hparent hid'
  have hversion : b'.version = b.version := congrArg (·.2.2) hmark
  rw [Survey.unexpectedVersions_succ _ hb, Survey.cold_unexpectedVersions_succ _ ht.lawful_view hb',
    hparent, hparent', hversion]
  simp only [bind_assoc, ok_bind, Nat.add_assoc]
  refine (nextVersion_defers hs ht hpast hroot hpart hr hq hp').bind fun expected _ => ?_
  have hrest := (hbelow q p' hq hp').bind fun rest _ => Survey.Defers.pure
    ((if Version.isUnexpected b.version expected then 1 else 0) + rest)
  simp only [bind_assoc, ok_bind] at hrest
  exact hrest

/-- The count goes on to the oldest of the stored blocks, if the window is long enough, and
judges it as if it was genesis. -/
theorem unexpectedVersions_defers {id : BlockId} {left : Past}
    (hleft : HasPast part.block? id left) :
    ∀ {id' : BlockId} {b : Block}, part.block? id = some b → whole.find? b.hash = some id' →
      ∀ window, (part.survey registry clock).Defers past
        ((part.survey registry clock).unexpectedVersions window (some id))
        ((whole.survey registry clock).cold
          ((whole.survey registry clock).unexpectedVersions (min window (left.length - 1))
            (some id')) >>= fun count =>
              .ok (count + if left.length ≤ window then left.excess else 0)) := by
  induction hleft with
  | @oldest id c hc hparent =>
    intro id' b hb hid' window
    rw [hb] at hc
    obtain rfl := Option.some.inj hc
    cases window with
    | zero => exact Survey.Defers.pure 0
    | succ window =>
      -- the block is judged on what was expected of genesis, and there is no other block
      have hnone : (part.survey registry clock).unexpectedVersions window none = pure 0 := by
        cases window <;> rfl
      have hjudged : (part.survey registry clock).Defers past
          ((part.survey registry clock).nextVersion none >>= fun expected =>
            (pure 0 : Query Nat) >>= fun rest =>
              pure ((if Version.isUnexpected b.version expected then 1 else 0) + rest))
          (.ok (Past.excess [b] + 0)) :=
        (Survey.nextVersion_none_defers hs.lawful_view).bind
          (g := fun expected =>
            .ok ((if Version.isUnexpected b.version expected then 1 else 0) + 0))
          fun _ _ => Survey.Defers.pure _
      rw [Survey.unexpectedVersions_succ _ hb, hparent, hnone, List.length_singleton, Nat.sub_self,
        Nat.min_zero, if_pos (Nat.succ_le_succ window.zero_le)]
      rw [Nat.add_comm] at hjudged
      exact hjudged
  | @later id p c before hc hparent hbefore ih =>
    intro id' b hb hid' window
    rw [hb] at hc
    obtain rfl := Option.some.inj hc
    cases window with
    | zero =>
      rw [Nat.zero_min, if_neg (by simp)]
      exact Survey.Defers.pure 0
    | succ window =>
      have hpos := hbefore.length_pos
      have hlen : (before ++ [b]).length = before.length + 1 := by
        rw [List.length_append, List.length_singleton]
      have hexcess : Past.excess (before ++ [b]) = Past.excess before := by
        rw [Past.excess, Past.excess, List.head?_append, List.head?_eq_some_head hbefore.ne_nil,
          Option.some_or]
      rw [hlen, hexcess, show min (window + 1) (before.length + 1 - 1) =
        min window (before.length - 1) + 1 by omega]
      simp only [Nat.add_le_add_iff_right]
      exact unexpectedVersions_succ_defers hs ht hpast hroot hpart hr hb hparent hid'
        fun q p' hq hp' => ih hq hp' window

end Trees

/-- What counting unexpected versions comes to in a tree that has only a part of the history,
with memos that are empty or have their entries from the tree with the whole history.  While
there are more blocks than the window takes, the count abridges that of the other tree.
When the window takes all of them it is not refused for the lack of the others.  It is then
the count above the oldest block, and one more if that block has bits which are not
expected of genesis. -/
theorem unexpectedVersions_of_truncates (digest : Header → BlockHash) (acts acts' : List Act)
    (hpast : HasPast (grown digest acts).block? tip past) (hroot : past.Rooted)
    (hpart : Truncates (grown digest acts') (grown digest acts) tip) {params : Params}
    {deployments : List Deployment} (hbuild : Registry.build params deployments = .ok registry)
    (clock : Clock) {bank : MemoBank}
    (hbank : bank.All registry fun ballot m =>
      SeededFrom (grown digest acts') (grown digest acts) clock ballot m)
    {id : BlockId} {b : Block} {left : Past} (hb : (grown digest acts').block? id = some b)
    (hleft : HasPast (grown digest acts').block? id left) (window : Nat) :
    ∃ id', (grown digest acts).find? b.hash = some id' ∧
      (window < left.length →
        Abridges ((((grown digest acts').survey registry clock).unexpectedVersions window
            (some id)).ask bank).1
          (((grown digest acts).survey registry clock).cold
            (((grown digest acts).survey registry clock).unexpectedVersions window (some id')))) ∧
      (left.length ≤ window →
        Abridges ((((grown digest acts').survey registry clock).unexpectedVersions window
            (some id)).ask bank).1
          (((grown digest acts).survey registry clock).cold
            (((grown digest acts).survey registry clock).unexpectedVersions (left.length - 1)
              (some id')) >>= fun count => .ok (count + left.excess))) := by
  have hs := sound_grown digest acts'
  have ht := sound_grown digest acts
  have hr := (Registry.build_eq_ok_iff.mp hbuild).2
  have hpos := hleft.length_pos
  have hseeded : ((grown digest acts').survey registry clock).Seeded past bank :=
    hbank.imp fun _ _ _ hballot hm =>
      hm.seeded hpart ht hpast hroot (hr.period_pos_of_ballot? hballot)
  obtain ⟨id', _, hkeeps⟩ := hpart.exists_keeps ht hpast hroot hb
  have hid' := hkeeps.find
  have hcount := (unexpectedVersions_defers hs ht hpast hroot hpart hr hleft hb hid' window bank
    hseeded).1
  have hsame : ∀ r : Except Fault Nat, (r >>= fun count => .ok (count + 0)) = r := by
    intro r
    cases r <;> rfl
  refine ⟨id', hid', fun hlt => ?_, fun hle => ?_⟩
  · rw [if_neg (Nat.not_le.mpr hlt), Nat.min_eq_left (by omega), hsame] at hcount
    exact hcount
  · rw [if_pos hle, Nat.min_eq_right (by omega)] at hcount
    exact hcount

/-! ## The forked tree again -/

/-- The registry with the deployment that the forked tree votes on. -/
def pairRegistry : Registry :=
  ⟨⟨2, 2⟩, [Session.pairDeployment]⟩

/-- A window of two blocks on the pruned row.  What was expected of both of them is known
from the entry at the closing block below. -/
theorem unexpectedVersions_pruned :
    ∃ id', (grown nonceDigest forkedActs).find? (nonceDigest (headerOn 5 6 40 0x20000001)) =
        some id' ∧
      Abridges ((((grown nonceDigest prunedActs).survey pairRegistry .blockTime).unexpectedVersions 2
          (some 3)).ask ((MemoBank.empty 1).set (.deployment 0) prunedMemo)).1
        (((grown nonceDigest forkedActs).survey pairRegistry .blockTime).cold
          (((grown nonceDigest forkedActs).survey pairRegistry .blockTime).unexpectedVersions 2
            (some id'))) := by
  have hrow : (grown nonceDigest prunedActs).block? 3 =
        some (blockOn (some 2) 6 5 40 0x20000001) ∧
      HasPast (grown nonceDigest prunedActs).block? 3
        [blockOn none 3 2 21 0x20000001, blockOn (some 0) 4 3 30 0x20000001,
         blockOn (some 1) 5 4 22 0x20000001, blockOn (some 2) 6 5 40 0x20000001] := by
    decide +kernel
  obtain ⟨hb, hleft⟩ := hrow
  have hbuild : Registry.build ⟨2, 2⟩ [Session.pairDeployment] = .ok pairRegistry := rfl
  have hempty : (MemoBank.empty 1).All pairRegistry fun ballot m =>
      SeededFrom (grown nonceDigest prunedActs) (grown nonceDigest forkedActs) .blockTime
        ballot m :=
    MemoBank.all_empty fun _ _ _ _ _ _ _ hs => absurd hs (by simp [Memo.empty])
  have hballot : pairRegistry.ballot? (.deployment 0) = some pairBallot := rfl
  obtain ⟨id', hid', hshort, -⟩ := unexpectedVersions_of_truncates nonceDigest forkedActs
    prunedActs hasPast_forked (by decide) truncates_pruned hbuild .blockTime
    (hempty.set hballot seededFrom_pruned) hb hleft 2
  exact ⟨id', hid', hshort (by decide)⟩

/-- The sixth block of the row alone, without its past. -/
def detachedActs : List Act :=
  [.detached (headerOn 5 6 40 0x20000001) 5]

/-- The bit of the block is expected, since it has been voted with from the fifth block
on.  Where the block has been detached it is counted as if it was genesis. -/
theorem unexpectedVersions_detached :
    ((((grown nonceDigest detachedActs).survey pairRegistry .blockTime).unexpectedVersions 1
        (some 0)).ask (.empty 1)).1 = .ok 1 ∧
      ((((grown nonceDigest forkedActs).survey pairRegistry .blockTime).unexpectedVersions 1
        (some 5)).ask (.empty 1)).1 = .ok 0 ∧
      (grown nonceDigest detachedActs).block? 0 =
        some ⟨nonceDigest (headerOn 5 6 40 0x20000001), 5, 40, 0x20000001, none⟩ ∧
      (grown nonceDigest forkedActs).block? 5 =
        some ⟨nonceDigest (headerOn 5 6 40 0x20000001), 5, 40, 0x20000001, some 4⟩ := by
  refine ⟨eq_ok_of_toOption ?_, eq_ok_of_toOption ?_, ?_, ?_⟩ <;> decide +kernel

end BlockTree
end SoftFork
