import SoftFork.Proofs.Standing.Likeness
import SoftFork.Proofs.Standing.Remnant
import SoftFork.Proofs.Standing.Replay

/-!
# Questions to a history that has been cut off

One tree has all that a block stands on, down to genesis.  Another one `Truncates` it:
it was begun with a detached block, say, and has only blocks that are in the first
one, too, with the same hashes, heights, times and versions.  The second tree may be asked
the same questions, and may be told in advance what the first one has answered
about some of its blocks (`SeededFrom`).

It gives the same answers or none (`abridges_of_truncates`).  What it has stored of a block
is not all the same: a parent is stored under another number.  So whether a block votes must
not be a matter of such numbers (`VotesAlike`), and a ballot that looks at them gets
another tally (`tallies_by_parent`).

There are four walks that could take the end of what is stored for genesis, and each has its
own condition for stopping there.  That the conditions are right is a fact about remnants
(`Proofs.Standing.Remnant`).  What is left is the walk from closing block to closing block
(`View.WalksTo.atMost`), which reads all of them, stops at entries of the memo, and
stops early.  Its steps are compared with those of the recursion on the whole past.  An
entry may stand at a block whose own history would not suffice to work it out; the
recursion goes on below it and the walk does not, and they agree because the entry came
from a tree that could go on.

The comparison needs no rule about the times of the blocks.  Stopping early may be wrong
where the median runs backwards; but then both trees stop early, at the same
block.
-/

namespace SoftFork

open Past (Remnant)

/-! ## Views of a part of a past -/

/-- What is stored are, to a ballot, remnants of the beginnings of one past, which goes down
to genesis. -/
structure View.Shows (v : View) (ballot : Ballot) (whole : Past) : Prop where
  rooted : whole.Rooted
  remnant : ∀ {id : BlockId} {b : Block} {past : Past}, v.block? id = some b →
    HasPast v.block? id past →
      ∃ kept, past.Like ballot kept ∧ kept.Remnant (whole.take (b.height + 1))

/-- Every entry at a stored block is the verdict on the whole past of the block. -/
def Memo.Seeded (v : View) (clock : Clock) (ballot : Ballot) (whole : Past) (m : Memo) : Prop :=
  ∀ (id : BlockId) (b : Block) (s : Standing), v.block? id = some b → m[id]? = some s →
    Past.verdict? (whole.take (b.height + 1)) clock ballot = some s

namespace Memo

variable {v : View} {clock : Clock} {ballot : Ballot} {whole : Past} {m : Memo}

theorem Seeded.insert (hm : m.Seeded v clock ballot whole) {id : BlockId} {b : Block}
    (hb : v.block? id = some b) {s : Standing}
    (hs : Past.verdict? (whole.take (b.height + 1)) clock ballot = some s) :
    Memo.Seeded v clock ballot whole (m.insert id s) := by
  intro id' b' s' hb' h
  rw [Std.ExtTreeMap.getElem?_insert] at h
  split at h
  · next heq =>
    obtain rfl := Std.LawfulEqCmp.compare_eq_iff_eq.mp heq
    obtain rfl := Option.some.inj h
    rw [hb] at hb'
    obtain rfl := Option.some.inj hb'
    exact hs
  · exact hm id' b' s' hb' h

end Memo

namespace View

variable {v : View} {clock : Clock} {ballot : Ballot} {whole : Past} {m : Memo}

/-- The whole past of a stored block goes on where the past that is stored goes on. -/
theorem Shows.length_take_eq_next (hshows : v.Shows ballot whole) {id : BlockId} {b : Block}
    {past : Past} (hb : v.block? id = some b) (hpast : HasPast v.block? id past) :
    (whole.take (b.height + 1)).length = past.next := by
  obtain ⟨kept, hlike, hkept⟩ := hshows.remnant hb hpast
  rw [hlike.next_eq, hkept.next_eq, hkept.rooted.next]

theorem Shows.height_succ (hshows : v.Shows ballot whole) {id : BlockId} {b : Block}
    {past : Past} (hb : v.block? id = some b) (hpast : HasPast v.block? id past)
    (hcon : past.Consecutive) : b.height + 1 = past.next := by
  refine hpast.height_succ hcon hb ?_
  obtain ⟨kept, -, hkept⟩ := hshows.remnant hb hpast
  rw [← hshows.length_take_eq_next hb hpast]
  exact Nat.lt_of_lt_of_le (List.length_pos_iff.mpr hkept.ne_nil) hkept.length_le

/-- The whole past of a stored block is as long as its height says. -/
theorem Shows.length_take (hshows : v.Shows ballot whole) {id : BlockId} {b : Block} {past : Past}
    (hb : v.block? id = some b) (hpast : HasPast v.block? id past) (hcon : past.Consecutive) :
    (whole.take (b.height + 1)).length = b.height + 1 := by
  rw [hshows.length_take_eq_next hb hpast, hshows.height_succ hb hpast hcon]

theorem Shows.length_take_of_closes (hshows : v.Shows ballot whole) {id : BlockId} {b : Block}
    {period periods : Nat} (hb : v.block? id = some b) (hid : v.Closes period id periods) :
    (whole.take (b.height + 1)).length = b.height + 1 := by
  obtain ⟨past, hpast, hcon, -⟩ := hid
  exact hshows.length_take hb hpast hcon

/-! ## The walk -/

section Closing

variable {id : BlockId} {past kept : Past} (hpast : HasPast v.block? id past)
  (hlike : past.Like ballot kept) (h : kept.Remnant whole)

include hpast hlike h

theorem isQuiet_atMost :
    TellsAtMost (v.isQuiet clock ballot id) (Past.isQuiet? whole clock ballot) := by
  have htells : Tells (v.isQuiet clock ballot id) _ := isQuiet_tells hpast
  rw [hlike.isQuiet?_eq] at htells
  exact htells.atMost fun _ => h.isQuiet?_eq_some

theorem nextStanding_atMost (hcon : past.Consecutive) (s : Standing) :
    TellsAtMost (v.nextStanding clock ballot id s) (Past.nextStanding? whole clock ballot s) := by
  have htells : Tells (v.nextStanding clock ballot id s) _ := nextStanding_tells hpast hcon s
  rw [hlike.nextStanding?_eq] at htells
  exact htells.atMost fun _ => h.nextStanding?_eq_some

end Closing

/-- Dealing with a closing block keeps an answer from being wrong. -/
theorem dealWith_atMost (hshows : v.Shows ballot whole) {id : BlockId} {b : Block} {periods : Nat}
    (hb : v.block? id = some b) (hid : v.Closes ballot.period id periods)
    {before : Except Fault Standing × Memo} {o : Option Standing} (hbefore : TellsAtMost before.1 o)
    (hm : before.2.Seeded v clock ballot whole)
    (hverdict : Past.verdict? (whole.take (b.height + 1)) clock ballot =
      o >>= Past.nextStanding? (whole.take (b.height + 1)) clock ballot) :
    TellsAtMost (v.dealWith clock ballot id before).1
        (Past.verdict? (whole.take (b.height + 1)) clock ballot) ∧
      (v.dealWith clock ballot id before).2.Seeded v clock ballot whole := by
  obtain ⟨r, m⟩ := before
  cases r with
  | error e =>
    obtain ⟨height, rfl⟩ := hbefore.missing rfl
    exact ⟨.of_missing height _, hm⟩
  | ok s =>
    rw [hbefore.eq_some rfl, Option.bind_eq_bind, Option.bind_some] at hverdict
    obtain ⟨past, hpast, hcon, -⟩ := hid
    obtain ⟨kept, hlike, hkept⟩ := hshows.remnant hb hpast
    have hnext : TellsAtMost (v.nextStanding clock ballot id s) _ :=
      nextStanding_atMost hpast hlike hkept hcon s
    rw [← hverdict] at hnext
    rw [dealWith]
    cases hresult : v.nextStanding clock ballot id s with
    | error e =>
      obtain ⟨height, rfl⟩ := hnext.missing hresult
      exact ⟨.of_missing height _, hm⟩
    | ok next =>
      have hs := hnext.eq_some hresult
      refine ⟨?_, hm.insert hb hs⟩
      rw [hs]
      exact .of_ok next

/-- What the clock says at a stored closing block is not wrong. -/
theorem Shows.isQuiet_atMost (hshows : v.Shows ballot whole) {id : BlockId} {b : Block}
    {periods : Nat} (hb : v.block? id = some b) (hid : v.Closes ballot.period id periods) :
    TellsAtMost (v.isQuiet clock ballot id)
      (Past.isQuiet? (whole.take (b.height + 1)) clock ballot) := by
  obtain ⟨past, hpast, -⟩ := hid
  obtain ⟨kept, hlike, hkept⟩ := hshows.remnant hb hpast
  exact View.isQuiet_atMost hpast hlike hkept

/-- At a closing block that the walk comes through, the verdict on the whole past is the rules
applied to what is below. -/
theorem Shows.verdict?_of_comes (hshows : v.Shows ballot whole) {id : BlockId} {b : Block}
    {periods : Nat} (hb : v.block? id = some b) (hid : v.Closes ballot.period id (periods + 1))
    (hquiet : v.isQuiet clock ballot id = .ok false) :
    Past.verdict? (whole.take (b.height + 1)) clock ballot =
      Past.verdict? (whole.take (periods * ballot.period)) clock ballot >>=
        Past.nextStanding? (whole.take (b.height + 1)) clock ballot := by
  have hheight := hid.height_succ hb
  have hmul : (periods + 1) * ballot.period = periods * ballot.period + ballot.period :=
    Nat.succ_mul _ _
  have hlen := hshows.length_take_of_closes hb hid
  have hverdict := Past.verdict?_of_comes (hshows.rooted.take (b.height + 1)) hid.pos
    (hlen.trans hheight) ((hshows.isQuiet_atMost hb hid).eq_some hquiet)
  rwa [List.take_take, Nat.min_eq_left (by omega)] at hverdict

/-- The walk from a closing block does not answer wrongly, and remembers only what is
right. -/
theorem WalksTo.atMost (hv : v.Climbs) (hshows : v.Shows ballot whole)
    (hm : m.Seeded v clock ballot whole) {id : BlockId} {r : Except Fault Standing × Memo}
    (h : v.WalksTo clock ballot m id r) :
    ∀ {b : Block} {periods : Nat}, v.block? id = some b → v.Closes ballot.period id periods →
      TellsAtMost r.1 (Past.verdict? (whole.take (b.height + 1)) clock ballot) ∧
        r.2.Seeded v clock ballot whole := by
  induction h with
  | @entry id s hmem =>
    intro b periods hb hid
    rw [hm id b s hb hmem]
    exact ⟨.of_ok s, hm⟩
  | refused _ hquiet =>
    intro b periods hb hid
    obtain ⟨height, rfl⟩ := (hshows.isQuiet_atMost hb hid).missing hquiet
    exact ⟨.of_missing height _, hm⟩
  | quiet _ hquiet =>
    intro b periods hb hid
    obtain ⟨below, rfl⟩ := hid.exists_eq_succ
    have hlen := hshows.length_take_of_closes hb hid
    have hne : whole.take (b.height + 1) ≠ [] :=
      List.ne_nil_of_length_pos (by rw [hlen]; exact b.height.succ_pos)
    have hnext := (hshows.rooted.take (b.height + 1)).next.trans hlen
    have hs := Past.verdict?_of_quiet hne hid.pos (hnext.trans (hid.height_succ hb))
      ((hshows.isQuiet_atMost hb hid).eq_some hquiet)
    refine ⟨?_, hm.insert hb hs⟩
    rw [hs]
    exact .of_ok Standing.initial
  | first _ hquiet hb' hlt =>
    intro b periods hb hid
    obtain rfl := Option.some.inj (hb'.symm.trans hb)
    obtain ⟨below, rfl⟩ := hid.exists_eq_succ
    have hheight := hid.height_succ hb
    have hverdict := hshows.verdict?_of_comes hb hid hquiet
    -- the first period is closed, so what is below is the standing at genesis
    have hzero : below * ballot.period = 0 := by
      refine Nat.eq_zero_of_not_pos fun hpos => ?_
      have hle := Nat.le_mul_of_pos_left ballot.period (Nat.pos_of_mul_pos_right hpos)
      rw [Nat.succ_mul] at hheight
      omega
    rw [hzero, List.take_zero, Past.verdict?_nil hid.pos] at hverdict
    exact dealWith_atMost hshows hb hid (.of_ok Standing.initial) hm hverdict
  | lost _ _ hb' hge hearlier =>
    intro b periods hb hid
    obtain ⟨past, hpast, -⟩ := hid
    obtain ⟨height, rfl⟩ := hv.missing_of_error hpast hb' (Nat.le_of_not_lt hge) hearlier
    exact ⟨.of_missing height _, hm⟩
  | later _ hquiet hb' hge hearlier _ ih =>
    intro b periods hb hid
    obtain rfl := Option.some.inj (hb'.symm.trans hb)
    obtain ⟨below, rfl⟩ := hid.exists_eq_succ
    have hcloses := closes_earlier hv hb hid hge hearlier
    have hverdict := hshows.verdict?_of_comes hb hid hquiet
    obtain ⟨e, he⟩ := hcloses.exists_block
    obtain ⟨hanswer, hmemo⟩ := ih he hcloses
    rw [hcloses.height_succ he] at hanswer
    exact dealWith_atMost hshows hb hid hanswer hmemo hverdict

/-- An answer is not wrong where history has been cut off, and nothing wrong is
remembered. -/
theorem standing_atMost (hv : v.Climbs) (hshows : v.Shows ballot whole)
    (hperiod : 0 < ballot.period) {id : BlockId} {b : Block} {past : Past}
    (hb : v.block? id = some b) (hpast : HasPast v.block? id past) (hcon : past.Consecutive)
    (hm : m.Seeded v clock ballot whole) :
    TellsAtMost (v.standing clock ballot (some id) m).1
        (Past.verdict? (whole.take (b.height + 1)) clock ballot) ∧
      (v.standing clock ballot (some id) m).2.Seeded v clock ballot whole := by
  have hrooted : Past.Rooted (whole.take (b.height + 1)) := hshows.rooted.take (b.height + 1)
  have hheight := hshows.height_succ hb hpast hcon
  have hlen := hshows.length_take hb hpast hcon
  have hverdict : Past.verdict? (whole.take (b.height + 1)) clock ballot =
      Past.verdict? (whole.take (past.next / ballot.period * ballot.period)) clock ballot := by
    have hle := Nat.div_mul_le_self past.next ballot.period
    rw [← Past.verdict?_take_closed hrooted hperiod, hlen, hheight, List.take_take,
      Nat.min_eq_left hle]
  have hclosing := closing_eq hv hpast hcon hperiod
  rw [hverdict, standing_eq_finish, trailFrom]
  split at hclosing
  · next hlt =>
    rw [hclosing, Nat.div_eq_of_lt hlt, Nat.zero_mul, List.take_zero, Past.verdict?_nil hperiod]
    exact ⟨.of_ok Standing.initial, hm⟩
  · next hge =>
    split at hclosing
    · obtain ⟨height, hmissing⟩ := hclosing
      rw [hmissing]
      exact ⟨.of_missing height _, hm⟩
    · next hclosed =>
      obtain ⟨c, hc, htake⟩ := hclosing
      obtain ⟨e, he, hcloses⟩ := closes_closing hv hpast hcon hc
      have hdiv : 0 < past.next / ballot.period := Nat.div_pos (Nat.le_of_not_lt hge) hperiod
      have hnext := Past.next_take_closed (Nat.lt_of_not_le hclosed)
      have heheight := htake.height_succ (hcon.take _) he
        (hnext.symm ▸ Nat.mul_pos hdiv hperiod)
      rw [← hnext, ← heheight, hc]
      simp only [ok_bind, get_eq_ok he]
      exact (walksTo_finish hv _ hcloses).atMost hv hshows hm he hcloses

end View

namespace BlockTree

/-! ## Two trees -/

/-- What one tree stores is stored in another one, too, and there a block stands on it. -/
def Truncates (part whole : BlockTree) (tip : BlockId) : Prop :=
  ∀ (id : BlockId) (b : Block), part.block? id = some b → ∃ id' b',
    whole.block? id' = some b' ∧ StandsOn whole.block? tip id' ∧
      b'.hash = b.hash ∧ b'.mark = b.mark

/-- Every entry at a block of one tree is the standing that the other tree gives for the
block with the same hash. -/
def SeededFrom (part whole : BlockTree) (clock : Clock) (ballot : Ballot) (m : Memo) : Prop :=
  ∀ (id id' : BlockId) (b : Block) (s : Standing), part.block? id = some b →
    whole.find? b.hash = some id' → m[id]? = some s →
    (whole.view.standing clock ballot (some id') .empty).1 = .ok s

/-- On a block of one tree and the block of the other one with the same hash the ballot has
the same vote. -/
def VotesAlike (part whole : BlockTree) (ballot : Ballot) : Prop :=
  ∀ (id id' : BlockId) (b b' : Block), part.block? id = some b → whole.block? id' = some b' →
    b'.hash = b.hash → ballot.votes b = ballot.votes b'

variable {part whole : BlockTree} {tip : BlockId} {past : Past} {ballot : Ballot}

/-- A block of the tree with less history as the other one has it, in the past of the tip. -/
structure Keeps (whole : BlockTree) (tip : BlockId) (past : Past) (b : Block) (id' : BlockId)
    (b' : Block) : Prop where
  block : whole.block? id' = some b'
  hash : b'.hash = b.hash
  mark : b'.mark = b.mark
  find : whole.find? b.hash = some id'
  stands : StandsOn whole.block? tip id'
  height_lt : b.height < past.length
  hasPast : HasPast whole.block? id' (past.take (b.height + 1))
  last : (past.take (b.height + 1)).getLast? = some b'

/-- Below the height of the tip heights have not been used up. -/
theorem Keeps.above_eq {b b' : Block} {id' : BlockId} (h : Keeps whole tip past b id' b')
    (hroot : past.Rooted) : b.above = b.height + 1 :=
  Nat.mod_eq_of_lt (Nat.lt_of_le_of_lt h.height_lt hroot.2)

namespace Truncates

/-- The other tree has the same block, with a past that goes down to genesis. -/
theorem exists_keeps (hpart : Truncates part whole tip) (ht : whole.Sound)
    (hpast : HasPast whole.block? tip past) (hroot : past.Rooted) {id : BlockId} {b : Block}
    (hb : part.block? id = some b) : ∃ id' b', Keeps whole tip past b id' b' := by
  obtain ⟨id', b', hb', hstands, hhash, hmark⟩ := hpart id b hb
  have hheight : b'.height = b.height := congrArg (·.1) hmark
  obtain ⟨hlt, hpast'⟩ := ht.hasPast_of_standsOn hpast hroot hstands hb'
  obtain ⟨b'', hb'', hlast⟩ := hpast'.exists_block
  rw [hb'] at hb''
  obtain rfl := Option.some.inj hb''
  rw [hheight] at hlt hpast' hlast
  exact ⟨id', b', hb', hhash, hmark, ht.find.mpr ⟨b', hb', hhash⟩, hstands, hlt, hpast', hlast⟩

theorem keeps_of_find (hpart : Truncates part whole tip) (ht : whole.Sound)
    (hpast : HasPast whole.block? tip past) (hroot : past.Rooted) {id id' : BlockId} {b : Block}
    (hb : part.block? id = some b) (hid' : whole.find? b.hash = some id') :
    ∃ b', Keeps whole tip past b id' b' := by
  obtain ⟨id'', b', hkeeps⟩ := hpart.exists_keeps ht hpast hroot hb
  obtain rfl := Option.some.inj (hkeeps.find.symm.trans hid')
  exact ⟨b', hkeeps⟩

/-- A ballot on which blocks vote with their versions has the same votes in both trees. -/
theorem votesAlike (hpart : Truncates part whole tip) (ht : whole.Sound)
    (hvotes : ∀ b b' : Block, b.version = b'.version → ballot.votes b = ballot.votes b') :
    VotesAlike part whole ballot := by
  intro id id' b b' hb hb' hhash
  obtain ⟨id'', b'', hb'', -, hhash'', hmark⟩ := hpart id b hb
  have hid'' := (ht.find.mpr ⟨b'', hb'', hhash''⟩).symm.trans (ht.find.mpr ⟨b', hb', hhash⟩)
  obtain rfl := Option.some.inj hid''
  obtain rfl := Option.some.inj (hb''.symm.trans hb')
  exact hvotes b b'' (congrArg (·.2.2) hmark).symm

/-- The height of a block is one more than that of its parent. -/
theorem height_parent (hpart : Truncates part whole tip) (hs : part.Sound) (ht : whole.Sound)
    (hpast : HasPast whole.block? tip past) (hroot : past.Rooted) {id p : BlockId} {b : Block}
    (hb : part.block? id = some b) (hparent : b.parent = some p) :
    ∃ q, part.block? p = some q ∧ b.height = q.height + 1 := by
  obtain ⟨_, q, hq, hheight⟩ := hs.parent hb hparent
  obtain ⟨_, _, hkeeps⟩ := hpart.exists_keeps ht hpast hroot hq
  exact ⟨q, hq, hheight.trans (hkeeps.above_eq hroot)⟩

/-- What is stored of the past of a block is a remnant of its whole past. -/
theorem remnant (hpart : Truncates part whole tip) (hs : part.Sound) (ht : whole.Sound)
    (hpast : HasPast whole.block? tip past) (hroot : past.Rooted)
    (hvotes : VotesAlike part whole ballot) {id : BlockId} {b : Block} {left : Past}
    (hb : part.block? id = some b) (h : HasPast part.block? id left) :
    ∃ kept, left.Like ballot kept ∧ kept.Remnant (past.take (b.height + 1)) := by
  have hconfuses : ∀ {id id' : BlockId} {b b' : Block}, part.block? id = some b →
      Keeps whole tip past b id' b' → ballot.Confuses b b' := fun hb hkeeps =>
    ⟨(congrArg (·.1) hkeeps.mark).symm, (congrArg (·.2.1) hkeeps.mark).symm,
      hvotes _ _ _ _ hb hkeeps.block hkeeps.hash⟩
  induction h generalizing b with
  | @oldest id b' hb' _ =>
    rw [hb] at hb'
    obtain rfl := Option.some.inj hb'
    obtain ⟨_, b', hkeeps⟩ := hpart.exists_keeps ht hpast hroot hb
    refine ⟨[b'], .cons (hconfuses hb hkeeps) .nil, by simp, ht.consecutive hkeeps.hasPast,
      hroot.take _, ?_⟩
    exact List.getLast?_eq_some_iff.mp hkeeps.last |>.imp fun _ h => h.symm
  | @later id p b' before hb' hparent hbefore ih =>
    rw [hb] at hb'
    obtain rfl := Option.some.inj hb'
    obtain ⟨q, hq, hheight⟩ := hpart.height_parent hs ht hpast hroot hb hparent
    obtain ⟨kept, hlike, hkept⟩ := ih hq
    obtain ⟨older, holder⟩ := hkept.suffix
    obtain ⟨_, b', hkeeps⟩ := hpart.exists_keeps ht hpast hroot hb
    refine ⟨kept ++ [b'], hlike.snoc (hconfuses hb hkeeps), by simp,
      ht.consecutive hkeeps.hasPast, hroot.take _, older, ?_⟩
    have hlast := hkeeps.last
    rw [List.take_succ_eq_append_getElem hkeeps.height_lt, List.getLast?_concat] at hlast
    rw [List.take_succ_eq_append_getElem hkeeps.height_lt, Option.some.inj hlast, hheight,
      ← holder, List.append_assoc]

/-- The parents of one block are one block, too. -/
theorem exists_find_parent (hpart : Truncates part whole tip) (hs : part.Sound)
    (ht : whole.Sound) (hpast : HasPast whole.block? tip past) (hroot : past.Rooted)
    {id id' p : BlockId} {b : Block} (hb : part.block? id = some b) (hparent : b.parent = some p)
    (hid' : whole.find? b.hash = some id') :
    ∃ q p' b', part.block? p = some q ∧ whole.find? q.hash = some p' ∧
      whole.block? id' = some b' ∧ b'.mark = b.mark ∧ b'.parent = some p' := by
  obtain ⟨q, hq, hheight⟩ := hpart.height_parent hs ht hpast hroot hb hparent
  obtain ⟨b', hkeeps⟩ := hpart.keeps_of_find ht hpast hroot hb hid'
  obtain ⟨p', q', hbelow⟩ := hpart.exists_keeps ht hpast hroot hq
  have hlt := hkeeps.height_lt
  refine ⟨q, p', b', hq, hbelow.find, hkeeps.block, hkeeps.mark, ?_⟩
  cases hparent' : b'.parent with
  | none =>
    have hlen := congrArg List.length (hkeeps.hasPast.unique (.oldest hkeeps.block hparent'))
    rw [List.length_take, List.length_singleton] at hlen
    omega
  | some a =>
    have ha := hkeeps.hasPast.parent hkeeps.block hparent'
    rw [List.length_take, List.take_take,
      show min (min (b.height + 1) past.length - 1) (b.height + 1) = q.height + 1 by omega] at ha
    rw [StandsOn.unique hpast (hkeeps.stands.parent hkeeps.block hparent') hbelow.stands ha
      hbelow.hasPast]

theorem shows (hpart : Truncates part whole tip) (hs : part.Sound) (ht : whole.Sound)
    (hpast : HasPast whole.block? tip past) (hroot : past.Rooted)
    (hvotes : VotesAlike part whole ballot) : part.view.Shows ballot past where
  rooted := hroot
  remnant := hpart.remnant hs ht hpast hroot hvotes

end Truncates

/-- With entries from the other tree every remembered standing belongs to a whole past. -/
theorem SeededFrom.seeded {clock : Clock} {ballot : Ballot} {m : Memo}
    (hm : SeededFrom part whole clock ballot m) (hpart : Truncates part whole tip)
    (ht : whole.Sound) (hpast : HasPast whole.block? tip past) (hroot : past.Rooted)
    (hperiod : 0 < ballot.period) : m.Seeded part.view clock ballot past := by
  intro id b s hb hs
  obtain ⟨id', _, hkeeps⟩ := hpart.exists_keeps ht hpast hroot hb
  have hcon := ht.consecutive hkeeps.hasPast
  exact (View.standing_tells ht.climbs hkeeps.hasPast hcon clock hperiod).eq_some
    (hm id id' b s hb hkeeps.find hs)

/-- The closing block below a block is the same in both trees, if the tree with less
history finds it. -/
theorem closing_of_truncates (hs : part.Sound) (ht : whole.Sound)
    (hpast : HasPast whole.block? tip past) (hroot : past.Rooted)
    (hpart : Truncates part whole tip) {period : Nat} (hperiod : 0 < period) {id id' : BlockId}
    {b : Block} (hb : part.block? id = some b) (hid' : whole.find? b.hash = some id') :
    (∃ height, part.view.closing period id = .error (.historyMissing height)) ∨
      (part.view.closing period id = .ok none ∧ whole.view.closing period id' = .ok none) ∨
      ∃ c q c', part.view.closing period id = .ok (some c) ∧ part.block? c = some q ∧
        whole.find? q.hash = some c' ∧ whole.view.closing period id' = .ok (some c') := by
  obtain ⟨left, hleft⟩ := hs.exists_past hb
  have hcon := hs.consecutive hleft
  obtain ⟨b', hkeeps⟩ := hpart.keeps_of_find ht hpast hroot hb hid'
  have hclosing := View.closing_eq hs.climbs hleft hcon hperiod
  have hclosing' := View.closing_eq ht.climbs hkeeps.hasPast (ht.consecutive hkeeps.hasPast) hperiod
  have hnext : left.next = b.height + 1 := by
    rw [← hleft.above_eq hcon hb, hkeeps.above_eq hroot]
  have hlen : (past.take (b.height + 1)).length = b.height + 1 := by
    rw [List.length_take, Nat.min_eq_left hkeeps.height_lt]
  have hmod := Nat.mod_lt left.next hperiod
  rw [(hroot.take (b.height + 1)).next, hlen, ← hnext] at hclosing'
  split at hclosing
  · next hfirst =>
    rw [if_pos hfirst] at hclosing'
    exact Or.inr (Or.inl ⟨hclosing, hclosing'⟩)
  · next hlater =>
    rw [if_neg hlater, if_neg (by omega)] at hclosing'
    split at hclosing
    · exact Or.inl hclosing
    · next hclosed =>
      obtain ⟨c, hc, htake⟩ := hclosing
      obtain ⟨a, ha, hatake⟩ := hclosing'
      obtain ⟨q, hq, -⟩ := htake.exists_block
      obtain ⟨c', q', hbelow⟩ := hpart.exists_keeps ht hpast hroot hq
      have hbefore := Past.next_take_sub (Nat.lt_of_not_le hclosed) (Nat.mod_le _ _)
      have hheight := htake.height_succ (hcon.take _) hq (by omega)
      rw [List.take_take, show min (left.next - left.next % period) left.next = q.height + 1 by
        omega] at hatake
      -- both are below the tip, and have the same past
      have hsame := StandsOn.unique hpast (hkeeps.stands.trans (ht.standsOn_of_closing ha))
        hbelow.stands hatake hbelow.hasPast
      rw [hsame] at ha
      exact Or.inr (Or.inr ⟨c, q, c', hc, hq, hbelow.find, ha⟩)

/-- A tree that has only a part of what a block of another tree stands on, with a memo
that is empty or has its entries from the other tree, and a ballot with the same votes in
both.  A question about one of its blocks gets the answer that the other tree gives about
the block with the same hash, or is refused for lack of history: after the standing, the
tally, the closing block below and the median of the times. -/
theorem abridges_of_truncates (digest : Header → BlockHash) (acts acts' : List Act)
    (hpast : HasPast (grown digest acts).block? tip past) (hroot : past.Rooted)
    (hpart : Truncates (grown digest acts') (grown digest acts) tip) (clock : Clock)
    (ballot : Ballot) (hperiod : 0 < ballot.period)
    (hvotes : VotesAlike (grown digest acts') (grown digest acts) ballot) {m : Memo}
    (hm : SeededFrom (grown digest acts') (grown digest acts) clock ballot m) {id : BlockId}
    {b : Block} (hb : (grown digest acts').block? id = some b) :
    ∃ id', (grown digest acts).find? b.hash = some id' ∧
      Abridges ((grown digest acts').view.standing clock ballot (some id) m).1
        ((grown digest acts).view.standing clock ballot (some id') .empty).1 ∧
      Abridges ((grown digest acts').view.tally ballot (some id))
        ((grown digest acts).view.tally ballot (some id')) ∧
      Abridges ((grown digest acts').view.medianTimePast id)
        ((grown digest acts).view.medianTimePast id') ∧
      ((∃ height, (grown digest acts').view.closing ballot.period id =
          .error (.historyMissing height)) ∨
        ((grown digest acts').view.closing ballot.period id = .ok none ∧
          (grown digest acts).view.closing ballot.period id' = .ok none) ∨
        ∃ c q c', (grown digest acts').view.closing ballot.period id = .ok (some c) ∧
          (grown digest acts').block? c = some q ∧
          (grown digest acts).find? q.hash = some c' ∧
          (grown digest acts).view.closing ballot.period id' = .ok (some c')) := by
  have hs := sound_grown digest acts'
  have ht := sound_grown digest acts
  obtain ⟨left, hleft⟩ := hs.exists_past hb
  have hcon := hs.consecutive hleft
  obtain ⟨id', _, hkeeps⟩ := hpart.exists_keeps ht hpast hroot hb
  have hpast' := hkeeps.hasPast
  have hcon' := ht.consecutive hpast'
  obtain ⟨kept, hlike, hkept⟩ := hpart.remnant hs ht hpast hroot hvotes hb hleft
  refine ⟨id', hkeeps.find, ?_, ?_, ?_, ?_⟩
  · have hwhole : Tells ((grown digest acts).view.standing clock ballot (some id') .empty).1 _ :=
      View.standing_tells ht.climbs hpast' hcon' clock hperiod
    exact (View.standing_atMost hs.climbs (hpart.shows hs ht hpast hroot hvotes) hperiod hb hleft
      hcon (hm.seeded hpart ht hpast hroot hperiod)).1.abridges hwhole
  · have hwhole : Tells ((grown digest acts).view.tally ballot (some id')) _ :=
      View.tally_tells hpast' hcon' ballot hperiod
    have htells : Tells ((grown digest acts').view.tally ballot (some id)) _ :=
      View.tally_tells hleft hcon ballot hperiod
    rw [hlike.tally?_eq] at htells
    exact (htells.atMost fun _ => hkept.tally?_eq_some).abridges hwhole
  · have hwhole : Tells ((grown digest acts).view.clockTime .medianTimePast id') _ :=
      View.clockTime_tells hpast' .medianTimePast
    have htells : Tells ((grown digest acts').view.clockTime .medianTimePast id) _ :=
      View.clockTime_tells hleft .medianTimePast
    rw [hlike.clockTime?_eq] at htells
    exact (htells.atMost fun _ => hkept.clockTime?_eq_some).abridges hwhole
  · exact closing_of_truncates hs ht hpast hroot hpart hperiod hb hkeeps.find

/-! ## The forked tree without its first blocks -/

/-- The row of the forked tree from its third block on. -/
def prunedActs : List Act :=
  [.detached (headerOn 2 3 21 0x20000001) 2,
   .insert (headerOn 3 4 30 0x20000001),
   .insert (headerOn 4 5 22 0x20000001),
   .insert (headerOn 5 6 40 0x20000001),
   .insert (headerOn 6 7 50 0x20000001),
   .insert (headerOn 7 8 60 0x20000001)]

theorem truncates_pruned :
    Truncates (grown nonceDigest prunedActs) (grown nonceDigest forkedActs) 7 := by
  have hrow : (grown nonceDigest prunedActs).blocks.size = 6 ∧ ∀ i < 6,
      ((grown nonceDigest prunedActs).block? i).map (fun b => (b.hash, b.mark)) =
        ((grown nonceDigest forkedActs).block? (i + 2)).map (fun b => (b.hash, b.mark)) ∧
      ((grown nonceDigest forkedActs).plainView.climb (5 - i) 7).toOption = some (i + 2) := by
    decide +kernel
  obtain ⟨hsize, hsame⟩ := hrow
  intro id b hb
  have hlt : id < 6 := hsize ▸ (Array.getElem?_eq_some_iff.mp hb).1
  obtain ⟨hblock, hclimb⟩ := hsame id hlt
  rw [hb] at hblock
  obtain ⟨b', hb', heq⟩ := Option.map_eq_some_iff.mp hblock.symm
  refine ⟨id + 2, b', hb', ?_, congrArg (·.1) heq, congrArg (·.2) heq⟩
  exact View.standsOn_of_climb (5 - id) (eq_ok_of_toOption hclimb)

theorem votesAlike_pruned :
    VotesAlike (grown nonceDigest prunedActs) (grown nonceDigest forkedActs) pairBallot :=
  truncates_pruned.votesAlike (sound_grown nonceDigest forkedActs) fun b b' hversion => by
    show Version.signals b.version 0 = Version.signals b'.version 0
    rw [hversion]

/-- The standing after the second period, which has not been stored as a whole. -/
def prunedMemo : Memo :=
  Memo.empty.insert 1 ⟨.started, 4⟩

theorem seededFrom_pruned :
    SeededFrom (grown nonceDigest prunedActs) (grown nonceDigest forkedActs) .blockTime
      pairBallot prunedMemo := by
  have hfound : HasPast (grown nonceDigest forkedActs).block? 3 (forkedPast.take 4) ∧
      ((grown nonceDigest prunedActs).block? 1).bind (fun b =>
        (grown nonceDigest forkedActs).find? b.hash) = some 3 := by
    decide +kernel
  obtain ⟨hpast, hfind⟩ := hfound
  have hreplay : Past.replay (forkedPast.take 4) .blockTime pairBallot = ⟨.started, 4⟩ := by
    decide +kernel
  intro id id' b s hb hid' hs
  rw [prunedMemo, Std.ExtTreeMap.getElem?_insert] at hs
  split at hs
  · next heq =>
    obtain rfl := Std.LawfulEqCmp.compare_eq_iff_eq.mp heq
    obtain rfl := Option.some.inj hs
    rw [hb, Option.bind_some, hid'] at hfind
    obtain rfl := Option.some.inj hfind
    have ht := sound_grown nonceDigest forkedActs
    rw [← hreplay]
    exact View.standing_of_rooted ht.climbs hpast (ht.consecutive hpast) (by decide) (by decide)
      fun h => absurd h (by decide)
  · exact absurd hs (by simp [Memo.empty])

/-- A block in the middle of what is left of the row.  Its closing block is its own, whose
votes are there; what was before is in the memo. -/
theorem abridges_pruned :
    ∃ id', (grown nonceDigest forkedActs).find? (nonceDigest (headerOn 5 6 40 0x20000001)) =
        some id' ∧
      Abridges ((grown nonceDigest prunedActs).view.standing .blockTime pairBallot (some 3)
          prunedMemo).1
        ((grown nonceDigest forkedActs).view.standing .blockTime pairBallot (some id') .empty).1 ∧
      Abridges ((grown nonceDigest prunedActs).view.tally pairBallot (some 3))
        ((grown nonceDigest forkedActs).view.tally pairBallot (some id')) := by
  have hb : (grown nonceDigest prunedActs).block? 3 =
      some (blockOn (some 2) 6 5 40 0x20000001) := by
    decide +kernel
  obtain ⟨id', hid', hstanding, htally, -⟩ := abridges_of_truncates nonceDigest forkedActs
    prunedActs hasPast_forked (by decide) truncates_pruned .blockTime pairBallot (by decide)
    votesAlike_pruned seededFrom_pruned hb
  exact ⟨id', hid', hstanding, htally⟩

/-- A ballot on which a block votes if its parent is stored under a certain number. -/
def parentBallot : Ballot :=
  { pairBallot with votes := fun b => b.parent == some 3 }

/-- A block at which a period is open, with one block in it.  In both trees it has the same
parent, which is the fourth block of the one and the second of the other.  So it votes in one
of them only. -/
theorem tallies_by_parent :
    Truncates (grown nonceDigest prunedActs) (grown nonceDigest forkedActs) 7 ∧
      HasPast (grown nonceDigest forkedActs).block? 7 forkedPast ∧ forkedPast.Rooted ∧
      0 < parentBallot.period ∧
      (grown nonceDigest prunedActs).block? 2 = some (blockOn (some 1) 5 4 22 0x20000001) ∧
      (grown nonceDigest forkedActs).find? ⟨Vector.replicate 32 5⟩ = some 4 ∧
      ¬ Abridges ((grown nonceDigest prunedActs).view.tally parentBallot (some 2))
        ((grown nonceDigest forkedActs).view.tally parentBallot (some 4)) := by
  have htallies : ((grown nonceDigest prunedActs).view.tally parentBallot (some 2)).toOption =
        some ⟨2, 2, 2, 1, 0, false⟩ ∧
      ((grown nonceDigest forkedActs).view.tally parentBallot (some 4)).toOption =
        some ⟨2, 2, 2, 1, 1, true⟩ := by
    decide +kernel
  have hblocks : (grown nonceDigest prunedActs).block? 2 =
        some (blockOn (some 1) 5 4 22 0x20000001) ∧
      (grown nonceDigest forkedActs).find? ⟨Vector.replicate 32 5⟩ = some 4 := by
    decide +kernel
  refine ⟨truncates_pruned, hasPast_forked, by decide, by decide, hblocks.1, hblocks.2, ?_⟩
  rw [eq_ok_of_toOption htallies.1, eq_ok_of_toOption htallies.2]
  rintro (⟨tally, h, h'⟩ | ⟨_, h⟩)
  · exact absurd (h.trans h'.symm) (by decide)
  · exact absurd h (by simp)

end BlockTree
end SoftFork
