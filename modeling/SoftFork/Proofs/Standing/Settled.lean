import SoftFork.Standing.Walk
import SoftFork.Proofs.History.Reading

/-!
# Standings without a memory

The walk backwards and forwards is a way of computing a recursion: the standing
after a closing block is what the rules make of the standing after the closing
block before it.  `settled` is that recursion, with no memo and no list of blocks
to be dealt with, and `verdict` is its value for the block that follows `prev`.

## What a memo may hold

A memo is `Faithful` when every entry stands at a closing block and holds what
the recursion gives there.  Nothing is asked about which entries there are; so an
entry may be missing anywhere, and to forget is always allowed
(`Faithful.mono`).

A faithful memo never shows in an answer (`standing_eq_verdict`): the answer is
that of the recursion, the refusals included, and the memo afterwards is faithful
again, also when the question was refused.  A refusal cannot be hidden, because
where the recursion is refused there is no entry to stop the walk.

The clock need not be monotone for any of this.  The early stop belongs to the
recursion itself: an entry above a block where the walk stopped early was worked
out by stopping early there as well.
-/

namespace SoftFork

namespace View

variable (v : View) (clock : Clock) (ballot : Ballot)

/-- The standing after the closing block `id`, below which, itself included, so
many periods are closed. -/
def settled : Nat → BlockId → Except Fault Standing
  | 0, _ => .ok .initial
  | periods + 1, id => do
    if ← v.isQuiet clock ballot id then return .initial
    let b ← v.get id
    if b.height < ballot.period then v.nextStanding clock ballot id .initial
    else
      let earlier ← v.ancestor id (b.height - ballot.period)
      let s ← settled periods earlier
      v.nextStanding clock ballot id s

/-- The standing for the block that follows `prev`. -/
def verdict : Option BlockId → Except Fault Standing
  | none => .ok .initial
  | some id => do
    match ← v.closing ballot.period id with
    | none => return .initial
    | some c =>
      let b ← v.get c
      v.settled clock ballot (b.above / ballot.period) c

/-- `id` is the last block of a period, and so many periods are closed below it,
its own included. -/
def Closes (period : Nat) (id : BlockId) (periods : Nat) : Prop :=
  ∃ past, HasPast v.block? id past ∧ past.Consecutive ∧ 0 < past.next ∧
    past.next = periods * period

end View

/-- Every entry stands at a closing block and holds the standing after it. -/
def Memo.Faithful (v : View) (clock : Clock) (ballot : Ballot) (m : Memo) : Prop :=
  ∀ (id : BlockId) (s : Standing), m[id]? = some s →
    ∃ periods, v.Closes ballot.period id periods ∧ v.settled clock ballot periods id = .ok s

namespace Memo

variable {v : View} {clock : Clock} {ballot : Ballot} {m : Memo}

theorem faithful_empty : Memo.Faithful v clock ballot ∅ := by
  intro id s h
  rw [Std.ExtTreeMap.getElem?_empty] at h
  exact absurd h (by simp)

/-- A memo with fewer entries is faithful as well. -/
theorem Faithful.mono (hm : m.Faithful v clock ballot) {less : Memo}
    (hless : ∀ (id : BlockId) (s : Standing), less[id]? = some s → m[id]? = some s) :
    Memo.Faithful v clock ballot less :=
  fun id s h => hm id s (hless id s h)

theorem Faithful.insert (hm : m.Faithful v clock ballot) {id : BlockId} {s : Standing}
    {periods : Nat} (hid : v.Closes ballot.period id periods)
    (hs : v.settled clock ballot periods id = .ok s) :
    Memo.Faithful v clock ballot (m.insert id s) := by
  intro id' s' h
  rw [Std.ExtTreeMap.getElem?_insert] at h
  split at h
  · next heq =>
    obtain rfl := Std.LawfulEqCmp.compare_eq_iff_eq.mp heq
    obtain rfl := Option.some.inj h
    exact ⟨periods, hid, hs⟩
  · exact hm id' s' h

end Memo

namespace View

variable {v : View} {clock : Clock} {ballot : Ballot} {m : Memo}

/-! ## What a step of the walk does -/

section Step

variable {id : BlockId} {b : Block} {periods : Nat}

theorem settled_of_refused {e : Fault} (hquiet : v.isQuiet clock ballot id = .error e) :
    v.settled clock ballot (periods + 1) id = .error e := by
  rw [settled, hquiet, error_bind]

theorem settled_of_quiet (hquiet : v.isQuiet clock ballot id = .ok true) :
    v.settled clock ballot (periods + 1) id = .ok .initial := by
  rw [settled, hquiet, ok_bind]
  rfl

theorem settled_of_first (hquiet : v.isQuiet clock ballot id = .ok false)
    (hb : v.block? id = some b) (hlt : b.height < ballot.period) :
    v.settled clock ballot (periods + 1) id = v.nextStanding clock ballot id .initial := by
  rw [settled, hquiet, ok_bind, get_eq_ok hb]
  simp only [ok_bind, hlt, if_true, Bool.false_eq_true, if_false]

theorem settled_of_later (hquiet : v.isQuiet clock ballot id = .ok false)
    (hb : v.block? id = some b) (hge : ¬ b.height < ballot.period) :
    v.settled clock ballot (periods + 1) id =
      v.ancestor id (b.height - ballot.period) >>= fun earlier =>
        v.settled clock ballot periods earlier >>= v.nextStanding clock ballot id := by
  rw [settled, hquiet, ok_bind, get_eq_ok hb]
  simp only [ok_bind, hge, if_false, Bool.false_eq_true]

theorem trail_of_entry {s : Standing} (hmem : m[id]? = some s) (pending : List BlockId) :
    v.trail clock ballot m (periods + 1) id pending = .ok ⟨s, pending, none⟩ := by
  rw [trail, hmem]

theorem trail_of_refused (hmem : m[id]? = none) {e : Fault}
    (hquiet : v.isQuiet clock ballot id = .error e) (pending : List BlockId) :
    v.trail clock ballot m (periods + 1) id pending = .error e := by
  rw [trail, hmem, hquiet]
  rfl

theorem trail_of_quiet (hmem : m[id]? = none) (hquiet : v.isQuiet clock ballot id = .ok true)
    (pending : List BlockId) :
    v.trail clock ballot m (periods + 1) id pending = .ok ⟨.initial, pending, some id⟩ := by
  rw [trail, hmem, hquiet]
  rfl

theorem trail_of_first (hmem : m[id]? = none) (hquiet : v.isQuiet clock ballot id = .ok false)
    (hb : v.block? id = some b) (hlt : b.height < ballot.period) (pending : List BlockId) :
    v.trail clock ballot m (periods + 1) id pending = .ok ⟨.initial, id :: pending, none⟩ := by
  rw [trail, hmem, hquiet, get_eq_ok hb]
  simp only [ok_bind, hlt, if_true, Bool.false_eq_true, if_false, pure_eq_ok]

theorem trail_of_later (hmem : m[id]? = none) (hquiet : v.isQuiet clock ballot id = .ok false)
    (hb : v.block? id = some b) (hge : ¬ b.height < ballot.period) (pending : List BlockId) :
    v.trail clock ballot m (periods + 1) id pending =
      v.ancestor id (b.height - ballot.period) >>= fun earlier =>
        v.trail clock ballot m periods earlier (id :: pending) := by
  rw [trail, hmem, hquiet, get_eq_ok hb]
  simp only [ok_bind, hge, if_false, Bool.false_eq_true]

end Step

/-! ## The two parts of the walk together -/

/-- What the walk backwards has left to be done, done. -/
def finish (v : View) (clock : Clock) (ballot : Ballot) (m : Memo) :
    Except Fault Trail → Except Fault Standing × Memo
  | .error e => (.error e, m)
  | .ok t => v.replay clock ballot t.pending t.known (t.remember m)

theorem standing_eq_finish (id : BlockId) :
    v.standing clock ballot (some id) m =
      v.finish clock ballot m (v.trailFrom clock ballot m id) := by
  rw [standing]
  cases v.trailFrom clock ballot m id <;> rfl

/-- One more closing block dealt with. -/
def dealWith (v : View) (clock : Clock) (ballot : Ballot) (id : BlockId) :
    Except Fault Standing × Memo → Except Fault Standing × Memo
  | (.error e, m) => (.error e, m)
  | (.ok s, m) =>
    match v.nextStanding clock ballot id s with
    | .error e => (.error e, m)
    | .ok next => (.ok next, m.insert id next)

theorem replay_snoc (ids : List BlockId) (id : BlockId) : ∀ (s : Standing) (m : Memo),
    v.replay clock ballot (ids ++ [id]) s m =
      v.dealWith clock ballot id (v.replay clock ballot ids s m) := by
  induction ids with
  | nil => exact fun _ _ => rfl
  | cons x ids ih =>
    intro s m
    rw [List.cons_append, replay, replay]
    cases v.nextStanding clock ballot x s with
    | error e => rfl
    | ok next => exact ih next (m.insert x next)

/-- Blocks that were to be dealt with before the walk began are dealt with last. -/
theorem trail_append (periods : Nat) : ∀ (id : BlockId) (pending : List BlockId),
    v.trail clock ballot m periods id pending =
      v.trail clock ballot m periods id [] >>= fun t =>
        .ok { t with pending := t.pending ++ pending } := by
  induction periods with
  | zero => exact fun _ _ => rfl
  | succ periods ih =>
    intro id pending
    rw [trail, trail]
    cases m[id]? with
    | some s => rfl
    | none =>
      cases v.isQuiet clock ballot id with
      | error e => rfl
      | ok quiet =>
        cases quiet with
        | true => rfl
        | false =>
          cases v.get id with
          | error e => rfl
          | ok b =>
            by_cases hlt : b.height < ballot.period
            · simp only [ok_bind, hlt, if_true]
              rfl
            · simp only [ok_bind, hlt, if_false]
              cases v.ancestor id (b.height - ballot.period) with
              | error e => rfl
              | ok earlier =>
                simp only [ok_bind]
                rw [ih earlier (id :: pending), ih earlier [id]]
                cases v.trail clock ballot m periods earlier [] with
                | error e => rfl
                | ok t => simp

/-- A closing block above a walk is dealt with after the walk. -/
theorem finish_trail_singleton (periods : Nat) (earlier id : BlockId) :
    v.finish clock ballot m (v.trail clock ballot m periods earlier [id]) =
      v.dealWith clock ballot id
        (v.finish clock ballot m (v.trail clock ballot m periods earlier [])) := by
  rw [trail_append]
  cases v.trail clock ballot m periods earlier [] with
  | error e => rfl
  | ok t => exact replay_snoc t.pending id t.known (t.remember m)

/-! ## Closing blocks -/

theorem Closes.pos {period : Nat} {id : BlockId} {periods : Nat}
    (h : v.Closes period id periods) : 0 < period := by
  obtain ⟨past, -, -, hpos, hnext⟩ := h
  rw [hnext] at hpos
  exact Nat.pos_of_mul_pos_left hpos

theorem Closes.unique {period : Nat} {id : BlockId} {periods periods' : Nat}
    (h : v.Closes period id periods) (h' : v.Closes period id periods') : periods = periods' := by
  have hpos := h.pos
  obtain ⟨past, hpast, -, -, hnext⟩ := h
  obtain ⟨past', hpast', -, -, hnext'⟩ := h'
  obtain rfl := hpast.unique hpast'
  exact Nat.eq_of_mul_eq_mul_right hpos (hnext.symm.trans hnext')

/-- One period below a closing block the view finds the closing block before it. -/
theorem closes_earlier (hv : v.Climbs) {period : Nat} {id earlier : BlockId} {b : Block}
    {periods : Nat} (hb : v.block? id = some b) (h : v.Closes period id (periods + 1))
    (hge : ¬ b.height < period) (hearlier : v.ancestor id (b.height - period) = .ok earlier) :
    v.Closes period earlier periods := by
  obtain ⟨past, hpast, hcon, hpos, hnext⟩ := h
  have hheight := hpast.height_succ hcon hb hpos
  rw [Nat.succ_mul] at hnext
  have hlt := hv.lt_length hpast hb (Nat.le_of_not_lt hge) hearlier
  obtain ⟨a, ha, htake⟩ := hv.found hpast hb (Nat.le_of_not_lt hge) hlt
  rw [ha] at hearlier
  obtain rfl := Except.ok.inj hearlier
  have hbefore := Past.next_take_sub hlt (show period ≤ past.next by omega)
  exact ⟨_, htake, hcon.take _, by omega, by omega⟩

/-- The closing block that a view finds is one. -/
theorem closes_closing (hv : v.Climbs) {period : Nat} {id c : BlockId} {past : Past}
    (hpast : HasPast v.block? id past) (hcon : past.Consecutive)
    (h : v.closing period id = .ok (some c)) :
    ∃ b, v.block? c = some b ∧ v.Closes period c (b.above / period) := by
  by_cases hzero : period = 0
  · subst hzero
    obtain ⟨b, hb, -⟩ := hpast.exists_block
    rw [closing, get_eq_ok hb, ok_bind, if_neg (Nat.not_lt_zero _), if_pos rfl] at h
    exact absurd h (by simp)
  · have hperiod : 0 < period := Nat.pos_of_ne_zero hzero
    have hclosing := closing_eq hv hpast hcon hperiod
    split at hclosing
    · rw [hclosing] at h
      exact absurd h (by simp)
    · split at hclosing
      · obtain ⟨m, hm⟩ := hclosing
        rw [hm] at h
        exact absurd h (by simp)
      · next hge hlen =>
        obtain ⟨a, ha, htake⟩ := hclosing
        rw [ha] at h
        obtain rfl := Option.some.inj (Except.ok.inj h)
        obtain ⟨e, he, -⟩ := htake.exists_block
        have hnext := Past.next_take_closed (Nat.lt_of_not_le hlen)
        have hdiv : 0 < past.next / period := Nat.div_pos (Nat.le_of_not_lt hge) hperiod
        refine ⟨e, he, _, htake, hcon.take _, ?_, ?_⟩
        · rw [hnext]
          exact Nat.mul_pos hdiv hperiod
        · rw [htake.above_eq (hcon.take _) he, hnext, Nat.mul_div_cancel _ hperiod]

theorem Closes.periods_pos {period : Nat} {id : BlockId} {periods : Nat}
    (h : v.Closes period id periods) : 0 < periods := by
  obtain ⟨past, -, -, hpos, hnext⟩ := h
  rw [hnext] at hpos
  exact Nat.pos_of_mul_pos_right hpos

theorem Closes.exists_block {period : Nat} {id : BlockId} {periods : Nat}
    (h : v.Closes period id periods) : ∃ b, v.block? id = some b := by
  obtain ⟨past, hpast, -⟩ := h
  exact hpast.exists_block.imp fun _ hb => hb.1

theorem Closes.exists_eq_succ {period : Nat} {id : BlockId} {periods : Nat}
    (h : v.Closes period id periods) : ∃ below, periods = below + 1 :=
  Nat.exists_eq_succ_of_ne_zero (Nat.ne_of_gt h.periods_pos)

theorem Closes.height_succ {period : Nat} {id : BlockId} {b : Block} {periods : Nat}
    (h : v.Closes period id periods) (hb : v.block? id = some b) :
    b.height + 1 = periods * period := by
  obtain ⟨past, hpast, hcon, hpos, hnext⟩ := h
  rw [hpast.height_succ hcon hb hpos, hnext]

/-! ## The walk and the replay, one closing block at a time -/

/-- What the walk from a closing block and the replay after it come to.  The walk is not taken
apart from the replay: below a closing block both are done, and then the block is dealt with. -/
inductive WalksTo (v : View) (clock : Clock) (ballot : Ballot) (m : Memo) :
    BlockId → Except Fault Standing × Memo → Prop where
  /-- The standing is remembered. -/
  | entry {id : BlockId} {s : Standing} (hmem : m[id]? = some s) :
    WalksTo v clock ballot m id (.ok s, m)
  /-- The clock cannot be read. -/
  | refused {id : BlockId} {e : Fault} (hmem : m[id]? = none)
    (hquiet : v.isQuiet clock ballot id = .error e) : WalksTo v clock ballot m id (.error e, m)
  /-- The clock has not reached the start time. -/
  | quiet {id : BlockId} (hmem : m[id]? = none) (hquiet : v.isQuiet clock ballot id = .ok true) :
    WalksTo v clock ballot m id (.ok .initial, m.insert id .initial)
  /-- No period is closed below. -/
  | first {id : BlockId} {b : Block} (hmem : m[id]? = none)
    (hquiet : v.isQuiet clock ballot id = .ok false) (hb : v.block? id = some b)
    (hlt : b.height < ballot.period) :
    WalksTo v clock ballot m id (v.dealWith clock ballot id (.ok .initial, m))
  /-- The closing block below is not stored. -/
  | lost {id : BlockId} {b : Block} {e : Fault} (hmem : m[id]? = none)
    (hquiet : v.isQuiet clock ballot id = .ok false) (hb : v.block? id = some b)
    (hge : ¬ b.height < ballot.period)
    (hearlier : v.ancestor id (b.height - ballot.period) = .error e) :
    WalksTo v clock ballot m id (.error e, m)
  /-- There is a closing block below. -/
  | later {id earlier : BlockId} {b : Block} {r : Except Fault Standing × Memo}
    (hmem : m[id]? = none) (hquiet : v.isQuiet clock ballot id = .ok false)
    (hb : v.block? id = some b) (hge : ¬ b.height < ballot.period)
    (hearlier : v.ancestor id (b.height - ballot.period) = .ok earlier)
    (hbelow : WalksTo v clock ballot m earlier r) :
    WalksTo v clock ballot m id (v.dealWith clock ballot id r)

/-- The number of closed periods is never what ends the walk. -/
theorem walksTo_finish (hv : v.Climbs) (periods : Nat) : ∀ {id : BlockId},
    v.Closes ballot.period id periods →
      v.WalksTo clock ballot m id
        (v.finish clock ballot m (v.trail clock ballot m periods id [])) := by
  induction periods with
  | zero => exact fun hid => absurd hid.periods_pos (Nat.lt_irrefl 0)
  | succ periods ih =>
    intro id hid
    cases hmem : m[id]? with
    | some s =>
      rw [trail_of_entry hmem]
      exact .entry hmem
    | none =>
      cases hquiet : v.isQuiet clock ballot id with
      | error e =>
        rw [trail_of_refused hmem hquiet]
        exact .refused hmem hquiet
      | ok quiet =>
        cases quiet with
        | true =>
          rw [trail_of_quiet hmem hquiet]
          exact .quiet hmem hquiet
        | false =>
          obtain ⟨b, hb⟩ := hid.exists_block
          by_cases hlt : b.height < ballot.period
          · rw [trail_of_first hmem hquiet hb hlt]
            exact .first hmem hquiet hb hlt
          · rw [trail_of_later hmem hquiet hb hlt]
            cases hearlier : v.ancestor id (b.height - ballot.period) with
            | error e => exact .lost hmem hquiet hb hlt hearlier
            | ok earlier =>
              rw [ok_bind, finish_trail_singleton]
              exact .later hmem hquiet hb hlt hearlier
                (ih (closes_earlier hv hb hid hlt hearlier))

/-! ## Faithful memos do not show -/

/-- Dealing with a closing block keeps an answer right and a memo faithful. -/
theorem dealWith_spec {id : BlockId} {periods : Nat} {before : Except Fault Standing × Memo}
    {r : Except Fault Standing} (hid : v.Closes ballot.period id periods)
    (hbefore : before.1 = r) (hm : before.2.Faithful v clock ballot)
    (hsettled : v.settled clock ballot periods id = r >>= v.nextStanding clock ballot id) :
    (v.dealWith clock ballot id before).1 = v.settled clock ballot periods id ∧
      (v.dealWith clock ballot id before).2.Faithful v clock ballot := by
  obtain ⟨r', m⟩ := before
  obtain rfl : r' = r := hbefore
  cases r' with
  | error e => exact ⟨hsettled.symm, hm⟩
  | ok s =>
    rw [ok_bind] at hsettled
    rw [dealWith]
    cases hnext : v.nextStanding clock ballot id s with
    | error e => exact ⟨(hsettled.trans hnext).symm, hm⟩
    | ok next => exact ⟨(hsettled.trans hnext).symm, hm.insert hid (hsettled.trans hnext)⟩

/-- The walk from a closing block computes the recursion, and remembers only what
is right. -/
theorem WalksTo.settled (hv : v.Climbs) (hm : m.Faithful v clock ballot) {id : BlockId}
    {r : Except Fault Standing × Memo} (h : v.WalksTo clock ballot m id r) :
    ∀ {periods : Nat}, v.Closes ballot.period id periods →
      r.1 = v.settled clock ballot periods id ∧ r.2.Faithful v clock ballot := by
  induction h with
  | @entry id s hmem =>
    intro periods hid
    obtain ⟨periods', hid', hs⟩ := hm id s hmem
    obtain rfl := hid'.unique hid
    exact ⟨hs.symm, hm⟩
  | refused _ hquiet =>
    intro periods hid
    obtain ⟨below, rfl⟩ := hid.exists_eq_succ
    exact ⟨(settled_of_refused hquiet).symm, hm⟩
  | quiet _ hquiet =>
    intro periods hid
    obtain ⟨below, rfl⟩ := hid.exists_eq_succ
    exact ⟨(settled_of_quiet hquiet).symm, hm.insert hid (settled_of_quiet hquiet)⟩
  | first _ hquiet hb hlt =>
    intro periods hid
    obtain ⟨below, rfl⟩ := hid.exists_eq_succ
    exact dealWith_spec hid rfl hm (settled_of_first hquiet hb hlt)
  | @lost id _ _ _ hquiet hb hge hearlier =>
    intro periods hid
    obtain ⟨below, rfl⟩ := hid.exists_eq_succ
    have hsettled : v.settled clock ballot (below + 1) id = _ := settled_of_later hquiet hb hge
    rw [hearlier] at hsettled
    exact ⟨hsettled.symm, hm⟩
  | @later id _ _ _ _ hquiet hb hge hearlier _ ih =>
    intro periods hid
    obtain ⟨below, rfl⟩ := hid.exists_eq_succ
    have hsettled : v.settled clock ballot (below + 1) id = _ := settled_of_later hquiet hb hge
    rw [hearlier, ok_bind] at hsettled
    obtain ⟨hanswer, hmemo⟩ := ih (closes_earlier hv hb hid hge hearlier)
    exact dealWith_spec hid hanswer hmemo hsettled

/-- At a block with a past the answer is the verdict, whatever a faithful memo holds,
and the memo stays faithful. -/
theorem standing_eq_verdict_of_hasPast (hv : v.Climbs) {id : BlockId} {past : Past}
    (hpast : HasPast v.block? id past) (hcon : past.Consecutive)
    (hm : m.Faithful v clock ballot) :
    (v.standing clock ballot (some id) m).1 = v.verdict clock ballot (some id) ∧
      (v.standing clock ballot (some id) m).2.Faithful v clock ballot := by
  rw [standing_eq_finish, trailFrom, verdict]
  cases hclosing : v.closing ballot.period id with
  | error e => exact ⟨rfl, hm⟩
  | ok c? =>
    cases c? with
    | none => exact ⟨rfl, hm⟩
    | some c =>
      obtain ⟨b, hb, hcloses⟩ := closes_closing hv hpast hcon hclosing
      simp only [ok_bind, get_eq_ok hb]
      exact (walksTo_finish hv _ hcloses).settled hv hm hcloses

/-- No period is closed below a block that is not stored. -/
theorem closing_eq_error {id : BlockId} (hid : v.block? id = none) (period : Nat) :
    v.closing period id = .error (.unknownBlock id) := by
  rw [closing, get_eq_error hid, error_bind]

/-- The walk from a block is the walk from the closing block found below it. -/
theorem exists_trail (hv : v.Lawful) {id c : BlockId}
    (hclosing : v.closing ballot.period id = .ok (some c)) :
    ∃ periods, v.Closes ballot.period c periods ∧
      ∀ (clock : Clock) (m : Memo),
        v.trailFrom clock ballot m id = v.trail clock ballot m periods c [] := by
  cases hid : v.block? id with
  | none =>
    rw [closing_eq_error hid] at hclosing
    exact absurd hclosing (by simp)
  | some q =>
    obtain ⟨past, hpast, hcon⟩ := hv.past hid
    obtain ⟨b, hb, hcloses⟩ := closes_closing hv.toClimbs hpast hcon hclosing
    refine ⟨_, hcloses, fun clock m => ?_⟩
    rw [trailFrom, hclosing]
    simp only [ok_bind, get_eq_ok hb]

/-- Where every stored block has a past, that holds of every question. -/
theorem standing_eq_verdict (hv : v.Lawful) (hm : m.Faithful v clock ballot)
    (prev : Option BlockId) :
    (v.standing clock ballot prev m).1 = v.verdict clock ballot prev ∧
      (v.standing clock ballot prev m).2.Faithful v clock ballot := by
  obtain rfl | ⟨id, rfl, hid⟩ | ⟨id, past, rfl, hpast, hcon⟩ := hv.tip_cases prev
  · exact ⟨rfl, hm⟩
  · rw [standing, trailFrom, verdict, closing_eq_error hid]
    exact ⟨rfl, hm⟩
  · exact standing_eq_verdict_of_hasPast hv.toClimbs hpast hcon hm

end View
end SoftFork
