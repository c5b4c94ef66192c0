import Mathlib.Data.List.Permutation
import SoftFork.Proofs.History.Growth
import SoftFork.Proofs.Standing.OnPast
import SoftFork.Proofs.Standing.Truncated

/-!
# A refused question leaves the memo alone

A question is answered in two parts.  The walk backwards reads history until it has met a
standing that is known, and writes nothing.  The replay works upwards from there; it reads
history as well, a clock and perhaps the votes of a period at each closing block, and it
writes an entry after each.  If such a reading could be refused, the entries written before
it would stay behind.

It cannot (`Ready.replay`).  To come through a closing block the walk has read the clock
there, or the clock is one that can always be read.  To go on to the closing block one period
below it has found a block there, so that the votes of the whole period can be counted.  The
only closing block for which that does not follow is the lowest one that is left to be dealt
with, when no closing block is below it.  The standing there is the one at genesis, whose
phase lets no votes count.

So all refusals come from the walk (`BlockTree.refusal_leaves_memo`).  Nothing is asked of the
memo.  It may have lost entries, so that the walk has to go on where it once stopped, and it
may hold entries that no question has put there.
-/

namespace SoftFork
namespace View

variable {v : View} {clock : Clock} {ballot : Ballot} {m : Memo}

/-- What the rules may read at a closing block can be read there, if the period it closes was
in this phase: the block, its clock and, where votes count, the votes of the period. -/
structure Readable (v : View) (clock : Clock) (ballot : Ballot) (id : BlockId) (phase : Phase) :
    Prop where
  block : ∃ b, v.get id = .ok b
  clock : ∃ time, v.clockTime clock id = .ok time
  votes : phase = .started → ∃ count, v.countWhere ballot.votes ballot.period id = .ok count

/-- Closing blocks are ready to be dealt with, starting in this phase.  The phase at the first
of them is known; the phases at the others are not, before the rules have been applied. -/
def Ready (v : View) (clock : Clock) (ballot : Ballot) (phase : Phase) : List BlockId → Prop
  | [] => True
  | id :: rest => v.Readable clock ballot id phase ∧
      ∀ c ∈ rest, ∀ later, v.Readable clock ballot c later

/-! ## What the rules read -/

/-- Where the clock is legible a closing block can be dealt with.  In the phase in which
votes count that takes a whole period of blocks besides. -/
theorem readable_of_hasPast {id : BlockId} {past : Past} (h : HasPast v.block? id past)
    (hlegible : past.Legible clock) {phase : Phase}
    (hvotes : phase = .started → ballot.period ≤ past.length) :
    v.Readable clock ballot id phase := by
  obtain ⟨b, hb, -⟩ := h.exists_block
  have hclock := clockTime_tells h clock
  rw [Past.clockTime?, if_pos hlegible] at hclock
  refine ⟨⟨b, get_eq_ok hb⟩, ⟨_, hclock⟩, fun hphase => ?_⟩
  have hcount := countWhere_tells h ballot.votes ballot.period
  rw [Past.countVotes?, if_pos (hvotes hphase)] at hcount
  exact ⟨_, hcount⟩

/-- The rules do not fail where all that they may read can be read. -/
theorem Readable.exists_nextStanding {id : BlockId} {s : Standing}
    (h : v.Readable clock ballot id s.phase) :
    ∃ next, v.nextStanding clock ballot id s = .ok next := by
  obtain ⟨⟨b, hb⟩, ⟨time, htime⟩, hvotes⟩ := h
  have hphase : ∃ phase, v.nextPhase clock ballot id s.phase = .ok phase := by
    cases hs : s.phase with
    | defined =>
      rw [nextPhase, htime]
      exact ⟨_, rfl⟩
    | started =>
      obtain ⟨count, hcount⟩ := hvotes hs
      rw [nextPhase, htime, ok_bind]
      split
      · exact ⟨_, rfl⟩
      · rw [hcount]
        exact ⟨_, rfl⟩
    | lockedIn =>
      rw [nextPhase, hb]
      exact ⟨_, rfl⟩
    | active => exact ⟨_, rfl⟩
    | failed => exact ⟨_, rfl⟩
  obtain ⟨phase, hphase⟩ := hphase
  rw [nextStanding, hb, ok_bind, hphase]
  exact ⟨_, rfl⟩

/-! ## What the walk leaves to be done -/

/-- A closing block on top that can be dealt with in every phase. -/
theorem Ready.snoc {phase : Phase} {ids : List BlockId} {id : BlockId}
    (h : v.Ready clock ballot phase ids) (hid : ∀ later, v.Readable clock ballot id later) :
    v.Ready clock ballot phase (ids ++ [id]) := by
  cases ids with
  | nil => exact ⟨hid phase, fun c hc => absurd hc List.not_mem_nil⟩
  | cons first rest =>
    refine ⟨h.1, fun c hc => ?_⟩
    rcases List.mem_append.mp hc with hrest | hlast
    · exact h.2 c hrest
    · rw [List.mem_singleton.mp hlast]
      exact hid

/-- The first of some closing blocks can be dealt with without the others. -/
theorem Ready.of_append {phase : Phase} {before after : List BlockId}
    (h : v.Ready clock ballot phase (before ++ after)) : v.Ready clock ballot phase before := by
  cases before with
  | nil => exact trivial
  | cons first rest => exact ⟨h.1, fun c hc => h.2 c (List.mem_append_left after hc)⟩

/-- Where the walk has come through a closing block, the clock can be read. -/
theorem legible_of_isQuiet {id : BlockId} {past : Past} (h : HasPast v.block? id past)
    {quiet : Bool} (hquiet : v.isQuiet clock ballot id = .ok quiet) : past.Legible clock := by
  cases clock with
  | blockTime => exact trivial
  | medianTimePast =>
    have hread := (isQuiet_tells h).eq_some hquiet
    rw [Past.isQuiet?, if_pos (show Clock.medianTimePast.isMonotone = true from rfl),
      Past.clockTime?] at hread
    split at hread
    · assumption
    · exact absurd hread (by simp)

/-- How the walk comes to its end.  It leaves nothing to be done when it stops at the closing
block; otherwise it leaves that block, on top of what the walk from the closing block below
leaves, if there is one. -/
theorem trail_succ_eq_ok {periods : Nat} {id : BlockId} {b : Block} (hb : v.block? id = some b)
    {t : Trail} (ht : v.trail clock ballot m (periods + 1) id [] = .ok t) :
    t.pending = [] ∨ v.isQuiet clock ballot id = .ok false ∧
      (b.height < ballot.period ∧ t = ⟨.initial, [id], none⟩ ∨
        ¬ b.height < ballot.period ∧ ∃ earlier below,
          v.ancestor id (b.height - ballot.period) = .ok earlier ∧
            v.trail clock ballot m periods earlier [] = .ok below ∧
              t = { below with pending := below.pending ++ [id] }) := by
  cases hmem : m[id]? with
  | some s =>
    rw [trail_of_entry hmem] at ht
    exact Or.inl (congrArg Trail.pending (Except.ok.inj ht).symm)
  | none =>
    cases hquiet : v.isQuiet clock ballot id with
    | error e =>
      rw [trail_of_refused hmem hquiet] at ht
      exact absurd ht (by simp)
    | ok quiet =>
      cases quiet with
      | true =>
        rw [trail_of_quiet hmem hquiet] at ht
        exact Or.inl (congrArg Trail.pending (Except.ok.inj ht).symm)
      | false =>
        refine Or.inr ⟨rfl, ?_⟩
        by_cases hlt : b.height < ballot.period
        · rw [trail_of_first hmem hquiet hb hlt] at ht
          exact Or.inl ⟨hlt, (Except.ok.inj ht).symm⟩
        · rw [trail_of_later hmem hquiet hb hlt] at ht
          cases hearlier : v.ancestor id (b.height - ballot.period) with
          | error e =>
            rw [hearlier, error_bind] at ht
            exact absurd ht (by simp)
          | ok earlier =>
            rw [hearlier, ok_bind, trail_append] at ht
            cases hbelow : v.trail clock ballot m periods earlier [] with
            | error e =>
              rw [hbelow, error_bind] at ht
              exact absurd ht (by simp)
            | ok below =>
              rw [hbelow, ok_bind] at ht
              exact Or.inr ⟨hlt, earlier, below, rfl, hbelow, (Except.ok.inj ht).symm⟩

/-- What the walk leaves to be done can be done: by induction on the periods, from the lowest
closing block that it has reached upwards. -/
theorem ready_of_trail (hv : v.Climbs) (periods : Nat) : ∀ {id : BlockId} {t : Trail},
    v.Closes ballot.period id periods → v.trail clock ballot m periods id [] = .ok t →
    v.Ready clock ballot t.known.phase t.pending := by
  induction periods with
  | zero =>
    intro id t _ ht
    obtain rfl := Except.ok.inj ht
    exact trivial
  | succ periods ih =>
    intro id t hid ht
    have hcloses := hid
    obtain ⟨past, hpast, hcon, -⟩ := hcloses
    obtain ⟨b, hb, -⟩ := hpast.exists_block
    rcases trail_succ_eq_ok hb ht with
      hnone | ⟨hquiet, ⟨-, rfl⟩ | ⟨hge, earlier, below, hearlier, hbelow, rfl⟩⟩
    · rw [hnone]
      exact trivial
    · -- at genesis no votes count
      have hphase : Standing.initial.phase ≠ .started := by decide
      exact ⟨readable_of_hasPast hpast (legible_of_isQuiet hpast hquiet) fun h => absurd h hphase,
        fun c hc => absurd hc List.not_mem_nil⟩
    · have hperiod := hv.lt_length hpast hb (Nat.le_of_not_lt hge) hearlier
      exact (ih (closes_earlier hv hb hid hge hearlier) hbelow).snoc fun _ =>
        readable_of_hasPast hpast (legible_of_isQuiet hpast hquiet) fun _ => Nat.le_of_lt hperiod

/-- Where the walk has come to its end, all that it leaves can be done. -/
theorem ready_of_trailFrom (hv : v.Lawful) {id : BlockId} {t : Trail}
    (ht : v.trailFrom clock ballot m id = .ok t) :
    v.Ready clock ballot t.known.phase t.pending := by
  cases hclosing : v.closing ballot.period id with
  | error e =>
    rw [trailFrom, hclosing, error_bind] at ht
    exact absurd ht (by simp)
  | ok c? =>
    cases c? with
    | none =>
      rw [trailFrom, hclosing, ok_bind] at ht
      obtain rfl := Except.ok.inj ht
      exact trivial
    | some c =>
      obtain ⟨periods, hcloses, htrail⟩ := exists_trail hv hclosing
      rw [htrail] at ht
      exact ready_of_trail hv.toClimbs periods hcloses ht

/-! ## The replay -/

/-- Closing blocks that are ready are dealt with, all of them. -/
theorem Ready.replay {ids : List BlockId} : ∀ {s : Standing} (m : Memo),
    v.Ready clock ballot s.phase ids →
      ∃ s' m', v.replay clock ballot ids s m = (.ok s', m') := by
  induction ids with
  | nil => exact fun m _ => ⟨_, m, rfl⟩
  | cons id rest ih =>
    intro s m h
    obtain ⟨next, hnext⟩ := h.1.exists_nextStanding
    have hrest : v.Ready clock ballot next.phase rest := by
      cases rest with
      | nil => exact trivial
      | cons second others =>
        exact ⟨h.2 second List.mem_cons_self next.phase,
          fun c hc => h.2 c (List.mem_cons_of_mem second hc)⟩
    rw [View.replay, hnext]
    exact ih (m.insert id next) hrest

/-- When a replay gets to a closing block, everything that the rules may read there in the
phase it has got to can be read. -/
theorem Ready.readable {before after : List BlockId} {c : BlockId} {s s' : Standing}
    {m m' : Memo} (h : v.Ready clock ballot s.phase (before ++ c :: after))
    (hbefore : v.replay clock ballot before s m = (.ok s', m')) :
    v.Readable clock ballot c s'.phase := by
  cases before with
  | nil =>
    obtain rfl : s = s' := Except.ok.inj (congrArg Prod.fst hbefore)
    exact h.1
  | cons first rest =>
    exact h.2 c (List.mem_append_right rest List.mem_cons_self) s'.phase

/-- A question is refused by the walk or not at all. -/
theorem standing_refused (hv : v.Lawful) {prev : Option BlockId} {e : Fault}
    (h : (v.standing clock ballot prev m).1 = .error e) :
    (v.standing clock ballot prev m).2 = m ∧
      ∃ id, prev = some id ∧ v.trailFrom clock ballot m id = .error e := by
  cases prev with
  | none => exact absurd h (by simp [standing])
  | some id =>
    rw [standing_eq_finish] at h ⊢
    cases ht : v.trailFrom clock ballot m id with
    | error e' =>
      rw [ht] at h
      obtain rfl := Except.error.inj h
      exact ⟨rfl, id, rfl, ht⟩
    | ok t =>
      obtain ⟨s, m', hreplay⟩ := (ready_of_trailFrom hv ht).replay (t.remember m)
      rw [ht, finish, hreplay] at h
      exact absurd h (by simp)

end View

namespace BlockTree

/-- In every tree that has grown, whatever a memo holds: when a question is refused the memo
is what it was, and the refusal is that of the walk backwards.  When the walk has come to its
end, the question is answered, and at each closing block that is then dealt with, after the
ones below it, the block, its clock and, if votes count there, the votes of its period can
all be read. -/
theorem refusal_leaves_memo (digest : Header → BlockHash) (acts : List Act) (clock : Clock)
    (ballot : Ballot) (prev : Option BlockId) (m : Memo) :
    (∀ e, ((grown digest acts).view.standing clock ballot prev m).1 = .error e →
      ((grown digest acts).view.standing clock ballot prev m).2 = m ∧
        ∃ id, prev = some id ∧
          (grown digest acts).view.trailFrom clock ballot m id = .error e) ∧
      ∀ id t, prev = some id → (grown digest acts).view.trailFrom clock ballot m id = .ok t →
        (∃ s, ((grown digest acts).view.standing clock ballot prev m).1 = .ok s) ∧
          ∀ before c after, t.pending = before ++ c :: after → ∃ s m',
            (grown digest acts).view.replay clock ballot before t.known (t.remember m) =
                (.ok s, m') ∧
              (grown digest acts).view.Readable clock ballot c s.phase := by
  have hv := (sound_grown digest acts).lawful_view
  constructor
  · exact fun e h => View.standing_refused hv h
  · rintro id t rfl ht
    have hready := View.ready_of_trailFrom hv ht
    constructor
    · obtain ⟨s, m', hreplay⟩ := hready.replay (t.remember m)
      rw [View.standing_eq_finish, ht, View.finish, hreplay]
      exact ⟨s, rfl⟩
    · intro before c after hsplit
      rw [hsplit] at hready
      obtain ⟨s, m', hbefore⟩ := hready.of_append.replay (t.remember m)
      exact ⟨s, m', hbefore, hready.readable hbefore⟩

/-- Above a block without history.  With an entry at a block the walk does not come to, it
ends in the missing history, and the entry is all there is afterwards.  With an entry on its
way two closing blocks are left to be dealt with, and both can be. -/
theorem refusal_pruned :
    ((grown nonceDigest prunedActs).view.standing .blockTime pairBallot (some 3)
        (Memo.empty.insert 5 ⟨.active, 8⟩)).2 = Memo.empty.insert 5 ⟨.active, 8⟩ ∧
      ∃ s m', (grown nonceDigest prunedActs).view.replay .blockTime pairBallot [3]
            ⟨.started, 4⟩ prunedMemo = (.ok s, m') ∧
        (grown nonceDigest prunedActs).view.Readable .blockTime pairBallot 5 s.phase := by
  constructor
  · have hrefused : ((grown nonceDigest prunedActs).view.standing .blockTime pairBallot (some 3)
        (Memo.empty.insert 5 ⟨.active, 8⟩)).1 = .error (.historyMissing 1) := by
      cbv
    exact ((refusal_leaves_memo nonceDigest prunedActs .blockTime pairBallot (some 3)
      (Memo.empty.insert 5 ⟨.active, 8⟩)).1 _ hrefused).1
  · have hwalk : (grown nonceDigest prunedActs).view.trailFrom .blockTime pairBallot prunedMemo 5 =
        .ok ⟨⟨.started, 4⟩, [3, 5], none⟩ := by
      cbv
    exact ((refusal_leaves_memo nonceDigest prunedActs .blockTime pairBallot (some 5)
      prunedMemo).2 5 _ rfl hwalk).2 [3] 5 [] rfl

end BlockTree
end SoftFork
