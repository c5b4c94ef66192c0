import SoftFork.Signal.Tally
import SoftFork.Proofs.History.MedianOrder
import SoftFork.Proofs.History.Past

/-!
# What is read off a past

Every reader of history follows the links on its own and stops on its own
conditions.  Here each of them is given a second reading, as a function of the
past alone, and is shown to tell the same.

The functions come in pairs.  `clockTime` and `countVotes` are total and say what
is meant; `clockTime?` and `countVotes?` say in addition when history suffices.
A median needs its full window, or a past that goes down to genesis.  A count
needs as many blocks as are counted.  When they are not there, the view refuses
for lack of history, which is what `Tells` makes of `none`.

A past that goes down to genesis is one whose oldest block stands at height zero.
`Rooted` says besides that its heights have not been used up, so that each block
stands as high as its place in the past.  A store whose numbers have no more than
sixty-four bits cannot hold a past from genesis that is longer
(`BlockTree.Sound.rooted_iff`).
-/

namespace SoftFork

namespace Past

/-- The times of a past, the oldest first. -/
def times (past : Past) : List Nat :=
  past.map Block.time

/-- The past goes down to genesis, and each of its blocks stands as high as its place says. -/
def Rooted (past : Past) : Prop :=
  base past = 0 ∧ past.length < UInt64.size

instance (past : Past) : Decidable (Rooted past) :=
  inferInstanceAs (Decidable (_ ∧ _))

/-- What a clock shows at the last block. -/
def clockTime (past : Past) : Clock → Nat
  | .blockTime => (times past).getLastD 0
  | .medianTimePast => MedianTime.median (times past)

/-- A clock can be read at the last block. -/
def Legible (past : Past) : Clock → Prop
  | .blockTime => True
  | .medianTimePast => MedianTime.span ≤ past.length ∨ base past = 0

instance (past : Past) (clock : Clock) : Decidable (Legible past clock) :=
  match clock with
  | .blockTime => inferInstanceAs (Decidable True)
  | .medianTimePast => inferInstanceAs (Decidable (_ ∨ _))

/-- What a clock shows at the last block, when history suffices to read it. -/
def clockTime? (past : Past) (clock : Clock) : Option Nat :=
  if Legible past clock then some (clockTime past clock) else none

/-- The votes among the last blocks, so many of them. -/
def countVotes (past : Past) (votes : Block → Bool) (blocks : Nat) : Nat :=
  (past.drop (past.length - blocks)).countP votes

/-- The votes among the last blocks, when there are so many. -/
def countVotes? (past : Past) (votes : Block → Bool) (blocks : Nat) : Option Nat :=
  if blocks ≤ past.length then some (countVotes past votes blocks) else none

/-- The tally of the period that the next block belongs to, when its blocks are
there. -/
def tally? (past : Past) (ballot : Ballot) : Option Tally :=
  (countVotes? past ballot.votes (next past % ballot.period)).map fun count =>
    Tally.of (next past / ballot.period) ballot.period ballot.threshold
      (next past % ballot.period) count

theorem times_append (past more : Past) : times (past ++ more) = times past ++ times more :=
  List.map_append

theorem rooted_nil : Rooted [] :=
  ⟨rfl, by decide⟩

theorem Rooted.take {past : Past} (h : Rooted past) (k : Nat) : Rooted (past.take k) := by
  rcases Nat.eq_zero_or_pos k with rfl | hk
  · exact rooted_nil
  · refine ⟨by rw [base_take hk, h.1], ?_⟩
    rw [List.length_take]
    exact Nat.lt_of_le_of_lt (Nat.min_le_right _ _) h.2

theorem Rooted.of_append {past more : Past} (h : Rooted (past ++ more)) : Rooted past := by
  have htake := h.take past.length
  rwa [List.take_left] at htake

theorem Rooted.next {past : Past} (h : Rooted past) : next past = past.length := by
  rw [Past.next, h.1, Nat.zero_add, Nat.mod_eq_of_lt h.2]

/-- The first blocks of a rooted past, numbered by their heights. -/
theorem Rooted.next_take {past : Past} (h : Rooted past) {k : Nat} (hk : k ≤ past.length) :
    Past.next (past.take k) = k := by
  rw [(h.take k).next, List.length_take, Nat.min_eq_left hk]

theorem Rooted.legible {past : Past} (h : Rooted past) (clock : Clock) : Legible past clock := by
  cases clock with
  | blockTime => exact trivial
  | medianTimePast => exact Or.inr h.1

theorem countVotes_zero (past : Past) (votes : Block → Bool) : countVotes past votes 0 = 0 := by
  rw [countVotes, Nat.sub_zero, List.drop_length, List.countP_nil]

/-- Counting one block more is counting the last block and the others before it. -/
theorem countVotes_snoc (past : Past) (b : Block) (votes : Block → Bool) (blocks : Nat) :
    countVotes (past ++ [b]) votes (blocks + 1) =
      (if votes b then 1 else 0) + countVotes past votes blocks := by
  rw [countVotes, countVotes, List.length_append, List.length_singleton,
    show past.length + 1 - (blocks + 1) = past.length - blocks by omega,
    List.drop_append_of_le_length (by omega), List.countP_append, List.countP_singleton,
    Nat.add_comm]

/-- When all of the last blocks vote their votes are as many as they are. -/
theorem countVotes_eq_of_forall {past : Past} {votes : Block → Bool} {blocks : Nat}
    (hle : blocks ≤ past.length)
    (h : ∀ k (hk : k < past.length), past.length - blocks ≤ k → votes past[k] = true) :
    countVotes past votes blocks = blocks := by
  have hall : ∀ b ∈ past.drop (past.length - blocks), votes b = true := by
    intro b hb
    obtain ⟨i, hi, rfl⟩ := List.getElem_of_mem hb
    rw [List.getElem_drop]
    exact h _ _ (Nat.le_add_right _ _)
  rw [countVotes, List.countP_eq_length.mpr hall, List.length_drop]
  omega

theorem countVotes?_zero (past : Past) (votes : Block → Bool) :
    countVotes? past votes 0 = some 0 := by
  rw [countVotes?, if_pos (Nat.zero_le _), countVotes_zero]

theorem countVotes?_snoc (past : Past) (b : Block) (votes : Block → Bool) (blocks : Nat) :
    countVotes? (past ++ [b]) votes (blocks + 1) =
      (countVotes? past votes blocks).map fun count =>
        (if votes b then 1 else 0) + count := by
  have hlen : (past ++ [b]).length = past.length + 1 := by
    rw [List.length_append, List.length_singleton]
  rw [countVotes?, countVotes?, countVotes_snoc, hlen]
  by_cases h : blocks ≤ past.length
  · rw [if_pos h, if_pos (Nat.succ_le_succ h), Option.map_some]
  · rw [if_neg h, if_neg (mt Nat.le_of_succ_le_succ h), Option.map_none]

end Past

/-- A block with a rooted past stands as high as blocks lie below it. -/
theorem HasPast.height_of_rooted {block? : BlockId → Option Block} {id : BlockId} {past : Past}
    {b : Block} (h : HasPast block? id past) (hcon : past.Consecutive) (hroot : past.Rooted)
    (hb : block? id = some b) : b.height + 1 = past.length := by
  have hpos : 0 < past.next := by
    rw [hroot.next]
    exact h.length_pos
  rw [h.height_succ hcon hb hpos, hroot.next]

namespace View

variable {v : View} {id : BlockId} {past : Past}

/-! ## Clocks -/

theorem timesBack_one {b : Block} (hb : v.block? id = some b) :
    v.timesBack 1 id = .ok [b.time] := by
  rw [timesBack, get_eq_ok hb, ok_bind, if_pos rfl, pure_eq_ok]

theorem timesBack_of_parent {p : BlockId} {b : Block} (hb : v.block? id = some b)
    (hparent : b.parent = some p) (count : Nat) :
    v.timesBack (count + 2) id = v.timesBack (count + 1) p >>= fun times =>
      .ok (b.time :: times) := by
  rw [timesBack, get_eq_ok hb, ok_bind, if_neg (Nat.succ_ne_zero count), hparent]
  rfl

theorem timesBack_of_oldest {b : Block} (hb : v.block? id = some b) (hparent : b.parent = none)
    (count : Nat) : v.timesBack (count + 2) id =
      if b.height = 0 then .ok [b.time] else .error (.historyMissing (b.height - 1)) := by
  rw [timesBack, get_eq_ok hb, ok_bind, if_neg (Nat.succ_ne_zero count), hparent]
  rfl

/-- The times that are collected are the latest ones. -/
theorem timesBack_tells (h : HasPast v.block? id past) (count : Nat) :
    Tells (v.timesBack count id)
      (if count ≤ past.length ∨ past.base = 0 then some (past.times.reverse.take count)
        else none) := by
  induction h generalizing count with
  | @oldest id b hb hparent =>
    match count with
    | 0 => exact Tells.of_ok []
    | 1 =>
      rw [timesBack_one hb]
      exact Tells.of_ok [b.time]
    | count + 2 =>
      rw [timesBack_of_oldest hb hparent, show Past.base [b] = b.height from rfl]
      by_cases hroot : b.height = 0
      · rw [if_pos hroot, if_pos (Or.inr hroot)]
        exact Tells.of_ok [b.time]
      · rw [if_neg hroot, if_neg]
        · exact Tells.of_missing _
        · rintro (hlen | hbase)
          · rw [List.length_singleton] at hlen
            omega
          · exact hroot hbase
  | @later id p b past hb hparent hpast ih =>
    match count with
    | 0 => exact Tells.of_ok []
    | 1 =>
      rw [timesBack_one hb, if_pos (Or.inl (by simp)), Past.times_append, List.reverse_append]
      exact Tells.of_ok [b.time]
    | count + 2 =>
      have hmore := (ih (count + 1)).map fun times => b.time :: times
      have hlen : (past ++ [b]).length = past.length + 1 := by
        rw [List.length_append, List.length_singleton]
      rw [timesBack_of_parent hb hparent, Past.times_append, List.reverse_append, hlen,
        Past.base_append hpast.ne_nil]
      by_cases hle : count + 1 ≤ past.length ∨ past.base = 0
      · rw [if_pos hle] at hmore
        rw [if_pos (hle.imp_left Nat.succ_le_succ)]
        exact hmore
      · rw [if_neg hle] at hmore
        rw [if_neg (mt (Or.imp_left Nat.le_of_succ_le_succ) hle)]
        exact hmore

/-- A clock shows what it shows on the past. -/
theorem clockTime_tells (h : HasPast v.block? id past) (clock : Clock) :
    Tells (v.clockTime clock id) (past.clockTime? clock) := by
  cases clock with
  | blockTime =>
    obtain ⟨b, hb, hlast⟩ := h.exists_block
    rw [clockTime, get_eq_ok hb, ok_bind, Past.clockTime?,
      if_pos (show past.Legible .blockTime from trivial), Past.clockTime, Past.times,
      List.getLastD_eq_getLast?, List.getLast?_map, hlast]
    exact Tells.of_ok b.time
  | medianTimePast =>
    have htimes := (timesBack_tells h MedianTime.span).map MedianTime.median
    have hmedian : v.clockTime .medianTimePast id =
        (v.timesBack MedianTime.span id >>= fun times => .ok (MedianTime.median times)) := rfl
    rw [hmedian, Past.clockTime?]
    split at htimes
    · next hle =>
      rw [Option.map_some, MedianTime.median_take_reverse] at htimes
      rw [if_pos (show past.Legible .medianTimePast from hle)]
      exact htimes
    · next hle =>
      rw [if_neg (show ¬ past.Legible .medianTimePast from hle)]
      exact htimes

/-! ## Votes -/

theorem countWhere_one {b : Block} (hb : v.block? id = some b) (meets : Block → Bool) :
    v.countWhere meets 1 id = .ok (if meets b then 1 else 0) := by
  rw [countWhere, get_eq_ok hb, ok_bind]
  rfl

theorem countWhere_of_parent {p : BlockId} {b : Block} (hb : v.block? id = some b)
    (hparent : b.parent = some p) (meets : Block → Bool) (blocks : Nat) :
    v.countWhere meets (blocks + 2) id = v.countWhere meets (blocks + 1) p >>= fun count =>
      .ok ((if meets b then 1 else 0) + count) := by
  rw [countWhere, get_eq_ok hb, ok_bind]
  simp only [Nat.succ_ne_zero, if_false, hparent]
  rfl

theorem countWhere_of_oldest {b : Block} (hb : v.block? id = some b) (hparent : b.parent = none)
    (meets : Block → Bool) (blocks : Nat) :
    v.countWhere meets (blocks + 2) id = .error (.historyMissing (b.height - 1)) := by
  rw [countWhere, get_eq_ok hb, ok_bind]
  simp only [Nat.succ_ne_zero, if_false, hparent]

/-- Votes are counted in the last blocks of the past. -/
theorem countWhere_tells (h : HasPast v.block? id past) (votes : Block → Bool) (blocks : Nat) :
    Tells (v.countWhere votes blocks id) (past.countVotes? votes blocks) := by
  induction h generalizing blocks with
  | @oldest id b hb hparent =>
    match blocks with
    | 0 => exact Tells.of_ok 0
    | 1 =>
      rw [countWhere_one hb, ← List.nil_append [b], Past.countVotes?_snoc,
        Past.countVotes?_zero]
      exact Tells.of_ok _
    | blocks + 2 =>
      rw [countWhere_of_oldest hb hparent, Past.countVotes?, if_neg (by simp)]
      exact Tells.of_missing _
  | @later id p b past hb hparent hpast ih =>
    match blocks with
    | 0 =>
      rw [Past.countVotes?_zero]
      exact Tells.of_ok 0
    | 1 =>
      rw [countWhere_one hb, Past.countVotes?_snoc, Past.countVotes?_zero]
      exact Tells.of_ok _
    | blocks + 2 =>
      rw [countWhere_of_parent hb hparent, Past.countVotes?_snoc]
      exact (ih (blocks + 1)).map _

/-- A tally is that of the past. -/
theorem tally_tells (h : HasPast v.block? id past) (hcon : past.Consecutive) (ballot : Ballot)
    (hperiod : 0 < ballot.period) : Tells (v.tally ballot (some id)) (past.tally? ballot) := by
  obtain ⟨b, hb, -⟩ := h.exists_block
  rw [tally, get_eq_ok hb, ok_bind, if_neg (by omega), h.above_eq hcon hb]
  exact (countWhere_tells h ballot.votes _).map _

/-! ## Periods -/

/-- The closing block of the latest closed period has the part of the past up to
it, when history goes back as far. -/
theorem closing_eq (hv : v.Climbs) (h : HasPast v.block? id past) (hcon : past.Consecutive)
    {period : Nat} (hperiod : 0 < period) :
    if past.next < period then v.closing period id = .ok none
    else if past.length ≤ past.next % period then
      ∃ m, v.closing period id = .error (.historyMissing m)
    else ∃ a, v.closing period id = .ok (some a) ∧
      HasPast v.block? a (past.take (past.length - past.next % period)) := by
  obtain ⟨b, hb, -⟩ := h.exists_block
  have habove := h.above_eq hcon hb
  by_cases hlt : past.next < period
  · rw [if_pos hlt, closing, get_eq_ok hb, ok_bind, habove, if_pos hlt]
    rfl
  · have hheight := h.height_succ hcon hb (by omega)
    have hmod := Nat.mod_lt past.next hperiod
    rw [if_neg hlt, closing, get_eq_ok hb, ok_bind, habove, if_neg hlt,
      if_neg (Nat.ne_of_gt hperiod)]
    by_cases hlen : past.length ≤ past.next % period
    · rw [if_pos hlen]
      obtain ⟨m, hm⟩ := hv.missing h hb (by omega) hlen
      exact ⟨m, by rw [hm, error_bind]⟩
    · rw [if_neg hlen]
      obtain ⟨a, ha, hpast⟩ := hv.found h hb (by omega) (Nat.lt_of_not_le hlen)
      exact ⟨a, by rw [ha, ok_bind, pure_eq_ok], hpast⟩

end View
end SoftFork
