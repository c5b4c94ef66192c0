import SoftFork.Proofs.History.Growth
import SoftFork.Proofs.History.Reading

/-!
# The median as a clock

The median of the last eleven times is used as a clock because it does not run backwards.
That is not a property of medians.  It rests on one rule, that a block is later than the
median up to its parent, and then one block cannot bring the median down
(`Past.clockTime_le_append`).  Nothing is said about the times themselves, which may go back
and forth within the window.

The rule can be put in two ways.  On a past it is `Timely`: each block is later than the
median of those before it.  In a tree it is said of blocks and their parents, and only where
the parent's median can be read at all, since above a block without history the first windows
are not complete.  A past of which that is true is `LegiblyTimely`, and it is timely if it goes
down to genesis.  Where the median can be read once it can be read from there on, and along the
links it only rises (`BlockTree.medianTimePast_mono`).
-/

namespace SoftFork

namespace Past

variable {past : Past}

/-- Each block is later than the median of the times before it. -/
def Timely (past : Past) : Prop :=
  ∀ k (h : k < past.length), 0 < k →
    clockTime (past.take k) .medianTimePast < past[k].time

theorem times_take_ne_nil {k : Nat} (hk : 0 < k) (hlt : k < past.length) :
    times (past.take k) ≠ [] := by
  refine List.ne_nil_of_length_pos ?_
  rw [times, List.length_map, List.length_take]
  omega

/-- Each block is later than the median of the times before it, where that can be read. -/
def LegiblyTimely (past : Past) : Prop :=
  ∀ k (h : k < past.length), 0 < k → Legible (past.take k) .medianTimePast →
    clockTime (past.take k) .medianTimePast < past[k].time

/-- Whether a past is timely can be found out by counting. -/
theorem timely_iff : Timely past ↔ ∀ k (h : k < past.length), 0 < k →
    (MedianTime.recent (times (past.take k))).length / 2 <
      (MedianTime.recent (times (past.take k))).countP (· < past[k].time) := by
  constructor
  · intro h k hlt hk
    exact (MedianTime.median_lt_iff (times_take_ne_nil hk hlt) _).mp (h k hlt hk)
  · intro h k hlt hk
    exact (MedianTime.median_lt_iff (times_take_ne_nil hk hlt) _).mpr (h k hlt hk)

instance (past : Past) : Decidable (Timely past) :=
  decidable_of_iff _ timely_iff.symm

/-- A clock shows no more than the latest of the times. -/
theorem clockTime_lt {bound : Nat} (hbound : 0 < bound) (h : ∀ m ∈ past, m.time < bound)
    (clock : Clock) : clockTime past clock < bound := by
  have htimes : ∀ time ∈ times past, time < bound := List.forall_mem_map.mpr h
  cases clock with
  | blockTime =>
    rcases List.mem_cons.mp (List.getLastD_mem_cons : (times past).getLastD 0 ∈ _) with hzero | hmem
    · rw [clockTime, hzero]
      exact hbound
    · exact htimes _ hmem
  | medianTimePast =>
    rw [clockTime]
    by_cases hne : times past = []
    · rw [hne, MedianTime.median_nil]
      exact hbound
    · exact htimes _ (List.mem_of_mem_drop (MedianTime.median_mem hne))

/-! ## One block more -/

/-- A block that is no earlier than the median before it does not bring the median down. -/
theorem clockTime_le_append (hne : past ≠ []) {b : Block}
    (htime : clockTime past .medianTimePast ≤ b.time) :
    clockTime past .medianTimePast ≤ clockTime (past ++ [b]) .medianTimePast := by
  have htimes : times past ≠ [] := by rwa [times, ne_eq, List.map_eq_nil_iff]
  rw [clockTime, clockTime, times_append]
  exact MedianTime.median_le_median_append htimes htime

/-- From a place on above which each block is later than the median before it, the median does
not run backwards. -/
theorem clockTime_mono_of_lt {j k : Nat} (hj : 0 < j) (hjk : j ≤ k) (hk : k ≤ past.length)
    (h : ∀ i (hi : i < past.length), j ≤ i →
      clockTime (past.take i) .medianTimePast < past[i].time) :
    clockTime (past.take j) .medianTimePast ≤ clockTime (past.take k) .medianTimePast := by
  obtain ⟨d, rfl⟩ := Nat.exists_eq_add_of_le hjk
  clear hjk
  induction d with
  | zero => exact Nat.le_refl _
  | succ d ih =>
    have hlt : j + d < past.length := by omega
    have hne : past.take (j + d) ≠ [] := by
      refine List.ne_nil_of_length_pos ?_
      rw [List.length_take]
      omega
    have hstep := clockTime_le_append hne (Nat.le_of_lt (h (j + d) hlt (Nat.le_add_right j d)))
    rw [← List.take_succ_eq_append_getElem hlt] at hstep
    exact Nat.le_trans (ih (by omega)) hstep

/-- Up a timely past the median does not run backwards. -/
theorem clockTime_mono (h : Timely past) {j k : Nat} (hj : 0 < j) (hjk : j ≤ k)
    (hk : k ≤ past.length) :
    clockTime (past.take j) .medianTimePast ≤ clockTime (past.take k) .medianTimePast :=
  clockTime_mono_of_lt hj hjk hk fun i hi hji => h i hi (Nat.lt_of_lt_of_le hj hji)

/-- A window that is complete, or goes down to genesis, stays so. -/
theorem Legible.append {clock : Clock} (h : Legible past clock) (hne : past ≠ []) (b : Block) :
    Legible (past ++ [b]) clock := by
  cases clock with
  | blockTime => exact trivial
  | medianTimePast =>
    refine h.imp (fun hlen => ?_) (fun hbase => by rwa [base_append hne])
    rw [List.length_append]
    omega

/-- Up a past that is timely where the median can be read, it does not run backwards. -/
theorem LegiblyTimely.clockTime_mono (h : LegiblyTimely past) {j k : Nat} (hj : 0 < j)
    (hleg : Legible (past.take j) .medianTimePast) (hjk : j ≤ k) (hk : k ≤ past.length) :
    clockTime (past.take j) .medianTimePast ≤ clockTime (past.take k) .medianTimePast := by
  refine clockTime_mono_of_lt hj hjk hk fun i hi hji => h i hi (by omega) ?_
  refine hleg.imp (fun hlen => ?_) fun hbase => ?_
  · rw [List.length_take] at hlen ⊢
    omega
  · rw [base_take hj] at hbase
    rw [base_take (by omega), hbase]

end Past

/-! ## Along the links -/

variable {v : View} {id p : BlockId} {past : Past}

/-- Where a median can be read it is that of the past. -/
theorem HasPast.medianTimePast_eq_ok_iff (h : HasPast v.block? id past) {m : Nat} :
    v.medianTimePast id = .ok m ↔
      past.Legible .medianTimePast ∧ past.clockTime .medianTimePast = m := by
  have htells : Tells (v.medianTimePast id) _ := View.clockTime_tells h .medianTimePast
  rw [Past.clockTime?] at htells
  split at htells
  · next hleg =>
    rw [htells, Except.ok.injEq]
    exact ⟨fun hm => ⟨hleg, hm⟩, And.right⟩
  · next hleg =>
    obtain ⟨height, hmissing⟩ := htells
    rw [hmissing]
    exact ⟨fun hm => absurd hm (by simp), fun hm => absurd hm.1 hleg⟩

/-- A block that is no earlier than the median up to its parent has a median, and that is no
earlier either. -/
theorem HasPast.medianTimePast_of_parent (h : HasPast v.block? p past) {b : Block}
    (hb : v.block? id = some b) (hparent : b.parent = some p) {m : Nat}
    (hm : v.medianTimePast p = .ok m) (hle : m ≤ b.time) :
    ∃ m', v.medianTimePast id = .ok m' ∧ m ≤ m' := by
  obtain ⟨hleg, rfl⟩ := h.medianTimePast_eq_ok_iff.mp hm
  have hid : HasPast v.block? id (past ++ [b]) := .later hb hparent h
  exact ⟨_, hid.medianTimePast_eq_ok_iff.mpr ⟨hleg.append h.ne_nil _, rfl⟩,
    Past.clockTime_le_append h.ne_nil hle⟩

/-- On a timely past the blocks obey the rule. -/
theorem HasPast.lt_of_timely (h : HasPast v.block? id past) (htimely : past.Timely)
    {c : BlockId} {b : Block} (hc : StandsOn v.block? id c) (hb : v.block? c = some b)
    (hparent : b.parent = some p) {m : Nat} (hm : v.medianTimePast p = .ok m) : m < b.time := by
  obtain ⟨k, hk, hle, hpast⟩ := hc.hasPast h
  have hp := hpast.parent hb hparent
  have hpos := hp.length_pos
  rw [List.length_take, List.length_take] at hpos
  rw [List.length_take, List.take_take, show min (min k past.length - 1) k = k - 1 by omega] at hp
  obtain ⟨b', hb', hlast⟩ := hpast.exists_block
  rw [hb] at hb'
  obtain rfl := Option.some.inj hb'
  rw [List.getLast?_take, if_neg (by omega), List.getElem?_eq_getElem (by omega)] at hlast
  have htime : past[k - 1].time = b.time := congrArg Block.time (Option.some.inj hlast)
  obtain ⟨-, rfl⟩ := hp.medianTimePast_eq_ok_iff.mp hm
  rw [← htime]
  exact htimely (k - 1) (by omega) (by omega)

namespace BlockTree

/-- In every tree that has grown.  When a block is later than the median up to its parent, its
own median is there and is not below that one.  When all the blocks that one stands on are
later than the medians up to their parents, wherever these can be read, then a median that can
be read at one of them is not above the median of the block on top.  The window may have any
length that it has on the way up from genesis. -/
theorem medianTimePast_mono (digest : Header → BlockHash) (acts : List Act) :
    (∀ (c p : BlockId) (b : Block) (m : Nat), (grown digest acts).block? c = some b →
      b.parent = some p → (grown digest acts).view.medianTimePast p = .ok m → m < b.time →
      ∃ m', (grown digest acts).view.medianTimePast c = .ok m' ∧ m ≤ m') ∧
    ∀ d a : BlockId, StandsOn (grown digest acts).block? d a →
      (∀ (c p : BlockId) (b : Block) (n : Nat), StandsOn (grown digest acts).block? d c →
        (grown digest acts).block? c = some b → b.parent = some p →
        (grown digest acts).view.medianTimePast p = .ok n → n < b.time) →
      ∀ m, (grown digest acts).view.medianTimePast a = .ok m →
        ∃ m', (grown digest acts).view.medianTimePast d = .ok m' ∧ m ≤ m' := by
  have ht := sound_grown digest acts
  have hstep : ∀ (c p : BlockId) (b : Block) (m : Nat), (grown digest acts).block? c = some b →
      b.parent = some p → (grown digest acts).view.medianTimePast p = .ok m → m < b.time →
      ∃ m', (grown digest acts).view.medianTimePast c = .ok m' ∧ m ≤ m' := by
    intro c p b m hb hparent hm hlt
    obtain ⟨-, q, hq, -⟩ := ht.parent hb hparent
    obtain ⟨past, hpast⟩ := ht.exists_past hq
    exact HasPast.medianTimePast_of_parent hpast hb hparent hm (Nat.le_of_lt hlt)
  refine ⟨hstep, fun d a ha hrule => ?_⟩
  -- downwards from `d`, one parent at a time
  induction ha with
  | self => exact fun m hm => ⟨m, hm, Nat.le_refl m⟩
  | @parent c a b hc hb hparent ih =>
    intro m hm
    obtain ⟨n, hn, hle⟩ := hstep c a b m hb hparent hm (hrule c a b m hc hb hparent hm)
    obtain ⟨m', hm', hle'⟩ := ih n hn
    exact ⟨m', hm', Nat.le_trans hle hle'⟩

/-- In the forked tree, from the second block of the row to the last, while the window grows from
two times to eight and the times run backwards once. -/
theorem medianTimePast_forked :
    (grown nonceDigest forkedActs).view.medianTimePast 1 = .ok 20 ∧
      ∃ m, (grown nonceDigest forkedActs).view.medianTimePast 7 = .ok m ∧ 20 ≤ m := by
  have hstart : HasPast (grown nonceDigest forkedActs).view.block? 1 (forkedPast.take 2) := by
    show HasPast (grown nonceDigest forkedActs).block? 1 _
    decide +kernel
  have hclimb : (grown nonceDigest forkedActs).plainView.climb 6 7 = .ok 1 := by
    refine eq_ok_of_toOption ?_
    decide +kernel
  have hmedian : (grown nonceDigest forkedActs).view.medianTimePast 1 = .ok 20 :=
    hstart.medianTimePast_eq_ok_iff.mpr ⟨by decide, by
      simp [forkedPast, blockOn, Past.clockTime, Past.times, MedianTime.median, MedianTime.recent,
        MedianTime.span, List.mergeSort]⟩
  have hrow : HasPast (grown nonceDigest forkedActs).view.block? 7 forkedPast := hasPast_forked
  exact ⟨hmedian, (medianTimePast_mono nonceDigest forkedActs).2 7 1
    (View.standsOn_of_climb 6 hclimb)
    (fun c p b n hc hb hparent hn =>
      hrow.lt_of_timely (by decide +kernel) hc hb hparent hn) 20 hmedian⟩

end BlockTree
end SoftFork
