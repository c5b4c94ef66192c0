import SoftFork.History.MedianTime

/-!
# The median by counting

Sorting hides what the median has to do with the times it is taken from.  The
median lies below a bound exactly when more than half of the recent times do
(`median_lt_iff`), and a number is determined by the bounds above it.  So the
median does not depend on the order of the recent times (`median_eq_of_perm`).

## Why the clock cannot run backwards

Let a block be no earlier than the median before it.  Its time is then not among
the times below that median, and at most an older one of these has dropped out of
the window.  The window itself has not become shorter.  So there are still not
enough times below the old median to bring the new one there
(`median_le_median_append`).  The window is the same on both sides of the
argument, and nothing is special about the first blocks of a chain, where it is
still growing and the upper of two middle times is taken.
-/

namespace SoftFork
namespace MedianTime

@[simp] theorem median_nil : median [] = 0 := by
  simp [median, recent]

/-- In a sorted list the entry at a position lies below a bound exactly when the
entries below the bound reach beyond that position. -/
theorem getElem_lt_iff_lt_countP {l : List Nat} (h : l.Pairwise (· ≤ ·)) {j : Nat}
    (hj : j < l.length) (bound : Nat) : l[j] < bound ↔ j < l.countP (· < bound) := by
  induction l generalizing j with
  | nil => exact absurd hj (Nat.not_lt_zero j)
  | cons x l ih =>
    have hx : ∀ y ∈ l, x ≤ y := fun y hy => List.rel_of_pairwise_cons h hy
    rw [List.countP_cons]
    by_cases hlt : x < bound
    · rw [if_pos (decide_eq_true hlt)]
      cases j with
      | zero =>
        rw [List.getElem_cons_zero]
        exact ⟨fun _ => Nat.succ_pos _, fun _ => hlt⟩
      | succ j =>
        rw [List.getElem_cons_succ, ih h.of_cons (Nat.lt_of_succ_lt_succ hj)]
        omega
    · -- nothing after an entry that is not below the bound is below it
      have hzero : l.countP (· < bound) = 0 := by
        refine List.countP_eq_zero.mpr fun y hy => ?_
        have hxy := hx y hy
        simp only [decide_eq_true_eq]
        omega
      have hge : x ≤ (x :: l)[j] := by
        rcases List.mem_cons.mp (List.getElem_mem hj) with heq | hmem
        · exact Nat.le_of_eq heq.symm
        · exact hx _ hmem
      rw [if_neg (by simpa using hlt), hzero]
      omega

/-- The median lies below a bound exactly when more than half of the recent times
do. -/
theorem median_lt_iff {times : List Nat} (h : times ≠ []) (bound : Nat) :
    median times < bound ↔ (recent times).length / 2 < (recent times).countP (· < bound) := by
  have hsorted : (recent times).mergeSort.Pairwise (· ≤ ·) := by
    have htrans : ∀ a b c : Nat, decide (a ≤ b) = true → decide (b ≤ c) = true →
        decide (a ≤ c) = true := by
      intro a b c hab hbc
      exact decide_eq_true (Nat.le_trans (of_decide_eq_true hab) (of_decide_eq_true hbc))
    have htotal : ∀ a b : Nat, (decide (a ≤ b) || decide (b ≤ a)) = true := by
      intro a b
      rw [Bool.or_eq_true, decide_eq_true_eq, decide_eq_true_eq]
      exact Nat.le_total a b
    exact (List.pairwise_mergeSort htrans htotal _).imp of_decide_eq_true
  have hpos : 0 < (recent times).mergeSort.length := by
    have hlen : 0 < times.length := List.length_pos_iff.mpr h
    rw [List.length_mergeSort, length_recent, span]
    omega
  have hlt : (recent times).mergeSort.length / 2 < (recent times).mergeSort.length :=
    Nat.div_lt_self hpos (by decide)
  have hget : median times = (recent times).mergeSort[(recent times).mergeSort.length / 2] := by
    simp only [median, List.getD_eq_getElem?_getD, List.getElem?_eq_getElem hlt, Option.getD_some]
  rw [hget, getElem_lt_iff_lt_countP hsorted hlt, List.length_mergeSort,
    (List.mergeSort_perm _ _).countP_eq]

/-- The order of the recent times does not matter. -/
theorem median_eq_of_perm {times times' : List Nat} (h : (recent times).Perm (recent times')) :
    median times = median times' := by
  by_cases hnil : times = []
  · subst hnil
    have hlen := h.length_eq
    rw [length_recent, length_recent, span] at hlen
    have hnil' : times' = [] := by
      apply List.length_eq_zero_iff.mp
      rw [List.length_nil] at hlen
      omega
    rw [hnil']
  · have hnil' : times' ≠ [] := by
      rintro rfl
      have hlen := h.length_eq
      have hpos := List.length_pos_iff.mpr hnil
      rw [length_recent, length_recent, span, List.length_nil] at hlen
      omega
    have hiff : ∀ bound, median times < bound ↔ median times' < bound := by
      intro bound
      rw [median_lt_iff hnil, median_lt_iff hnil', h.length_eq, h.countP_eq]
    have hle := (hiff (median times' + 1)).mpr (Nat.lt_succ_self _)
    have hge := (hiff (median times + 1)).mp (Nat.lt_succ_self _)
    omega

/-- The latest times, in either order, have the median of all. -/
theorem median_take_reverse (times : List Nat) :
    median (times.reverse.take span) = median times := by
  apply median_eq_of_perm
  have hshort : recent (times.reverse.take span) = times.reverse.take span := by
    rw [recent, List.length_take, show min span times.reverse.length - span = 0 by omega,
      List.drop_zero]
  rw [hshort, recent, List.take_reverse]
  exact List.reverse_perm _

/-- A time that is no earlier than the median does not bring the median down. -/
theorem median_le_median_append {times : List Nat} (h : times ≠ []) {time : Nat}
    (htime : median times ≤ time) : median times ≤ median (times ++ [time]) := by
  refine Nat.le_of_not_lt fun hlt => ?_
  have hbelow := (median_lt_iff (by simp) _).mp hlt
  have hself := mt (median_lt_iff h (median times)).mpr (Nat.lt_irrefl _)
  -- the new window is the end of the old one with the new time behind it
  have hrecent : recent (times ++ [time]) = times.drop (times.length + 1 - span) ++ [time] := by
    rw [recent, List.length_append, List.length_singleton,
      List.drop_append_of_le_length (by rw [span]; omega)]
  have hsub : (times.drop (times.length + 1 - span)).Sublist (recent times) := by
    have hdrop : times.drop (times.length + 1 - span) =
        (recent times).drop (times.length + 1 - span - (times.length - span)) := by
      rw [recent, List.drop_drop]
      congr 1
      omega
    rw [hdrop]
    exact List.drop_sublist _ _
  have hcount : (recent (times ++ [time])).countP (· < median times) ≤
      (recent times).countP (· < median times) := by
    rw [hrecent, List.countP_append, List.countP_singleton,
      if_neg (by simpa using htime)]
    exact hsub.countP_le
  rw [length_recent] at hbelow hself
  rw [List.length_append, List.length_singleton] at hbelow
  omega

end MedianTime
end SoftFork
