/-!
# The median of recent times

The clock of last resort: of the latest eleven times the one in the middle.  The
times may come in any order, and only the list's last eleven count.  When their
number is even there are two in the middle and the later one is taken; nothing
is averaged, so the result is always one of the times.
-/

namespace SoftFork
namespace MedianTime

/-- How many times count. -/
def span : Nat := 11

/-- The last `span` times of a list. -/
def recent (times : List Nat) : List Nat :=
  times.drop (times.length - span)

/-- The upper median of the last `span` times; zero when there are none. -/
def median (times : List Nat) : Nat :=
  let sorted := (recent times).mergeSort
  sorted.getD (sorted.length / 2) 0

theorem length_recent (times : List Nat) : (recent times).length = min times.length span := by
  rw [recent, List.length_drop]
  omega

/-- The median of a nonempty list is one of the times that count. -/
theorem median_mem {times : List Nat} (h : times ≠ []) : median times ∈ recent times := by
  have hlen : 0 < (recent times).mergeSort.length := by
    have hpos : 0 < times.length := List.length_pos_iff.mpr h
    rw [List.length_mergeSort, length_recent, span]
    omega
  have hlt : (recent times).mergeSort.length / 2 < (recent times).mergeSort.length :=
    Nat.div_lt_self hlen (by decide)
  have hget : median times = (recent times).mergeSort[(recent times).mergeSort.length / 2] := by
    simp only [median, List.getD_eq_getElem?_getD, List.getElem?_eq_getElem hlt, Option.getD_some]
  rw [hget]
  exact List.mem_mergeSort.mp (List.getElem_mem hlt)

end MedianTime
end SoftFork
