import Std.Data.ExtTreeMap
import SoftFork.History.View
import SoftFork.Signal.Phase

/-!
# Remembered standings

The standing after a period depends on the block that closes it and on nothing
else, so it can be remembered under that block's number and never has to be
corrected.  A `Memo` is what is remembered for one ballot.

Numbers belong to blocks and not to heights.  Two branches that close the same
period close it with different blocks, and their memories cannot mix.
-/

namespace SoftFork

/-- The standings remembered for one ballot, by the block that closes the
period. -/
abbrev Memo := Std.ExtTreeMap BlockId Standing

namespace Memo

/-- Nothing remembered. -/
def empty : Memo := ∅

/-- The memo restricted to the blocks that pass a test. -/
def keep (m : Memo) (test : BlockId → Bool) : Memo :=
  m.filter fun id _ => test id

end Memo
end SoftFork
