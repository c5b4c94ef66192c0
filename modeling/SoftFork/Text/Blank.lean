/-!
# Blank characters and trimmed text

Operators type network names, numbers and override entries by hand and paste
them from other documents, so every reader of settings looks at its text only
after the blanks around it are gone.  "Blank" is the Unicode property
`White_Space`: twenty-five code points, far more than the four of ASCII, and a
no-break space in front of a number must not make the number unreadable.

Blanks inside the text stay; `trim` works at the two ends only.
-/

namespace SoftFork
namespace Text

/-- The code points that carry the property `White_Space`. -/
def isBlank (c : Char) : Bool :=
  let n := c.toNat
  (0x09 ≤ n && n ≤ 0x0D) || n == 0x20 || n == 0x85 || n == 0xA0 || n == 0x1680
    || (0x2000 ≤ n && n ≤ 0x200A) || n == 0x2028 || n == 0x2029 || n == 0x202F
    || n == 0x205F || n == 0x3000

/-- The blanks at the front are gone. -/
def trimFront (s : List Char) : List Char :=
  s.dropWhile isBlank

/-- The blanks at both ends are gone; those between other characters stay. -/
def trim (s : List Char) : List Char :=
  (trimFront (trimFront s).reverse).reverse

/-- Text without blanks at its ends is its own trimmed form. -/
theorem trim_eq_self {s : List Char} (hfront : ∀ c ∈ s.head?, isBlank c = false)
    (hback : ∀ c ∈ s.getLast?, isBlank c = false) : trim s = s := by
  have hf : trimFront s = s := by
    cases s with
    | nil => rfl
    | cons c r => simp [trimFront, hfront c rfl]
  have hb : trimFront s.reverse = s.reverse := by
    cases hs : s.reverse with
    | nil => rfl
    | cons c r =>
      have hc : isBlank c = false := hback c (by
        rw [← List.head?_reverse, hs]
        rfl)
      simp [trimFront, hc]
  rw [trim, hf, hb, List.reverse_reverse]

end Text
end SoftFork
