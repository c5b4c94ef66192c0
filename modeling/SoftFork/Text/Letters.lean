/-!
# Letter case

Names of networks and clock rules are read without regard to the case of their
letters, and that means ASCII letters: a name spelled with other letters is a
different name, whatever its capital forms may look like.
-/

namespace SoftFork
namespace Text

/-- The lower-case form of an ASCII capital; every other character is kept. -/
def lowerLetter (c : Char) : Char :=
  if 'A' ≤ c && c ≤ 'Z' then Char.ofNat (c.toNat + 32) else c

/-- Text with its ASCII capitals made small. -/
def lower (s : List Char) : List Char :=
  s.map lowerLetter

end Text
end SoftFork
