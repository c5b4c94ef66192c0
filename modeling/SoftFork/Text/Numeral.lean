/-!
# Decimal numerals

Two readers of numbers meet in this library: settings written by people, where
a plus sign and leading zeros are welcome, and JSON, whose own grammar decides
what a number looks like.  Both come down to the value of a run of decimal
digits, which is what this module fixes; the sign and the limit of the settings
form are added on top in `readNumeral`.

Only the ASCII digits count.  Other scripts' digits are letters here, as they
are to every node that reads the same file.
-/

namespace SoftFork
namespace Text

/-- The ten ASCII digits. -/
def isDigit (c : Char) : Bool :=
  '0' ≤ c && c ≤ '9'

/-- What one digit is worth; meaningful for digits only. -/
def digitValue (c : Char) : Nat :=
  c.toNat - '0'.toNat

/-- The value of a run of digits, most significant first. -/
def digitsValue (s : List Char) : Nat :=
  s.foldl (fun n c => 10 * n + digitValue c) 0

/-- The digits of a number, most significant first and without leading zeros. -/
def numeral (n : Nat) : List Char :=
  Nat.toDigits 10 n

/-- Text that is a nonempty run of digits, as a number. -/
def readDigits (s : List Char) : Option Nat :=
  if s.isEmpty || !s.all isDigit then none else some (digitsValue s)

/-- A number of at most `limit`, written with digits after an optional plus
sign.  Anything else, blanks included, is no number. -/
def readNumeral (limit : Nat) (s : List Char) : Option Nat := do
  let n ← readDigits (match s with
    | '+' :: r => r
    | r => r)
  if n ≤ limit then some n else none

end Text
end SoftFork
