/-!
# Hexadecimal text

Hashes and headers are shown as hexadecimal digits, two to a byte and in lower
case.  Reading accepts both cases, because hashes are copied from many places,
and insists on whole bytes.
-/

namespace SoftFork
namespace Text

/-- The digit for a value below sixteen. -/
def hexDigit (n : Nat) : Char :=
  if n < 10 then Char.ofNat ('0'.toNat + n) else Char.ofNat ('a'.toNat + (n - 10))

/-- What a hexadecimal digit of either case is worth. -/
def hexValue (c : Char) : Option Nat :=
  if '0' ≤ c ∧ c ≤ '9' then some (c.toNat - '0'.toNat)
  else if 'a' ≤ c ∧ c ≤ 'f' then some (c.toNat - 'a'.toNat + 10)
  else if 'A' ≤ c ∧ c ≤ 'F' then some (c.toNat - 'A'.toNat + 10)
  else none

/-- Two digits for a byte, the high half first. -/
def hexByte (b : UInt8) : List Char :=
  [hexDigit (b.toNat / 16), hexDigit (b.toNat % 16)]

/-- Bytes as hexadecimal text, in the order given. -/
def hex (bytes : List UInt8) : List Char :=
  bytes.flatMap hexByte

/-- The bytes that hexadecimal text stands for; a digit left over at the end or
any other character makes the text unreadable. -/
def readHex : List Char → Option (List UInt8)
  | [] => some []
  | [_] => none
  | a :: b :: rest => do
    let high ← hexValue a
    let low ← hexValue b
    let bytes ← readHex rest
    return UInt8.ofNat (16 * high + low) :: bytes

end Text
end SoftFork
