/-!
# The version field as a ballot paper

A block's version is a word of thirty-two bits.  Its top three bits say whether
the other twenty-nine are votes: they are votes exactly when the top reads
`001`.  An old block whose version happens to be `5` has the lowest bit set and
has voted for nothing, which is why every reader of a vote looks at the top
first.
-/

namespace SoftFork
namespace Version

/-- The top three bits of a version whose other bits are votes. -/
def topBits : UInt32 := 0x20000000

/-- Selects the top three bits. -/
def topMask : UInt32 := 0xE0000000

/-- How many bits can be voted with: those numbered 0 to 28. -/
def bitCount : Nat := 29

/-- The last version number that was used as a plain number. -/
def lastPlain : UInt32 := 4

/-- The version with one bit set. -/
def mask (bit : UInt8) : UInt32 :=
  1 <<< bit.toUInt32

/-- Whether the bits of a version are votes. -/
def isBallot (version : UInt32) : Bool :=
  version &&& topMask == topBits

/-- Whether a version votes with the given bit. -/
def signals (version : UInt32) (bit : UInt8) : Bool :=
  isBallot version && (version >>> bit.toUInt32) &&& 1 == 1

/-- Whether a version carries a bit that was not expected in it.  Plain version
numbers carry no bits at all. -/
def isUnexpected (version expected : UInt32) : Bool :=
  lastPlain < version && version &&& ~~~expected != 0

end Version
end SoftFork
