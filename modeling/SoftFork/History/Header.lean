import SoftFork.Digest.Sha256
import SoftFork.History.Hash
import SoftFork.Signal.Version

/-!
# Block headers

A header is eighty bytes on the wire, and a block's hash is the double SHA-256
of those bytes.  So a hash commits to everything the wire form carries, and to
nothing else.

The time is kept in sixty-four bits while the wire has room for thirty-two.  The
wire form drops the rest; storing a block whose time does not fit is refused
elsewhere, and with that refusal a hash determines the whole header.
-/

namespace SoftFork

/-- The fields of a block header. -/
structure Header where
  version : UInt32
  parent : BlockHash
  merkleRoot : Vector UInt8 32
  time : UInt64
  bits : UInt32
  nonce : UInt32
  deriving DecidableEq

namespace Header

/-- A word as four bytes, the least significant first. -/
def wordBytes (x : UInt32) : List UInt8 :=
  [x.toUInt8, (x >>> 8).toUInt8, (x >>> 16).toUInt8, (x >>> 24).toUInt8]

/-- The eighty bytes of a header. -/
def wire (h : Header) : List UInt8 :=
  wordBytes h.version ++ h.parent.bytes.toList ++ h.merkleRoot.toList
    ++ wordBytes h.time.toUInt32 ++ wordBytes h.bits ++ wordBytes h.nonce

/-- The hash that names the block with this header. -/
def hash (h : Header) : BlockHash :=
  ⟨Sha256.digest (Sha256.digest h.wire).toList⟩

/-- Whether the time fits the wire form. -/
def timeFits (h : Header) : Bool :=
  h.time ≤ 0xFFFFFFFF

end Header
end SoftFork
