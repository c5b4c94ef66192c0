import SoftFork.Text.Hex

/-!
# Block hashes

A block is named by thirty-two bytes.  They are stored in the order in which
they are computed and sent, and shown the other way round, so that the zeros a
proof of work produces stand in front.

Hashes are ordered byte by byte.  The order means nothing to anyone; it lets a
map be keyed by hashes.
-/

namespace SoftFork

/-- Bytes as a vector of thirty-two, if that is how many they are. -/
def bytes32? (bytes : List UInt8) : Option (Vector UInt8 32) :=
  if h : bytes.toArray.size = 32 then some ⟨bytes.toArray, h⟩ else none

theorem bytes32?_toList (v : Vector UInt8 32) : bytes32? v.toList = some v := by
  have harray : v.toList.toArray = v.toArray := Array.toArray_toList
  have hsize : v.toList.toArray.size = 32 := by
    rw [harray]
    exact v.size_toArray
  rw [bytes32?, dif_pos hsize]
  exact congrArg some (Vector.toArray_inj.mp harray)

/-- The name of a block. -/
structure BlockHash where
  bytes : Vector UInt8 32
  deriving DecidableEq

namespace BlockHash

/-- The hash that names no block: the parent given by a block without one. -/
def zero : BlockHash :=
  ⟨Vector.replicate 32 0⟩

instance : Inhabited BlockHash := ⟨zero⟩

instance : Ord BlockHash := ⟨fun a b => compare a.bytes b.bytes⟩

theorem compare_eq (a b : BlockHash) : compare a b = compare a.bytes b.bytes := rfl

instance : Std.TransOrd BlockHash where
  eq_swap {a b} := by
    rw [compare_eq, compare_eq b a]
    exact Std.OrientedCmp.eq_swap
  isLE_trans {a b c} := by
    rw [compare_eq, compare_eq b c, compare_eq a c]
    exact Std.TransCmp.isLE_trans

instance : Std.LawfulEqOrd BlockHash where
  compare_self {a} := by
    rw [compare_eq]
    exact Std.ReflCmp.compare_self
  eq_of_compare {a b} h := by
    rw [compare_eq] at h
    cases a
    cases b
    exact congrArg BlockHash.mk (Std.LawfulEqCmp.eq_of_compare h)

/-- The hash as it is shown: hexadecimal, last byte first. -/
def display (h : BlockHash) : String :=
  String.ofList (Text.hex h.bytes.toList.reverse)

/-- The hash that is shown by the given text. -/
def ofDisplay? (s : String) : Option BlockHash :=
  (Text.readHex s.toList).bind fun bytes => (bytes32? bytes.reverse).map BlockHash.mk

end BlockHash
end SoftFork
