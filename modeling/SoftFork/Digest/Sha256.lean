/-!
# SHA-256

Blocks are named by the hash of their header, and the hash is this function
applied twice.  The definition follows the standard's own order: pad the message
to whole blocks of sixty-four bytes, expand each block into sixty-four words,
and let each block's words stir the eight words of the state.

Everything works on lists of bytes and on words of thirty-two bits whose
arithmetic wraps, which is the arithmetic the standard means.  Sizes that matter
later are in the types: a digest *is* thirty-two bytes.
-/

namespace SoftFork
namespace Sha256

/-! ## Words -/

/-- A word with its bits turned `n` places to the right, for `0 < n < 32`. -/
def rotateRight (x : UInt32) (n : UInt32) : UInt32 :=
  (x >>> n) ||| (x <<< (32 - n))

/-- Takes each bit from `y` where `x` has a one and from `z` where it has a zero. -/
def choose (x y z : UInt32) : UInt32 :=
  (x &&& y) ^^^ (~~~x &&& z)

/-- The bit that at least two of the three words have. -/
def majority (x y z : UInt32) : UInt32 :=
  (x &&& y) ^^^ (x &&& z) ^^^ (y &&& z)

/-- Stirs the first word of the state. -/
def bigSigmaZero (x : UInt32) : UInt32 :=
  rotateRight x 2 ^^^ rotateRight x 13 ^^^ rotateRight x 22

/-- Stirs the fifth word of the state. -/
def bigSigmaOne (x : UInt32) : UInt32 :=
  rotateRight x 6 ^^^ rotateRight x 11 ^^^ rotateRight x 25

/-- Stirs the word fifteen places back while a block is expanded. -/
def smallSigmaZero (x : UInt32) : UInt32 :=
  rotateRight x 7 ^^^ rotateRight x 18 ^^^ (x >>> 3)

/-- Stirs the word two places back while a block is expanded. -/
def smallSigmaOne (x : UInt32) : UInt32 :=
  rotateRight x 17 ^^^ rotateRight x 19 ^^^ (x >>> 10)

/-! ## Constants -/

/-- One constant for each round: the leading bits of the fractional parts of the
cube roots of the first sixty-four primes. -/
def roundConstants : List UInt32 :=
  [0x428a2f98, 0x71374491, 0xb5c0fbcf, 0xe9b5dba5, 0x3956c25b, 0x59f111f1, 0x923f82a4, 0xab1c5ed5,
   0xd807aa98, 0x12835b01, 0x243185be, 0x550c7dc3, 0x72be5d74, 0x80deb1fe, 0x9bdc06a7, 0xc19bf174,
   0xe49b69c1, 0xefbe4786, 0x0fc19dc6, 0x240ca1cc, 0x2de92c6f, 0x4a7484aa, 0x5cb0a9dc, 0x76f988da,
   0x983e5152, 0xa831c66d, 0xb00327c8, 0xbf597fc7, 0xc6e00bf3, 0xd5a79147, 0x06ca6351, 0x14292967,
   0x27b70a85, 0x2e1b2138, 0x4d2c6dfc, 0x53380d13, 0x650a7354, 0x766a0abb, 0x81c2c92e, 0x92722c85,
   0xa2bfe8a1, 0xa81a664b, 0xc24b8b70, 0xc76c51a3, 0xd192e819, 0xd6990624, 0xf40e3585, 0x106aa070,
   0x19a4c116, 0x1e376c08, 0x2748774c, 0x34b0bcb5, 0x391c0cb3, 0x4ed8aa4a, 0x5b9cca4f, 0x682e6ff3,
   0x748f82ee, 0x78a5636f, 0x84c87814, 0x8cc70208, 0x90befffa, 0xa4506ceb, 0xbef9a3f7, 0xc67178f2]

/-- The eight words that are stirred. -/
structure State where
  a : UInt32
  b : UInt32
  c : UInt32
  d : UInt32
  e : UInt32
  f : UInt32
  g : UInt32
  h : UInt32
  deriving DecidableEq

namespace State

/-- The state before the first block: the leading bits of the fractional parts
of the square roots of the first eight primes. -/
def start : State :=
  ⟨0x6a09e667, 0xbb67ae85, 0x3c6ef372, 0xa54ff53a, 0x510e527f, 0x9b05688c, 0x1f83d9ab, 0x5be0cd19⟩

/-- Word by word sum of two states. -/
def add (s t : State) : State :=
  ⟨s.a + t.a, s.b + t.b, s.c + t.c, s.d + t.d, s.e + t.e, s.f + t.f, s.g + t.g, s.h + t.h⟩

/-- One round, with its constant and the word of the expanded block. -/
def round (s : State) (constant word : UInt32) : State :=
  let t := s.h + bigSigmaOne s.e + choose s.e s.f s.g + constant + word
  let u := bigSigmaZero s.a + majority s.a s.b s.c
  ⟨t + u, s.a, s.b, s.c, s.d + t, s.e, s.f, s.g⟩

/-- The eight words in order. -/
def words (s : State) : Vector UInt32 8 :=
  #v[s.a, s.b, s.c, s.d, s.e, s.f, s.g, s.h]

end State

/-! ## Blocks -/

/-- The message, a single one bit, zeros, and the length in bits as eight bytes,
filling whole blocks of sixty-four bytes. -/
def pad (message : List UInt8) : List UInt8 :=
  let zeros : List UInt8 := List.replicate ((119 - message.length % 64) % 64) 0
  let bits := 8 * message.length
  message ++ (0x80 : UInt8) ::
    (zeros ++ (List.range 8).map fun i => UInt8.ofNat (bits >>> (8 * (7 - i))))

/-- Four bytes as a word, the most significant first. -/
def word (b₀ b₁ b₂ b₃ : UInt8) : UInt32 :=
  (b₀.toUInt32 <<< 24) ||| (b₁.toUInt32 <<< 16) ||| (b₂.toUInt32 <<< 8) ||| b₃.toUInt32

/-- Bytes as words; fewer than four left over at the end are dropped. -/
def wordsOf : List UInt8 → List UInt32
  | b₀ :: b₁ :: b₂ :: b₃ :: rest => word b₀ b₁ b₂ b₃ :: wordsOf rest
  | _ => []

/-- The next word of an expanded block, made from four earlier ones. -/
def nextWord (ws : Array UInt32) : UInt32 :=
  let n := ws.size
  smallSigmaOne (ws.getD (n - 2) 0) + ws.getD (n - 7) 0
    + smallSigmaZero (ws.getD (n - 15) 0) + ws.getD (n - 16) 0

/-- The sixteen words of a block expanded to sixty-four. -/
def expand (block : List UInt32) : Array UInt32 :=
  (List.range 48).foldl (fun ws _ => ws.push (nextWord ws)) block.toArray

/-- The state after a block. -/
def compress (s : State) (block : List UInt32) : State :=
  s.add ((roundConstants.zip (expand block).toList).foldl (fun t kw => t.round kw.1 kw.2) s)

/-- The state after a list of words, taken sixteen at a time. -/
def absorb (count : Nat) (s : State) (ws : List UInt32) : State :=
  match count with
  | 0 => s
  | n + 1 => absorb n (compress s (ws.take 16)) (ws.drop 16)

/-- The thirty-two bytes of the final state, each word's most significant byte
first. -/
def State.bytes (s : State) : Vector UInt8 32 :=
  Vector.ofFn fun i => (s.words[i.val / 4] >>> (8 * (3 - UInt32.ofNat (i.val % 4)))).toUInt8

/-- The digest of a message. -/
def digest (message : List UInt8) : Vector UInt8 32 :=
  let padded := pad message
  (absorb (padded.length / 64) State.start (wordsOf padded)).bytes

end Sha256
end SoftFork
