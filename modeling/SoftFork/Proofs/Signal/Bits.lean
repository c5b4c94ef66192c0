import Mathlib.Data.List.Basic
import SoftFork.Signal.Version

/-!
# Bits that are set are read

A version is put together bit by bit, and a vote is read off it with a shift.  Both are
operations on words of thirty-two bits, and neither says which bits of the result are there.
Here this is said once: a mask has one bit (`testBit_mask`), and a version votes with a bit
when it is a ballot paper and the bit is there (`signals_iff`).

The bits that can be voted with lie below the top three.  So setting them, or clearing them,
leaves the top as it is, a ballot paper remains one, whatever is put on it (`isBallot_foldl`,
`isBallot_foldl_clear`), and a vote is never taken for a part of the top.
-/

namespace SoftFork
namespace Version

/-! ## One bit -/

theorem testBit_mask {bit : UInt8} (hbit : bit.toNat < 32) (i : Nat) :
    (mask bit).toNat.testBit i = decide (bit.toNat = i) := by
  have hpow : 1 <<< bit.toNat < 2 ^ 32 := by
    rw [Nat.one_shiftLeft]
    exact Nat.pow_lt_pow_right (by decide) hbit
  rw [mask, UInt32.toNat_shiftLeft, UInt8.toNat_toUInt32, Nat.mod_eq_of_lt hbit,
    show (1 : UInt32).toNat = 1 from rfl, Nat.mod_eq_of_lt hpow, Nat.one_shiftLeft,
    Nat.testBit_two_pow]

/-- A version that has nothing in common with a mask does not have its bit. -/
theorem and_mask_eq_zero_iff {version : UInt32} {bit : UInt8} (hbit : bit.toNat < 32) :
    version &&& mask bit = 0 ↔ ¬ version.toNat.testBit bit.toNat = true := by
  rw [← UInt32.toNat_inj, UInt32.toNat_and]
  constructor
  · intro hzero hset
    have hboth := congrArg (Nat.testBit · bit.toNat) hzero
    simp only [Nat.testBit_and, hset, testBit_mask hbit, decide_true, Bool.true_and,
      UInt32.toNat_zero, Nat.zero_testBit] at hboth
    exact absurd hboth (by decide)
  · intro hnot
    refine Nat.eq_of_testBit_eq fun i => ?_
    rw [Nat.testBit_and, testBit_mask hbit, UInt32.toNat_zero, Nat.zero_testBit]
    by_cases hi : bit.toNat = i
    · rw [← hi, Bool.eq_false_iff.mpr hnot, Bool.false_and]
    · rw [decide_eq_false hi, Bool.and_false]

theorem mask_and_topMask {bit : UInt8} (hbit : bit.toNat < bitCount) :
    mask bit &&& topMask = 0 := by
  have hall : ∀ n < bitCount, mask (UInt8.ofNat n) &&& topMask = 0 := by decide
  have hmask := hall bit.toNat hbit
  rwa [UInt8.ofNat_toNat] at hmask

/-- A version votes with a bit when it is a ballot paper that has the bit. -/
theorem signals_iff {version : UInt32} {bit : UInt8} (hbit : bit.toNat < 32) :
    signals version bit = true ↔
      isBallot version = true ∧ version.toNat.testBit bit.toNat = true := by
  have hread : ((version >>> bit.toUInt32) &&& 1 == 1) = version.toNat.testBit bit.toNat := by
    rw [Bool.eq_iff_iff, beq_iff_eq, ← UInt32.toNat_inj, UInt32.toNat_and, UInt32.toNat_shiftRight,
      UInt8.toNat_toUInt32, Nat.mod_eq_of_lt hbit, show (1 : UInt32).toNat = 1 from rfl,
      Nat.and_one_is_mod, Nat.testBit_eq_decide_div_mod_eq, Nat.shiftRight_eq_div_pow,
      decide_eq_true_eq]
  rw [signals, Bool.and_eq_true, hread]

/-- The top of a ballot paper has no bit that can be voted with. -/
theorem testBit_topBits {i : Nat} (hi : i < bitCount) : topBits.toNat.testBit i = false := by
  have hall : ∀ i < bitCount, topBits.toNat.testBit i = false := by decide
  exact hall i hi

/-- What is cleared from a version is exactly what is in the other one. -/
theorem testBit_and_not (version other : UInt32) (i : Nat) :
    (version &&& ~~~other).toNat.testBit i =
      (version.toNat.testBit i && !other.toNat.testBit i) := by
  have hread : ∀ v : UInt32, v.toNat.testBit i = v.toBitVec.getLsbD i :=
    fun v => BitVec.testBit_toNat v.toBitVec
  rw [hread, hread, hread, UInt32.toBitVec_and, UInt32.toBitVec_not, BitVec.getLsbD_and,
    BitVec.getLsbD_not]
  rcases Nat.lt_or_ge i 32 with hlt | hge
  · rw [decide_eq_true hlt, Bool.true_and]
  · rw [BitVec.getLsbD_of_ge _ _ hge, Bool.false_and, Bool.false_and]

/-- A version is unexpected when it is no plain number and has a bit that was not expected. -/
theorem isUnexpected_iff {version expected : UInt32} :
    isUnexpected version expected = true ↔ lastPlain < version ∧
      ∃ i, version.toNat.testBit i = true ∧ ¬ expected.toNat.testBit i = true := by
  rw [isUnexpected, Bool.and_eq_true, decide_eq_true_eq, bne_iff_ne, Ne, ← UInt32.toNat_inj,
    UInt32.toNat_zero]
  refine and_congr_right fun _ => ?_
  constructor
  · intro hne
    obtain ⟨i, hi⟩ := Nat.exists_testBit_of_ne_zero hne
    rw [testBit_and_not, Bool.and_eq_true, Bool.not_eq_true'] at hi
    exact ⟨i, hi.1, Bool.not_eq_true _ ▸ hi.2⟩
  · rintro ⟨i, hset, hnot⟩ hzero
    have hi := testBit_and_not version expected i
    rw [hzero, Nat.zero_testBit, hset, Bool.eq_false_iff.mpr hnot] at hi
    exact absurd hi (by decide)

/-- Nothing in a version is unexpected when it was expected. -/
theorem isUnexpected_self (version : UInt32) : isUnexpected version version = false := by
  rw [isUnexpected, UInt32.and_not_self]
  simp

/-- A version that is a plain number carries no bits. -/
theorem isUnexpected_of_plain {version : UInt32} (h : version ≤ lastPlain) (expected : UInt32) :
    isUnexpected version expected = false := by
  rw [isUnexpected, decide_eq_false (UInt32.not_lt.mpr h), Bool.false_and]

/-! ## Many bits -/

variable {γ : Type} {l : List γ} {bit : γ → UInt8} {p : γ → Bool} {version : UInt32}

/-- The bits of a version after some more have been set. -/
theorem testBit_foldl (hl : ∀ c ∈ l, (bit c).toNat < 32) (i : Nat) :
    (l.foldl (fun v c => if p c then v ||| mask (bit c) else v) version).toNat.testBit i = true ↔
      version.toNat.testBit i = true ∨ ∃ c ∈ l, p c = true ∧ (bit c).toNat = i := by
  induction l generalizing version with
  | nil => simp
  | cons c l ih =>
    have hc := testBit_mask (hl c List.mem_cons_self) i
    rw [List.foldl_cons, ih fun c' hc' => hl c' (List.mem_cons_of_mem c hc'),
      List.exists_mem_cons_iff]
    cases hp : p c with
    | true =>
      rw [if_pos rfl, UInt32.toNat_or, Nat.testBit_or, hc, Bool.or_eq_true, decide_eq_true_eq,
        or_assoc, and_iff_right rfl]
    | false =>
      have hnot : ¬ (false = true ∧ (bit c).toNat = i) := fun h => absurd h.1 (by decide)
      rw [if_neg (by decide), or_iff_right hnot]

theorem or_and_topMask (version : UInt32) {bit : UInt8} (hbit : bit.toNat < bitCount) :
    (version ||| mask bit) &&& topMask = version &&& topMask := by
  have hmask := congrArg UInt32.toNat (mask_and_topMask hbit)
  rw [UInt32.toNat_and] at hmask
  rw [← UInt32.toNat_inj, UInt32.toNat_and, UInt32.toNat_or, Nat.and_or_distrib_right, hmask,
    UInt32.toNat_and]
  exact Nat.or_zero _

/-- A ballot paper stays one when bits are set that can be voted with. -/
theorem isBallot_foldl (hl : ∀ c ∈ l, (bit c).toNat < bitCount) :
    isBallot (l.foldl (fun v c => if p c then v ||| mask (bit c) else v) version) =
      isBallot version := by
  induction l generalizing version with
  | nil => rfl
  | cons c l ih =>
    rw [List.foldl_cons, ih fun c' hc' => hl c' (List.mem_cons_of_mem c hc')]
    split
    · rw [isBallot, or_and_topMask _ (hl c List.mem_cons_self), isBallot]
    · rfl

/-- The bits of a version after some have been cleared. -/
theorem testBit_foldl_clear (hl : ∀ c ∈ l, (bit c).toNat < 32) (i : Nat) :
    (l.foldl (fun v c => if p c then v &&& ~~~mask (bit c) else v) version).toNat.testBit i =
        true ↔
      version.toNat.testBit i = true ∧ ∀ c ∈ l, p c = true → (bit c).toNat ≠ i := by
  induction l generalizing version with
  | nil => simp
  | cons c l ih =>
    have hc := testBit_mask (hl c List.mem_cons_self) i
    rw [List.foldl_cons, ih fun c' hc' => hl c' (List.mem_cons_of_mem c hc'), List.forall_mem_cons]
    cases hp : p c with
    | true =>
      rw [if_pos rfl, testBit_and_not, hc, Bool.and_eq_true, Bool.not_eq_true',
        decide_eq_false_iff_not, and_assoc, forall_prop_of_true rfl]
    | false => rw [if_neg (by decide), and_iff_right fun h => absurd h (by decide)]

/-- A ballot paper stays one when bits are cleared that can be voted with. -/
theorem isBallot_foldl_clear (hl : ∀ c ∈ l, (bit c).toNat < bitCount) :
    isBallot (l.foldl (fun v c => if p c then v &&& ~~~mask (bit c) else v) version) =
      isBallot version := by
  induction l generalizing version with
  | nil => rfl
  | cons c l ih =>
    have hc : (version &&& ~~~mask (bit c)) &&& topMask = version &&& topMask := by
      have hall : ∀ n < bitCount, ~~~mask (UInt8.ofNat n) &&& topMask = topMask := by decide
      have hmask := hall (bit c).toNat (hl c List.mem_cons_self)
      rw [UInt8.ofNat_toNat] at hmask
      rw [UInt32.and_assoc, hmask]
    rw [List.foldl_cons, ih fun c' hc' => hl c' (List.mem_cons_of_mem c hc')]
    split
    · rw [isBallot, hc, isBallot]
    · rfl

end Version
end SoftFork
