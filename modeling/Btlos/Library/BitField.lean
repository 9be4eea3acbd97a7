import Mathlib.Data.Nat.Bitwise
import Mathlib.Tactic.Common

/-! Contiguous bit fields of a machine word, in the mask-and-shift form in which
C macros read and write them. -/
namespace BitField

variable {w : Nat}

/-- Ones in the positions `lo` to `hi`, both included. -/
def mask (w hi lo : Nat) : BitVec w :=
  BitVec.allOnes w <<< lo &&& BitVec.allOnes w >>> (w - hi - 1)

/-- The field's value, shifted down to position 0. -/
def get (word : BitVec w) (hi lo : Nat) : BitVec w := (word &&& mask w hi lo) >>> lo

/-- Replace the field and leave the other bits. -/
def set (word value : BitVec w) (hi lo : Nat) : BitVec w :=
  (word &&& ~~~ mask w hi lo) ||| ((value <<< lo) &&& mask w hi lo)

theorem getLsbD_mask {hi lo i : Nat} (hHi : hi < w) :
    (mask w hi lo).getLsbD i = decide (lo ≤ i ∧ i ≤ hi) := by
  rw [Bool.eq_iff_iff]
  simp only [mask, BitVec.getLsbD_and, BitVec.getLsbD_shiftLeft, BitVec.getLsbD_ushiftRight,
    BitVec.getLsbD_allOnes, Bool.and_eq_true, decide_eq_true_eq, Bool.not_eq_true',
    decide_eq_false_iff_not]
  omega

theorem getLsbD_get {hi lo i : Nat} (word : BitVec w) (hHi : hi < w) :
    (get word hi lo).getLsbD i = (decide (lo + i ≤ hi) && word.getLsbD (lo + i)) := by
  simp only [get, BitVec.getLsbD_ushiftRight, BitVec.getLsbD_and, getLsbD_mask hHi]
  by_cases h : lo + i ≤ hi <;> simp [h]

theorem getLsbD_set {hi lo i : Nat} (word value : BitVec w) (hHi : hi < w) :
    (set word value hi lo).getLsbD i =
      if lo ≤ i ∧ i ≤ hi then value.getLsbD (i - lo) else word.getLsbD i := by
  simp only [set, BitVec.getLsbD_or, BitVec.getLsbD_and, BitVec.getLsbD_not,
    BitVec.getLsbD_shiftLeft, getLsbD_mask hHi]
  by_cases h : lo ≤ i ∧ i ≤ hi
  · have hLt : i < w := by omega
    have hNot : ¬ i < lo := by omega
    simp [h, hLt, hNot]
  · by_cases hLt : i < w
    · simp [h, hLt]
    · simp [h, hLt, BitVec.getLsbD_of_ge word i (by omega)]

/-- Reading a field is division by its position and remainder by its width. -/
theorem toNat_get {hi lo : Nat} (word : BitVec w) (hHi : hi < w) :
    (get word hi lo).toNat = word.toNat / 2 ^ lo % 2 ^ (hi + 1 - lo) := by
  apply Nat.eq_of_testBit_eq
  intro i
  rw [BitVec.testBit_toNat, getLsbD_get word hHi, Nat.testBit_mod_two_pow, Nat.testBit_div_two_pow,
    BitVec.testBit_toNat, Nat.add_comm i lo]
  congr 1
  simp only [decide_eq_decide]
  omega

/-- Masking without shifting keeps the field in its place. -/
theorem toNat_and_mask {hi lo : Nat} (word : BitVec w) (hHi : hi < w) :
    (word &&& mask w hi lo).toNat = word.toNat / 2 ^ lo % 2 ^ (hi + 1 - lo) * 2 ^ lo := by
  apply Nat.eq_of_testBit_eq
  intro i
  rw [BitVec.testBit_toNat, BitVec.getLsbD_and, getLsbD_mask hHi, Nat.testBit_mul_two_pow,
    Nat.testBit_mod_two_pow, Nat.testBit_div_two_pow, BitVec.testBit_toNat]
  by_cases h : lo ≤ i
  · have hWidth : i - lo < hi + 1 - lo ↔ i ≤ hi := by omega
    simp [h, hWidth, Bool.and_comm]
  · simp [h]

/-- A field that lies inside the one just written shows the matching bits of
the written value. -/
theorem get_set_inner {hi lo hi' lo' : Nat} (word value : BitVec w) (hHi : hi < w)
    (hLo : lo ≤ lo') (hHi' : hi' ≤ hi) :
    (get (set word value hi lo) hi' lo').toNat =
      value.toNat / 2 ^ (lo' - lo) % 2 ^ (hi' + 1 - lo') := by
  apply Nat.eq_of_testBit_eq
  intro i
  rw [BitVec.testBit_toNat, getLsbD_get _ (by omega), getLsbD_set word value hHi,
    Nat.testBit_mod_two_pow, Nat.testBit_div_two_pow, BitVec.testBit_toNat]
  by_cases h : lo' + i ≤ hi'
  · have hIn : lo ≤ lo' + i ∧ lo' + i ≤ hi := by omega
    have hShift : lo' + i - lo = i + (lo' - lo) := by omega
    have hWidth : i < hi' + 1 - lo' := by omega
    simp [h, hIn, hShift, hWidth]
  · have hWidth : ¬ i < hi' + 1 - lo' := by omega
    simp [h, hWidth]

/-- The field just written reads back as the written value, cut to the width. -/
theorem get_set {hi lo : Nat} (word value : BitVec w) (hHi : hi < w) :
    (get (set word value hi lo) hi lo).toNat = value.toNat % 2 ^ (hi + 1 - lo) := by
  rw [get_set_inner word value hHi (Nat.le_refl _) (Nat.le_refl _)]
  simp

end BitField
