import Mathlib.Data.Nat.Bitwise
import Mathlib.Tactic.Tauto

/-! # Masks and fields of machine words as arithmetic

What the bitwise operations that cut a word into fields and put one together do to it as a number. -/

namespace WordBits

variable {n : ℕ}

theorem toNat_and_mask (v mask : BitVec n) (i w : ℕ) (h : mask.toNat = (2 ^ w - 1) <<< i) :
    (v &&& mask).toNat = v.toNat / 2 ^ i % 2 ^ w * 2 ^ i := by
  rw [BitVec.toNat_and, h, ← Nat.shiftLeft_eq, ← Nat.shiftRight_eq_div_pow]
  apply Nat.eq_of_testBit_eq
  intro j
  simp only [Nat.testBit_and, Nat.testBit_shiftLeft, Nat.testBit_two_pow_sub_one,
    Nat.testBit_mod_two_pow, Nat.testBit_shiftRight]
  by_cases h : i ≤ j
  · simp [h, Bool.and_comm]
  · simp [h]

/-- The mask of the last `w` bits. -/
theorem toNat_and_lowMask (v mask : BitVec n) (w : ℕ) (h : mask.toNat = 2 ^ w - 1) :
    (v &&& mask).toNat = v.toNat % 2 ^ w := by
  rw [BitVec.toNat_and, h, Nat.and_two_pow_sub_one_eq_mod]

theorem toNat_or_of_disjoint {v w : BitVec n} (h : v &&& w = 0) :
    (v ||| w).toNat = v.toNat + w.toNat := by
  rw [← BitVec.add_eq_or_of_and_eq_zero _ _ h, BitVec.toNat_add_of_and_eq_zero h]

/-- A word with `k` zeros at its end, and a word of `k` bits. -/
theorem toNat_or_of_lt (k : ℕ) {v w : BitVec n} (hv : v.toNat % 2 ^ k = 0) (hw : w.toNat < 2 ^ k) :
    (v ||| w).toNat = v.toNat + w.toNat := by
  obtain ⟨q, hq⟩ := Nat.dvd_of_mod_eq_zero hv
  rw [BitVec.toNat_or, hq, Nat.two_pow_add_eq_or_of_lt hw]

/-- A word is the sum of its part under a mask and its part outside of it. -/
theorem toNat_and_not (v mask : BitVec n) :
    (v &&& ~~~mask).toNat = v.toNat - (v &&& mask).toNat := by
  have hd : (v &&& ~~~mask) &&& (v &&& mask) = 0 := by
    ext i hi
    simp
    tauto
  have hs : (v &&& ~~~mask) ||| (v &&& mask) = v := by
    ext i hi
    simp only [BitVec.getElem_or, BitVec.getElem_and, BitVec.getElem_not]
    cases v[i] <;> simp
  have h := toNat_or_of_disjoint hd
  rw [hs] at h
  omega

/-- A mask of one bit tests that bit. -/
theorem and_bit_ne_zero (v : BitVec n) {i : ℕ} (hi : i < n) : v &&& 1#n <<< i ≠ 0#n ↔ v.getLsbD i = true := by
  rw [← BitVec.twoPow_eq, BitVec.and_twoPow]
  cases hb : v.getLsbD i with
  | false => simp
  | true =>
      have ne : BitVec.twoPow n i ≠ 0#n := by
        intro e
        have bit := congrArg (BitVec.getLsbD · i) e
        simp [hi] at bit
      simp [ne]

theorem getLsbD_or_bit (v : BitVec n) {i j : ℕ} (hi : i < n) :
    (v ||| 1#n <<< i).getLsbD j = (v.getLsbD j || decide (i = j)) := by
  rw [← BitVec.twoPow_eq, BitVec.getLsbD_or, BitVec.getLsbD_twoPow]
  simp [hi]

theorem getLsbD_and_not_bit (v : BitVec n) {i j : ℕ} (hi : i < n) (hj : j < n) :
    (v &&& ~~~(1#n <<< i)).getLsbD j = (v.getLsbD j && !decide (i = j)) := by
  rw [← BitVec.twoPow_eq, BitVec.getLsbD_and, BitVec.getLsbD_not, BitVec.getLsbD_twoPow]
  simp [hi, hj]

end WordBits
