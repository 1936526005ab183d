import Bionic.WordBits

/-! # Pages

The words that a program of 32-bit machine words computes to cut an address or a length off at a page boundary, as
numbers: `x & ~PAGE_MASK` is `down`, and `(x + PAGE_SIZE - 1) & ~PAGE_MASK` is `up` where the sum does not wrap. -/

namespace Pages

abbrev Word := BitVec 32

def PAGE_SIZE : Word := 4096

def PAGE_MASK : Word := 4095

/-- The page boundary at or below `n`. -/
def down (n : ℕ) : ℕ := n / 4096 * 4096

/-- The page boundary at or above `n`. -/
def up (n : ℕ) : ℕ := (n + 4095) / 4096 * 4096

/-- `x & ~PAGE_MASK`. -/
def trunc (x : Word) : Word := x &&& ~~~PAGE_MASK

/-- `(x + PAGE_SIZE - 1) & ~PAGE_MASK`. -/
def round (x : Word) : Word := trunc (x + PAGE_SIZE - 1)

variable {x : Word} {m n : ℕ}

theorem toNat_mask (x : Word) : (x &&& PAGE_MASK).toNat = x.toNat % 4096 :=
  WordBits.toNat_and_lowMask x PAGE_MASK 12 rfl

theorem mask_ne_zero (x : Word) : x &&& PAGE_MASK ≠ 0 ↔ x.toNat % 4096 ≠ 0 := by
  rw [← toNat_mask, ne_eq, ne_eq, ← BitVec.toNat_inj]
  rfl

/-- The way from `x` to the end of a page. -/
theorem toNat_page_sub (x : Word) : (PAGE_SIZE - (x &&& PAGE_MASK)).toNat = 4096 - x.toNat % 4096 := by
  have hmod := Nat.mod_lt x.toNat (show 0 < 4096 by decide)
  have hsize : PAGE_SIZE.toNat = 4096 := rfl
  rw [BitVec.toNat_sub_of_le, toNat_mask, hsize]
  rw [BitVec.le_def, toNat_mask, hsize]
  exact Nat.le_of_lt hmod

theorem toNat_trunc (x : Word) : (trunc x).toNat = down x.toNat := by
  rw [trunc, WordBits.toNat_and_not, toNat_mask, down]
  omega

theorem toNat_round_mod (x : Word) : (round x).toNat = down ((x.toNat + 4095) % 2 ^ 32) := by
  have hsum : (x + PAGE_SIZE - 1).toNat = (x.toNat + 4095) % 2 ^ 32 := by
    unfold PAGE_SIZE
    bv_omega
  rw [round, toNat_trunc, hsum]

theorem toNat_round (h : up x.toNat < 2 ^ 32) : (round x).toNat = up x.toNat := by
  have hx := x.isLt
  rw [toNat_round_mod]
  unfold up down at *
  omega

theorem down_le (n : ℕ) : down n ≤ n := Nat.div_mul_le_self ..

theorem le_up (n : ℕ) : n ≤ up n := by unfold up; omega

theorem up_le (h : m ≤ n) (hn : n % 4096 = 0) : up m ≤ n := by unfold up; omega

theorem up_mono (h : m ≤ n) : up m ≤ up n := by unfold up; omega

theorem up_mod (n : ℕ) : up n % 4096 = 0 := Nat.mul_mod_left ..

theorem down_mod (n : ℕ) : down n % 4096 = 0 := Nat.mul_mod_left ..

theorem up_pos (h : 0 < n) : 0 < up n := by unfold up; omega

theorem add_up (hm : m % 4096 = 0) (n : ℕ) : up (m + n) = m + up n := by unfold up; omega

theorem down_add_mod (n : ℕ) : down n + n % 4096 = n := by unfold down; omega

theorem add_page_sub (h : n % 4096 ≠ 0) : n + (4096 - n % 4096) = up n := by unfold up; omega

theorem up_eq_self (h : n % 4096 = 0) : up n = n := by unfold up; omega

end Pages
