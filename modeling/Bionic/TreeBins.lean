import Mathlib.Algebra.BigOperators.Group.Finset.Basic
import Mathlib.Data.Multiset.AddSub
import Mathlib.Tactic.Abel
import Mathlib.Tactic.Ring
import Mathlib.Tactic.Positivity
import Bionic.WordBits

/-! # The tree bins of the allocator (`libc/bionic/dlmalloc.c`)

Free chunks of at least 256 bytes are kept in 32 bins by size, each of them a tree in which the bits of the size, from the
first one that the bin does not fix, tell where to go.  Whatever chunks are inserted and unlinked, and in whatever order,
`tmalloc_large` and `tmalloc_small` choose a chunk that fits best (`tmalloc_best`).

* **Words.** A `size_t` has 32 bits.  Sizes are numbers below `2 ^ 32`; `sub32` is the subtraction that wraps, and the
  shifted size that tells where to go is cut to 32 bits.
* **Trees.** A node is the ring of the free chunks of one size.  Its first chunk is the one with `parent` and `child`; `fd`
  leads to the next one.  Pointers to nodes are the subtrees. -/

namespace Bionic.Dlmalloc

/-! ### Bins -/

def NTREEBINS : ℕ := 32

def TREEBIN_SHIFT : ℕ := 8

/-- One step of finding the highest bit: `((Y - c) >> 16) & b`. -/
def highStep (Y c b : ℕ) : ℕ := ((Y + 2 ^ 32 - c) % 2 ^ 32 / 2 ^ 16) &&& b

/-- `K` of `compute_tree_index`, the place of the highest bit. -/
def highBit (X : ℕ) : ℕ :=
  let Y := X
  let N := highStep Y 0x100 8
  let Y := Y * 2 ^ N
  let K := highStep Y 0x1000 4
  let N := N + K
  let Y := Y * 2 ^ K
  let K := highStep Y 0x4000 2
  let N := N + K
  let Y := Y * 2 ^ K
  14 - N + Y / 2 ^ 15

/-- `compute_tree_index` -/
def computeTreeIndex (S : ℕ) : ℕ :=
  let X := S / 2 ^ TREEBIN_SHIFT
  if X = 0 then 0
  else if 0xFFFF < X then NTREEBINS - 1
  else
    let K := highBit X
    K * 2 + S / 2 ^ (K + (TREEBIN_SHIFT - 1)) % 2

/-- `leftshift_for_tree_index` -/
def leftshiftForTreeIndex (i : ℕ) : ℕ := if i = NTREEBINS - 1 then 0 else 31 - (i / 2 + TREEBIN_SHIFT - 2)

/-- `minsize_for_tree_index` -/
def minsizeForTreeIndex (i : ℕ) : ℕ := 2 ^ (i / 2 + TREEBIN_SHIFT) + i % 2 * 2 ^ (i / 2 + TREEBIN_SHIFT - 1)

/-- How many bits of a size the tree of a bin tells apart. -/
def binBits (i : ℕ) : ℕ := if i = NTREEBINS - 1 then 32 else i / 2 + TREEBIN_SHIFT - 1

/-- Where the sizes that a tree can tell apart begin. -/
def binBase (i : ℕ) : ℕ := if i = NTREEBINS - 1 then 0 else minsizeForTreeIndex i

theorem highStep_cases {Y c b : ℕ} (hY : Y < 2 ^ 16) (hc : c ≤ 2 ^ 16) (hb : 65535 &&& b = b) :
    highStep Y c b = b ∧ Y < c ∨ highStep Y c b = 0 ∧ c ≤ Y := by
  unfold highStep
  by_cases h : Y < c
  · exact .inl ⟨by rw [show (Y + 2 ^ 32 - c) % 2 ^ 32 / 2 ^ 16 = 65535 by omega, hb], h⟩
  · exact .inr ⟨by rw [show (Y + 2 ^ 32 - c) % 2 ^ 32 / 2 ^ 16 = 0 by omega, Nat.zero_and], not_lt.mp h⟩

/-- The highest bit has been shifted to the place 14 or 15. -/
theorem place_spec {X n : ℕ} (hn : n ≤ 14) (hlo : 2 ^ 14 ≤ X * 2 ^ n) (hhi : X * 2 ^ n < 2 ^ 16) :
    2 ^ (14 - n + X * 2 ^ n / 2 ^ 15) ≤ X ∧ X < 2 ^ (14 - n + X * 2 ^ n / 2 ^ 15 + 1) ∧
      14 - n + X * 2 ^ n / 2 ^ 15 < 16 := by
  have shifted (k : ℕ) : 2 ^ (14 - n + k) * 2 ^ n = 2 ^ (14 + k) := by
    rw [← pow_add]
    congr 1
    omega
  have le_iff (k : ℕ) : 2 ^ (14 - n + k) ≤ X ↔ 2 ^ (14 + k) ≤ X * 2 ^ n := by
    rw [← shifted, Nat.mul_le_mul_right_iff (by positivity)]
  by_cases h : X * 2 ^ n < 2 ^ 15
  · rw [show X * 2 ^ n / 2 ^ 15 = 0 by omega]
    exact ⟨(le_iff 0).mpr hlo, not_le.mp fun hle => absurd ((le_iff 1).mp hle) (by omega), by omega⟩
  · rw [show X * 2 ^ n / 2 ^ 15 = 1 by omega]
    exact ⟨(le_iff 1).mpr (by omega), not_le.mp fun hle => absurd ((le_iff 2).mp hle) (by omega), by omega⟩

theorem highBit_spec {X : ℕ} (hpos : 0 < X) (hX : X < 2 ^ 16) :
    2 ^ highBit X ≤ X ∧ X < 2 ^ (highBit X + 1) ∧ highBit X < 16 := by
  have done {n₁ n₂ n₃ : ℕ} (h₁ : highStep X 0x100 8 = n₁) (h₂ : highStep (X * 2 ^ n₁) 0x1000 4 = n₂)
      (h₃ : highStep (X * 2 ^ n₁ * 2 ^ n₂) 0x4000 2 = n₃) (hn : n₁ + n₂ + n₃ ≤ 14)
      (hlo : 2 ^ 14 ≤ X * 2 ^ n₁ * 2 ^ n₂ * 2 ^ n₃) (hhi : X * 2 ^ n₁ * 2 ^ n₂ * 2 ^ n₃ < 2 ^ 16) : 2 ^ highBit X ≤ X ∧ X < 2 ^ (highBit X + 1) ∧ highBit X < 16 := by
    have hmul : X * 2 ^ n₁ * 2 ^ n₂ * 2 ^ n₃ = X * 2 ^ (n₁ + n₂ + n₃) := by
      rw [pow_add, pow_add]
      ring
    have hhigh : highBit X = 14 - (n₁ + n₂ + n₃) + X * 2 ^ (n₁ + n₂ + n₃) / 2 ^ 15 := by
      rw [highBit, h₁, h₂, h₃, hmul]
    rw [hmul] at hlo hhi
    rw [hhigh]
    exact place_spec hn hlo hhi
  rcases highStep_cases (Y := X) (c := 0x100) (b := 8) (by omega) (by omega) (by decide) with ⟨h₁, hc₁⟩ | ⟨h₁, hc₁⟩
  · rcases highStep_cases (Y := X * 2 ^ 8) (c := 0x1000) (b := 4) (by omega) (by omega) (by decide) with
      ⟨h₂, hc₂⟩ | ⟨h₂, hc₂⟩
    · rcases highStep_cases (Y := X * 2 ^ 8 * 2 ^ 4) (c := 0x4000) (b := 2) (by omega) (by omega) (by decide) with
        ⟨h₃, hc₃⟩ | ⟨h₃, hc₃⟩
      all_goals exact done h₁ h₂ h₃ (by omega) (by omega) (by omega)
    · rcases highStep_cases (Y := X * 2 ^ 8 * 2 ^ 0) (c := 0x4000) (b := 2) (by omega) (by omega) (by decide) with
        ⟨h₃, hc₃⟩ | ⟨h₃, hc₃⟩
      all_goals exact done h₁ h₂ h₃ (by omega) (by omega) (by omega)
  · rcases highStep_cases (Y := X * 2 ^ 0) (c := 0x1000) (b := 4) (by omega) (by omega) (by decide) with
      ⟨h₂, hc₂⟩ | ⟨h₂, hc₂⟩
    · rcases highStep_cases (Y := X * 2 ^ 0 * 2 ^ 4) (c := 0x4000) (b := 2) (by omega) (by omega) (by decide) with
        ⟨h₃, hc₃⟩ | ⟨h₃, hc₃⟩
      all_goals exact done h₁ h₂ h₃ (by omega) (by omega) (by omega)
    · rcases highStep_cases (Y := X * 2 ^ 0 * 2 ^ 0) (c := 0x4000) (b := 2) (by omega) (by omega) (by decide) with
        ⟨h₃, hc₃⟩ | ⟨h₃, hc₃⟩
      all_goals exact done h₁ h₂ h₃ (by omega) (by omega) (by omega)

/-- The sizes of a bin. -/
theorem computeTreeIndex_spec {S : ℕ} (hlo : 2 ^ 8 ≤ S) (hhi : S < 2 ^ 32) :
    computeTreeIndex S < 32 ∧ minsizeForTreeIndex (computeTreeIndex S) ≤ S ∧
      (computeTreeIndex S ≠ 31 → S < minsizeForTreeIndex (computeTreeIndex S + 1)) := by
  have hX : S / 2 ^ 8 ≠ 0 := by omega
  by_cases hbig : 0xFFFF < S / 2 ^ 8
  · rw [show computeTreeIndex S = NTREEBINS - 1 from (if_neg hX).trans (if_pos hbig)]
    refine ⟨by decide, ?_, fun h => absurd rfl h⟩
    have : minsizeForTreeIndex (NTREEBINS - 1) = 2 ^ 23 + 2 ^ 22 := by decide
    omega
  · rw [show computeTreeIndex S = highBit (S / 2 ^ 8) * 2 + S / 2 ^ (highBit (S / 2 ^ 8) + 7) % 2 from
      (if_neg hX).trans (if_neg hbig)]
    obtain ⟨hK, hK', hlt⟩ := highBit_spec (Nat.pos_of_ne_zero hX) (by omega : S / 2 ^ 8 < 2 ^ 16)
    generalize highBit (S / 2 ^ 8) = K at hK hK' hlt
    rw [Nat.le_div_iff_mul_le (by positivity), ← pow_add] at hK
    rw [Nat.div_lt_iff_lt_mul (by positivity), ← pow_add] at hK'
    have hbit : S / 2 ^ (K + 7) = 2 + S / 2 ^ (K + 7) % 2 := by
      have h₁ : 2 ≤ S / 2 ^ (K + 7) := by
        rw [Nat.le_div_iff_mul_le (by positivity)]
        exact (by ring : 2 * 2 ^ (K + 7) = 2 ^ (K + 8)) ▸ hK
      have h₂ : S / 2 ^ (K + 7) < 4 := by
        rw [Nat.div_lt_iff_lt_mul (by positivity)]
        exact (by ring : 2 ^ (K + 1 + 8) = 4 * 2 ^ (K + 7)) ▸ hK'
      omega
    have hdiv := Nat.div_add_mod S (2 ^ (K + 7))
    have hmod := Nat.mod_lt S (by positivity : 0 < 2 ^ (K + 7))
    have h8 : 2 ^ (K + 8) = 2 * 2 ^ (K + 7) := by ring
    have h9 : 2 ^ (K + 9) = 4 * 2 ^ (K + 7) := by ring
    rcases Nat.mod_two_eq_zero_or_one (S / 2 ^ (K + 7)) with h0 | h1
    · rw [h0] at hbit ⊢
      rw [hbit] at hdiv
      refine ⟨by omega, ?_, fun _ => ?_⟩
      · rw [minsizeForTreeIndex, show (K * 2 + 0) / 2 = K by omega, show (K * 2 + 0) % 2 = 0 by omega]
        simp only [TREEBIN_SHIFT]
        omega
      · rw [minsizeForTreeIndex, show (K * 2 + 0 + 1) / 2 = K by omega, show (K * 2 + 0 + 1) % 2 = 1 by omega]
        simp only [TREEBIN_SHIFT]
        rw [show K + 8 - 1 = K + 7 by omega]
        omega
    · rw [h1] at hbit ⊢
      rw [hbit] at hdiv
      refine ⟨by omega, ?_, fun _ => ?_⟩
      · rw [minsizeForTreeIndex, show (K * 2 + 1) / 2 = K by omega, show (K * 2 + 1) % 2 = 1 by omega]
        simp only [TREEBIN_SHIFT]
        rw [show K + 8 - 1 = K + 7 by omega]
        omega
      · rw [minsizeForTreeIndex, show (K * 2 + 1 + 1) / 2 = K + 1 by omega, show (K * 2 + 1 + 1) % 2 = 0 by omega]
        simp only [TREEBIN_SHIFT]
        rw [show K + 1 + 8 = K + 9 by omega]
        omega

theorem minsize_le_minsize : ∀ j < 32, ∀ i < j, minsizeForTreeIndex (i + 1) ≤ minsizeForTreeIndex j := by decide

/-- Bins are ordered by the sizes of their chunks. -/
theorem lt_of_index_lt {S S' : ℕ} (hlo : 2 ^ 8 ≤ S) (hhi : S < 2 ^ 32) (hlo' : 2 ^ 8 ≤ S') (hhi' : S' < 2 ^ 32)
    (h : computeTreeIndex S < computeTreeIndex S') : S < S' := by
  obtain ⟨-, -, hlt⟩ := computeTreeIndex_spec hlo hhi
  obtain ⟨hi', hle', -⟩ := computeTreeIndex_spec hlo' hhi'
  have := minsize_le_minsize _ hi' _ h
  have := hlt (by omega)
  omega

theorem binBase_add : ∀ i < 31, binBase i + 2 ^ binBits i = minsizeForTreeIndex (i + 1) := by decide

/-- A size lies in the range of its bin. -/
theorem mem_bin {S : ℕ} (hlo : 2 ^ 8 ≤ S) (hhi : S < 2 ^ 32) :
    binBase (computeTreeIndex S) ≤ S ∧ S < binBase (computeTreeIndex S) + 2 ^ binBits (computeTreeIndex S) := by
  obtain ⟨hi, hle, hlt⟩ := computeTreeIndex_spec hlo hhi
  by_cases h : computeTreeIndex S = 31
  · rw [h]
    exact ⟨Nat.zero_le S, hhi⟩
  · rw [binBase_add _ (by omega)]
    exact ⟨(if_neg h).le.trans hle, hlt h⟩

theorem two_pow_dvd_binBase : ∀ i < 32, 2 ^ binBits i ∣ binBase i := by decide

theorem binBits_le : ∀ i < 32, binBits i ≤ 32 := by decide

/-- The shift brings the first bit that the tree tells apart to the top. -/
theorem leftshift_eq : ∀ i < 32, leftshiftForTreeIndex i = 32 - binBits i := by decide

/-! ### Bit maps -/

/-- `idx2bit` -/
def idx2bit (i : ℕ) : BitVec 32 := 1#32 <<< i

/-- `least_bit` -/
def leastBit (x : BitVec 32) : BitVec 32 := x &&& -x

/-- `left_bits` -/
def leftBits (x : BitVec 32) : BitVec 32 := (x <<< 1) ||| -(x <<< 1)

/-- `compute_bit2idx` -/
def computeBit2idx (X : BitVec 32) : ℕ :=
  let Y := X - 1
  let K := Y >>> 12 &&& 16
  let N := K
  let Y := Y >>> K
  let K := Y >>> 5 &&& 8
  let N := N + K
  let Y := Y >>> K
  let K := Y >>> 2 &&& 4
  let N := N + K
  let Y := Y >>> K
  let K := Y >>> 1 &&& 2
  let N := N + K
  let Y := Y >>> K
  let K := Y >>> 1 &&& 1
  let N := N + K
  let Y := Y >>> K
  (N + Y).toNat

theorem computeBit2idx_idx2bit : ∀ i < 32, computeBit2idx (idx2bit i) = i := by decide

/-- The first bit of a map that is set. -/
theorem leastBit_spec {x : BitVec 32} (hx : x ≠ 0#32) :
    ∃ i < 32, computeBit2idx (leastBit x) = i ∧ x.getLsbD i = true ∧ ∀ j < i, x.getLsbD j = false := by
  have hex : ∃ i, x.getLsbD i = true := by
    by_contra h
    refine hx (BitVec.eq_of_getLsbD_eq fun i _ => ?_)
    rw [BitVec.getLsbD_zero]
    exact Bool.eq_false_iff.mpr fun hi => h ⟨i, hi⟩
  classical
  have hbit := Nat.find_spec hex
  have hmin (j : ℕ) (hj : j < Nat.find hex) : x.getLsbD j = false := Bool.eq_false_iff.mpr (Nat.find_min hex hj)
  generalize Nat.find hex = i at hbit hmin
  have hi : i < 32 := BitVec.lt_of_getLsbD hbit
  have hleast : leastBit x = idx2bit i := by
    refine BitVec.eq_of_getLsbD_eq fun j hj => ?_
    rw [leastBit, idx2bit, BitVec.getLsbD_and, BitVec.getLsbD_neg, ← BitVec.twoPow_eq, BitVec.getLsbD_twoPow]
    rcases lt_trichotomy j i with hji | rfl | hji
    · simp [hmin j hji, hji.ne']
    · have hnone : ¬ ∃ k < j, x.getLsbD k = true := by
        rintro ⟨k, hk, hk'⟩
        rw [hmin k hk] at hk'
        cases hk'
      simp [hbit, hi, hnone]
    · have hsome : ∃ k < j, x.getLsbD k = true := ⟨i, hji, hbit⟩
      simp [hj, hsome, hji.ne]
  exact ⟨i, hi, by rw [hleast, computeBit2idx_idx2bit i hi], hbit, hmin⟩

theorem getLsbD_leftBits {i j : ℕ} (hj : j < 32) : (leftBits (idx2bit i)).getLsbD j = decide (i < j) := by
  have hshift (k : ℕ) (hk : k < 32) : (idx2bit i <<< 1).getLsbD k = decide (i + 1 = k) := by
    rw [idx2bit, BitVec.getLsbD_shiftLeft, ← BitVec.twoPow_eq, BitVec.getLsbD_twoPow]
    by_cases h : i + 1 = k
    · simp [← h, (by omega : i < 32)]
      omega
    · by_cases h0 : k < 1
      · simp [h, h0]
      · simp [h]
        omega
  have hsome : (∃ k < j, (idx2bit i <<< 1).getLsbD k = true) ↔ i + 1 < j := by
    constructor
    · rintro ⟨k, hk, hbit⟩
      rw [hshift k (by omega), decide_eq_true_eq] at hbit
      omega
    · intro h
      exact ⟨i + 1, h, by rw [hshift _ (by omega), decide_eq_true_eq]⟩
  rw [leftBits, BitVec.getLsbD_or, BitVec.getLsbD_neg, hshift j hj]
  simp only [hsome, hj]
  rcases lt_trichotomy (i + 1) j with h | h | h
  · simp [h, h.ne, (by omega : i < j)]
  · simp [h, (by omega : i < j)]
  · simp [h.ne', h.not_gt]
    omega

/-! ### Trees -/

inductive Tree where
  | nil
  | node (ring : List ℕ) (size : ℕ) (child0 child1 : Tree)
deriving DecidableEq, Repr

namespace Tree

/-- The chunks of a tree, with their sizes. -/
def chunks : Tree → Multiset (ℕ × ℕ)
  | nil => 0
  | node ring size child0 child1 => ↑(ring.map (·, size)) + child0.chunks + child1.chunks

/-- The first bit of what is left of the size is set. -/
def topBit (K : ℕ) : Bool := K / 2 ^ 31 % 2 = 1

/-- The chunk `X` behind the first one of a ring. -/
def linkSecond (X : ℕ) : List ℕ → List ℕ
  | [] => [X]
  | T :: ring => T :: X :: ring

/-- The loop of `insert_large_chunk`, of the chunk `X` with the size `S`. -/
def insert (X S : ℕ) : Tree → ℕ → Tree
  | nil, _ => node [X] S nil nil
  | node ring size child0 child1, K =>
    if size ≠ S then
      if topBit K then node ring size child0 (child1.insert X S (K * 2 % 2 ^ 32))
      else node ring size (child0.insert X S (K * 2 % 2 ^ 32)) child1
    else node (linkSecond X ring) size child0 child1

/-- The ring without `X`; in the place of its first chunk comes the one that `bk` leads to. -/
def unlinkRing (X : ℕ) : List ℕ → List ℕ
  | [] => []
  | T :: ring => if T = X then ring.getLast?.toList ++ ring.dropLast else T :: ring.erase X

/-- The leaf `R` that `unlink_large_chunk` comes to from the root of a tree, and what is left of the tree. -/
def takeLeaf : Tree → Option ((List ℕ × ℕ) × Tree)
  | nil => none
  | node ring size child0 child1 =>
    match child1.takeLeaf with
    | some (R, child1) => some (R, node ring size child0 child1)
    | none =>
      match child0.takeLeaf with
      | some (R, child0) => some (R, node ring size child0 child1)
      | none => some ((ring, size), nil)

/-- What comes in the place of a node without chunks. -/
def replacement (child0 child1 : Tree) : Tree :=
  match child1.takeLeaf with
  | some ((ring, size), child1) => node ring size child0 child1
  | none =>
    match child0.takeLeaf with
    | some ((ring, size), child0) => node ring size child0 child1
    | none => nil

/-- `unlink_large_chunk`.  A chunk leads to its node and to the parent of it. -/
def unlink (X : ℕ) : Tree → Tree
  | nil => nil
  | node ring size child0 child1 =>
    if X ∈ ring then
      if ring.length = 1 then replacement child0 child1
      else node (unlinkRing X ring) size child0 child1
    else node ring size (child0.unlink X) (child1.unlink X)

/-- The sizes in a tree that begins at `base` and tells `bits` bits apart. -/
def Fits : Tree → ℕ → ℕ → Prop
  | nil, _, _ => True
  | node ring size child0 child1, bits, base =>
    ring ≠ [] ∧ base ≤ size ∧ size < base + 2 ^ bits ∧ child0.Fits (bits - 1) base ∧
      child1.Fits (bits - 1) (base + 2 ^ (bits - 1)) ∧ (bits = 0 → child0 = nil ∧ child1 = nil)

section

variable {t : Tree} {bits base X S K : ℕ}

theorem chunks_eq_zero_of_nil (h : t = nil) : t.chunks = 0 := by rw [h, chunks]

theorem Fits.range (h : t.Fits bits base) : ∀ c ∈ t.chunks, base ≤ c.2 ∧ c.2 < base + 2 ^ bits := by
  induction t generalizing bits base with
  | nil =>
    intro c hc
    exact absurd hc (Multiset.notMem_zero c)
  | node ring size child0 child1 ih0 ih1 =>
    obtain ⟨-, hlo, hhi, h0, h1, hleaf⟩ := h
    intro c hc
    rw [chunks, Multiset.mem_add, Multiset.mem_add, Multiset.mem_coe, List.mem_map] at hc
    rcases hc with (⟨a, -, rfl⟩ | hc) | hc
    · exact ⟨hlo, hhi⟩
    all_goals
      cases bits with
      | zero =>
        obtain ⟨rfl, rfl⟩ := hleaf rfl
        exact absurd hc (Multiset.notMem_zero c)
      | succ b =>
        rw [Nat.add_sub_cancel] at h0 h1
        have hpow : 2 ^ (b + 1) = 2 ^ b + 2 ^ b := by ring
        first
          | have := ih0 h0 c hc
            omega
          | have := ih1 h1 c hc
            omega

theorem Fits.exists_chunk (h : t.Fits bits base) (ht : t ≠ nil) : ∃ c, c ∈ t.chunks := by
  cases t with
  | nil => exact absurd rfl ht
  | node ring size child0 child1 =>
    obtain ⟨a, ha⟩ := List.exists_mem_of_ne_nil ring h.1
    refine ⟨(a, size), ?_⟩
    rw [chunks, Multiset.mem_add, Multiset.mem_add, Multiset.mem_coe, List.mem_map]
    exact .inl (.inl ⟨a, ha, rfl⟩)

/-- The size `S` with the bits shifted out that a tree has passed when it tells `bits` more apart. -/
def key (S bits : ℕ) : ℕ := S * 2 ^ (32 - bits) % 2 ^ 32

theorem key_next {b : ℕ} (hb : b + 1 ≤ 32) : key S (b + 1) * 2 % 2 ^ 32 = key S b := by
  rw [key, key, Nat.mod_mul_mod, mul_assoc, ← pow_succ]
  congr 3
  omega

/-- The first bit tells in which half of the range a size lies. -/
theorem topBit_key {b : ℕ} (hb : b + 1 ≤ 32) (hdvd : 2 ^ (b + 1) ∣ base) (hlo : base ≤ S) (hhi : S < base + 2 ^ (b + 1)) :
    topBit (key S (b + 1)) = true ↔ base + 2 ^ b ≤ S := by
  obtain ⟨c, rfl⟩ := hdvd
  have hsplit : 2 ^ 32 = 2 ^ 31 * 2 := by norm_num
  have hexp : 2 ^ 31 = 2 ^ (32 - (b + 1)) * 2 ^ b := by
    rw [← pow_add]
    congr 1
    omega
  have hbit : key S (b + 1) / 2 ^ 31 % 2 = S / 2 ^ b % 2 := by
    rw [key, hsplit, Nat.mod_mul_right_div_self, Nat.mod_mod, hexp, mul_comm S,
      Nat.mul_div_mul_left _ _ (by positivity)]
  rw [topBit, hbit, decide_eq_true_eq]
  have hpow : 2 ^ (b + 1) = 2 * 2 ^ b := by ring
  obtain ⟨d, rfl⟩ := Nat.exists_eq_add_of_le hlo
  have hdiv : (2 ^ (b + 1) * c + d) / 2 ^ b = 2 * c + d / 2 ^ b := by
    rw [hpow, show 2 * 2 ^ b * c + d = d + 2 ^ b * (2 * c) by ring, Nat.add_mul_div_left _ _ (by positivity)]
    ring
  rw [hdiv]
  have hd : d < 2 * 2 ^ b := by omega
  constructor
  · intro h
    have : d / 2 ^ b ≠ 0 := by omega
    have := Nat.div_ne_zero_iff.mp this
    omega
  · intro h
    have : d / 2 ^ b = 1 := Nat.div_eq_of_lt_le (by omega) (by omega)
    omega

theorem chunks_linkSecond {ring : List ℕ} :
    (((linkSecond X ring).map (·, S) : List (ℕ × ℕ)) : Multiset (ℕ × ℕ)) = (X, S) ::ₘ ↑(ring.map (·, S)) := by
  cases ring with
  | nil => rfl
  | cons T ring => exact Multiset.coe_eq_coe.mpr (List.Perm.swap _ _ _)

/-- A chunk is inserted where its size belongs. -/
theorem insert_spec (h : t.Fits bits base) (hb : bits ≤ 32) (hdvd : 2 ^ bits ∣ base) (hlo : base ≤ S)
    (hhi : S < base + 2 ^ bits) :
    (t.insert X S (key S bits)).Fits bits base ∧ (t.insert X S (key S bits)).chunks = (X, S) ::ₘ t.chunks := by
  induction t generalizing bits base with
  | nil => exact ⟨⟨by simp, hlo, hhi, trivial, trivial, fun _ => ⟨rfl, rfl⟩⟩, rfl⟩
  | node ring size child0 child1 ih0 ih1 =>
    obtain ⟨hring, hslo, hshi, h0, h1, hleaf⟩ := h
    rw [insert]
    by_cases hsize : size = S
    · rw [if_neg (not_not.mpr hsize)]
      subst hsize
      refine ⟨⟨?_, hlo, hhi, h0, h1, hleaf⟩, ?_⟩
      · cases ring <;> simp [linkSecond]
      · rw [chunks, chunks, chunks_linkSecond, Multiset.cons_add, Multiset.cons_add]
    · rw [if_pos hsize]
      cases bits with
      | zero => omega
      | succ b =>
        rw [Nat.add_sub_cancel] at h0 h1
        have hdvd' : 2 ^ b ∣ base := (pow_dvd_pow 2 (Nat.le_succ b)).trans hdvd
        have hpow : 2 ^ (b + 1) = 2 ^ b + 2 ^ b := by ring
        rw [key_next hb]
        by_cases htop : base + 2 ^ b ≤ S
        · rw [if_pos ((topBit_key hb hdvd hlo hhi).mpr htop)]
          obtain ⟨hfits, hchunks⟩ := ih1 h1 (by omega) (Nat.dvd_add hdvd' (dvd_refl _)) htop (by omega)
          refine ⟨⟨hring, hslo, hshi, h0, hfits, fun hz => absurd hz (Nat.succ_ne_zero b)⟩, ?_⟩
          rw [chunks, chunks, hchunks, Multiset.add_cons]
        · rw [if_neg (mt (topBit_key hb hdvd hlo hhi).mp htop)]
          obtain ⟨hfits, hchunks⟩ := ih0 h0 (by omega) hdvd' hlo (by omega)
          refine ⟨⟨hring, hslo, hshi, hfits, h1, fun hz => absurd hz (Nat.succ_ne_zero b)⟩, ?_⟩
          rw [chunks, chunks, hchunks, Multiset.add_cons, Multiset.cons_add]

theorem insert_ne_nil (K : ℕ) : t.insert X S K ≠ nil := by
  cases t with
  | nil => simp [insert]
  | node ring size child0 child1 =>
    rw [insert]
    split_ifs <;> simp

/-! Unlinking -/

theorem perm_unlinkRing {ring : List ℕ} (hX : X ∈ ring) : (X :: unlinkRing X ring).Perm ring := by
  cases ring with
  | nil => cases hX
  | cons T ring =>
    rw [unlinkRing]
    split_ifs with h
    · rw [h]
      refine List.Perm.cons X ?_
      cases hlast : ring.getLast? with
      | none => simp [List.getLast?_eq_none_iff.mp hlast]
      | some R =>
        have happend := List.dropLast_append_getLast? R hlast
        have hcomm : ([R] ++ ring.dropLast).Perm (ring.dropLast ++ [R]) := List.perm_append_comm
        exact hcomm.trans (.of_eq happend)
    · have : X ∈ ring := (List.mem_cons.mp hX).resolve_left (Ne.symm h)
      exact (List.Perm.swap T X _).trans (List.Perm.cons T (List.perm_cons_erase this).symm)

theorem mem_chunks_node {ring : List ℕ} {size : ℕ} {child0 child1 : Tree} {c : ℕ × ℕ} :
    c ∈ (node ring size child0 child1).chunks ↔
      c.1 ∈ ring ∧ c.2 = size ∨ c ∈ child0.chunks ∨ c ∈ child1.chunks := by
  rw [chunks, Multiset.mem_add, Multiset.mem_add, Multiset.mem_coe, List.mem_map, or_assoc]
  refine or_congr_left ⟨?_, ?_⟩
  · rintro ⟨a, ha, rfl⟩
    exact ⟨ha, rfl⟩
  · rintro ⟨ha, rfl⟩
    exact ⟨c.1, ha, rfl⟩

theorem two_pow_pred (h : bits ≠ 0) : 2 ^ bits = 2 ^ (bits - 1) + 2 ^ (bits - 1) := by
  rw [← Nat.two_mul, ← pow_succ', Nat.sub_add_cancel (Nat.pos_of_ne_zero h)]

/-- The leaf that is taken from a tree. -/
theorem takeLeaf_spec (h : t.Fits bits base) (ht : t ≠ nil) :
    ∃ ring size t', t.takeLeaf = some ((ring, size), t') ∧ ring ≠ [] ∧ base ≤ size ∧ size < base + 2 ^ bits ∧
      t'.Fits bits base ∧ t.chunks = ↑(ring.map (·, size)) + t'.chunks := by
  induction t generalizing bits base with
  | nil => exact absurd rfl ht
  | node ring size child0 child1 ih0 ih1 =>
    obtain ⟨hring, hlo, hhi, h0, h1, hleaf⟩ := h
    by_cases h1n : child1 = nil
    · by_cases h0n : child0 = nil
      · subst h1n
        subst h0n
        refine ⟨ring, size, nil, rfl, hring, hlo, hhi, trivial, ?_⟩
        simp only [chunks, add_zero]
      · subst h1n
        obtain ⟨r, s, t', htake, hr, hslo, hshi, hfits, hchunks⟩ := ih0 h0 h0n
        have hbits : bits ≠ 0 := fun hz => h0n (hleaf hz).1
        have hle : 2 ^ (bits - 1) ≤ 2 ^ bits := Nat.pow_le_pow_right (by omega) (by omega)
        refine ⟨r, s, node ring size t' nil, ?_, hr, hslo, by omega,
          ⟨hring, hlo, hhi, hfits, h1, fun hz => absurd hz hbits⟩, ?_⟩
        · rw [takeLeaf, htake]
          rfl
        · simp only [chunks, hchunks]
          abel
    · obtain ⟨r, s, t', htake, hr, hslo, hshi, hfits, hchunks⟩ := ih1 h1 h1n
      have hbits : bits ≠ 0 := fun hz => h1n (hleaf hz).2
      have hpow := two_pow_pred hbits
      refine ⟨r, s, node ring size child0 t', ?_, hr, by omega, by omega,
        ⟨hring, hlo, hhi, h0, hfits, fun hz => absurd hz hbits⟩, ?_⟩
      · rw [takeLeaf, htake]
      · simp only [chunks, hchunks]
        abel

theorem replacement_spec {child0 child1 : Tree} (h0 : child0.Fits (bits - 1) base)
    (h1 : child1.Fits (bits - 1) (base + 2 ^ (bits - 1))) (hleaf : bits = 0 → child0 = nil ∧ child1 = nil) :
    (replacement child0 child1).Fits bits base ∧ (replacement child0 child1).chunks = child0.chunks + child1.chunks := by
  by_cases h1n : child1 = nil
  · subst h1n
    by_cases h0n : child0 = nil
    · subst h0n
      exact ⟨trivial, rfl⟩
    · obtain ⟨r, s, t', htake, hr, hslo, hshi, hfits, hchunks⟩ := takeLeaf_spec h0 h0n
      have hbits : bits ≠ 0 := fun hz => h0n (hleaf hz).1
      have hle : 2 ^ (bits - 1) ≤ 2 ^ bits := Nat.pow_le_pow_right (by omega) (by omega)
      rw [show replacement child0 nil = node r s t' nil by rw [replacement, takeLeaf, htake]]
      refine ⟨⟨hr, hslo, by omega, hfits, h1, fun hz => absurd hz hbits⟩, ?_⟩
      simp only [chunks, hchunks]
  · obtain ⟨r, s, t', htake, hr, hslo, hshi, hfits, hchunks⟩ := takeLeaf_spec h1 h1n
    have hbits : bits ≠ 0 := fun hz => h1n (hleaf hz).2
    have hpow := two_pow_pred hbits
    rw [show replacement child0 child1 = node r s child0 t' by rw [replacement, htake]]
    refine ⟨⟨hr, by omega, by omega, h0, hfits, fun hz => absurd hz hbits⟩, ?_⟩
    rw [chunks, hchunks]
    abel

theorem unlink_of_not_mem (h : ∀ s, (X, s) ∉ t.chunks) : t.unlink X = t := by
  induction t with
  | nil => rfl
  | node ring size child0 child1 ih0 ih1 =>
    have hring : X ∉ ring := fun hX => h size (mem_chunks_node.mpr (.inl ⟨hX, rfl⟩))
    rw [unlink, if_neg hring, ih0 fun s hs => h s (mem_chunks_node.mpr (.inr (.inl hs))),
      ih1 fun s hs => h s (mem_chunks_node.mpr (.inr (.inr hs)))]

/-- A chunk is unlinked, and no other one. -/
theorem unlink_spec (h : t.Fits bits base) (hnodup : (t.chunks.map Prod.fst).Nodup) (hX : (X, S) ∈ t.chunks) :
    (t.unlink X).Fits bits base ∧ (X, S) ::ₘ (t.unlink X).chunks = t.chunks := by
  induction t generalizing bits base with
  | nil => exact absurd hX (Multiset.notMem_zero _)
  | node ring size child0 child1 ih0 ih1 =>
    have hchunks := chunks.eq_2 ring size child0 child1
    have unique {s s' : ℕ} (hs : (X, s) ∈ (node ring size child0 child1).chunks)
        (hs' : (X, s') ∈ (node ring size child0 child1).chunks) : s = s' :=
      (Prod.ext_iff.mp (Multiset.inj_on_of_nodup_map hnodup _ hs _ hs' rfl)).2
    obtain ⟨hring, hlo, hhi, h0, h1, hleaf⟩ := h
    rw [unlink]
    by_cases hmem : X ∈ ring
    · have hS : S = size := unique hX (mem_chunks_node.mpr (.inl ⟨hmem, rfl⟩))
      subst hS
      rw [if_pos hmem]
      by_cases hone : ring.length = 1
      · rw [if_pos hone]
        obtain ⟨hfits, hrep⟩ := replacement_spec h0 h1 hleaf
        refine ⟨hfits, ?_⟩
        obtain ⟨y, rfl⟩ := List.length_eq_one_iff.mp hone
        rw [List.mem_singleton.mp hmem, hrep, hchunks]
        simp only [List.map_cons, List.map_nil, Multiset.coe_singleton]
        rw [← Multiset.singleton_add, add_assoc]
      · rw [if_neg hone]
        have hperm := perm_unlinkRing hmem
        refine ⟨⟨fun hnil => hone ?_, hlo, hhi, h0, h1, hleaf⟩, ?_⟩
        · rw [← hperm.length_eq, hnil]
          rfl
        · rw [chunks, hchunks, ← Multiset.cons_add, ← Multiset.cons_add]
          congr 2
          exact Multiset.coe_eq_coe.mpr (hperm.map (·, S))
    · rw [if_neg hmem]
      rw [hchunks, Multiset.map_add, Multiset.map_add] at hnodup
      have hnodup0 := (Multiset.nodup_add.mp (Multiset.nodup_add.mp hnodup).1).2.1
      have hnodup1 := (Multiset.nodup_add.mp hnodup).2.1
      have hdisj := (Multiset.nodup_add.mp hnodup).2.2
      rcases mem_chunks_node.mp hX with ⟨hX, -⟩ | hX | hX
      · exact absurd hX hmem
      · obtain ⟨hfits, hun⟩ := ih0 h0 hnodup0 hX
        have hother : child1.unlink X = child1 := unlink_of_not_mem fun s hs =>
          Multiset.disjoint_left.mp hdisj (Multiset.mem_add.mpr (.inr (Multiset.mem_map.mpr ⟨_, hX, rfl⟩)))
            (Multiset.mem_map.mpr ⟨_, hs, rfl⟩)
        rw [hother]
        refine ⟨⟨hring, hlo, hhi, hfits, h1, fun hz => ?_⟩, ?_⟩
        · rw [(hleaf hz).1] at hX
          exact absurd hX (Multiset.notMem_zero _)
        · rw [chunks, hchunks, ← hun, Multiset.add_cons, Multiset.cons_add]
      · obtain ⟨hfits, hun⟩ := ih1 h1 hnodup1 hX
        have hother : child0.unlink X = child0 := unlink_of_not_mem fun s hs =>
          Multiset.disjoint_left.mp hdisj (Multiset.mem_add.mpr (.inr (Multiset.mem_map.mpr ⟨_, hs, rfl⟩)))
            (Multiset.mem_map.mpr ⟨_, hX, rfl⟩)
        rw [hother]
        refine ⟨⟨hring, hlo, hhi, h0, hfits, fun hz => ?_⟩, ?_⟩
        · rw [(hleaf hz).2] at hX
          exact absurd hX (Multiset.notMem_zero _)
        · rw [chunks, hchunks, ← hun, Multiset.add_cons]

end

end Tree

/-! ### The search for the best fit -/

/-- Unsigned subtraction. -/
def sub32 (a b : ℕ) : ℕ := (a + 2 ^ 32 - b) % 2 ^ 32

/-- `v`, with its size, and `rsize` -/
structure Fit where
  v : Option (ℕ × ℕ)
  rsize : ℕ
deriving DecidableEq, Repr

/-- A chunk in the place of `v` if it fits better. -/
def Fit.offer (nb : ℕ) (f : Fit) (c : ℕ × ℕ) : Fit :=
  let trem := sub32 c.2 nb
  if trem < f.rsize then ⟨some c, trem⟩ else f

namespace Tree

/-- The first loop of `tmalloc_large`: `t` and the best fit at its end. -/
def descend (nb : ℕ) : Tree → ℕ → Tree → Fit → Tree × Fit
  | nil, _, rst, f => (rst, f)
  | node ring size child0 child1, sizebits, rst, f =>
    let better := f.offer nb (ring.headD 0, size)
    if sub32 size nb < f.rsize ∧ sub32 size nb = 0 then (node ring size child0 child1, better)
    else if topBit sizebits then descend nb child1 (sizebits * 2 % 2 ^ 32) rst better
    else descend nb child0 (sizebits * 2 % 2 ^ 32) (if child1 = nil then rst else child1) better

/-- The loop along `leftmost_child`. -/
def smallest (nb : ℕ) : Tree → Fit → Fit
  | nil, f => f
  | node ring size child0 child1, f =>
    let better := f.offer nb (ring.headD 0, size)
    if child0 = nil then smallest nb child1 better else smallest nb child0 better

end Tree

/-- A fit is a chunk of `C`, or none yet. -/
structure Fit.Valid (nb : ℕ) (C : Multiset (ℕ × ℕ)) (f : Fit) : Prop where
  none : f.v = .none → f.rsize = 2 ^ 32 - nb
  some (c : ℕ × ℕ) : f.v = .some c → c ∈ C ∧ nb ≤ c.2 ∧ f.rsize = c.2 - nb

/-- No chunk of `C` fits better. -/
structure Fit.Best (nb : ℕ) (C : Multiset (ℕ × ℕ)) (f : Fit) : Prop extends f.Valid nb C where
  least (c : ℕ × ℕ) : c ∈ C → nb ≤ c.2 → f.rsize ≤ c.2 - nb

section

variable {nb bits base : ℕ} {C : Multiset (ℕ × ℕ)} {f : Fit} {c : ℕ × ℕ} {t rst : Tree}

theorem sub32_of_le {a : ℕ} (h : nb ≤ a) (ha : a < 2 ^ 32) : sub32 a nb = a - nb := by
  unfold sub32
  omega

theorem sub32_of_lt {a : ℕ} (h : a < nb) (hnb : nb < 2 ^ 32) : sub32 a nb = a + 2 ^ 32 - nb := by
  unfold sub32
  omega

theorem Fit.Valid.rsize_le (h : f.Valid nb C) (hC : ∀ c ∈ C, c.2 < 2 ^ 32) : f.rsize ≤ 2 ^ 32 - nb := by
  cases hv : f.v with
  | none => exact (h.none hv).le
  | some c =>
    obtain ⟨hc, hle, hr⟩ := h.some c hv
    have := hC c hc
    omega

theorem Fit.Valid.mono {D : Multiset (ℕ × ℕ)} (h : f.Valid nb C) (hsub : ∀ c ∈ C, c ∈ D) : f.Valid nb D :=
  ⟨h.none, fun c hc => ⟨hsub c (h.some c hc).1, (h.some c hc).2⟩⟩

theorem Fit.Valid.offer (h : f.Valid nb C) (hC : ∀ c ∈ C, c.2 < 2 ^ 32) (hnb : nb < 2 ^ 32) (hc : c ∈ C) :
    (f.offer nb c).Valid nb C ∧ (f.offer nb c).rsize ≤ f.rsize ∧ (nb ≤ c.2 → (f.offer nb c).rsize ≤ c.2 - nb) := by
  have hlt := hC c hc
  have hr := h.rsize_le hC
  unfold Fit.offer
  by_cases hle : nb ≤ c.2
  · rw [sub32_of_le hle hlt]
    dsimp only
    split_ifs with hbetter
    · exact ⟨⟨by simp, by rintro _ ⟨⟩; exact ⟨hc, hle, rfl⟩⟩, hbetter.le, fun _ => le_rfl⟩
    · exact ⟨h, le_rfl, fun _ => not_lt.mp hbetter⟩
  · rw [sub32_of_lt (not_le.mp hle) hnb]
    dsimp only
    rw [if_neg (by omega)]
    exact ⟨h, le_rfl, fun hle' => absurd hle' hle⟩

namespace Tree

theorem head_mem {ring : List ℕ} {size : ℕ} {child0 child1 : Tree} (h : ring ≠ []) :
    (ring.headD 0, size) ∈ (node ring size child0 child1).chunks := by
  refine mem_chunks_node.mpr (.inl ⟨?_, rfl⟩)
  cases ring with
  | nil => exact absurd rfl h
  | cons a ring => exact List.mem_cons_self

/-- What the loop along `leftmost_child` makes of a fit. -/
theorem smallest_spec (h : t.Fits bits base) (hv : f.Valid nb C) (hC : ∀ c ∈ C, c.2 < 2 ^ 32) (hnb : nb < 2 ^ 32)
    (ht : ∀ c ∈ t.chunks, c ∈ C) (hall : f.rsize = 0 ∨ ∀ c ∈ t.chunks, nb ≤ c.2) :
    (t.smallest nb f).Valid nb C ∧ (t.smallest nb f).rsize ≤ f.rsize ∧
      ∀ c ∈ t.chunks, (t.smallest nb f).rsize ≤ c.2 - nb := by
  induction t generalizing bits base f with
  | nil => exact ⟨hv, le_rfl, fun c hc => absurd hc (Multiset.notMem_zero c)⟩
  | node ring size child0 child1 ih0 ih1 =>
    obtain ⟨hring, hlo, hhi, h0, h1, hleaf⟩ := h
    have hhead : (ring.headD 0, size) ∈ (node ring size child0 child1).chunks := head_mem hring
    obtain ⟨hv', hle, hoffer⟩ := hv.offer hC hnb (ht _ hhead)
    have hin0 (c) (hc : c ∈ child0.chunks) := ht c (mem_chunks_node.mpr (.inr (.inl hc)))
    have hin1 (c) (hc : c ∈ child1.chunks) := ht c (mem_chunks_node.mpr (.inr (.inr hc)))
    have hall' (child : Tree) (hsub : ∀ c ∈ child.chunks, c ∈ (node ring size child0 child1).chunks) :
        (f.offer nb (ring.headD 0, size)).rsize = 0 ∨ ∀ c ∈ child.chunks, nb ≤ c.2 := by
      rcases hall with hzero | hall
      · exact .inl (by omega)
      · exact .inr fun c hc => hall c (hsub c hc)
    have own : (f.offer nb (ring.headD 0, size)).rsize ≤ size - nb := by
      rcases hall with hzero | hall
      · omega
      · exact hoffer (hall _ hhead)
    rw [smallest]
    by_cases h0n : child0 = nil
    · rw [if_pos h0n]
      obtain ⟨hv₁, hle₁, hleast₁⟩ := ih1 h1 hv' hin1 (hall' child1 fun c hc => mem_chunks_node.mpr (.inr (.inr hc)))
      refine ⟨hv₁, hle₁.trans hle, fun c hc => ?_⟩
      rcases mem_chunks_node.mp hc with ⟨-, hsize⟩ | hc | hc
      · rw [hsize]
        exact hle₁.trans own
      · rw [h0n] at hc
        exact absurd hc (Multiset.notMem_zero c)
      · exact hleast₁ c hc
    · rw [if_neg h0n]
      obtain ⟨hv₁, hle₁, hleast₁⟩ := ih0 h0 hv' hin0 (hall' child0 fun c hc => mem_chunks_node.mpr (.inr (.inl hc)))
      refine ⟨hv₁, hle₁.trans hle, fun c hc => ?_⟩
      rcases mem_chunks_node.mp hc with ⟨-, hsize⟩ | hc | hc
      · rw [hsize]
        exact hle₁.trans own
      · exact hleast₁ c hc
      · obtain ⟨c₀, hc₀⟩ := h0.exists_chunk h0n
        have := hleast₁ c₀ hc₀
        have := (h0.range c₀ hc₀).2
        have := (h1.range c hc).1
        omega

/-- What is left of a bin behind the first loop: the sizes in `t` are less than all others that have not been offered. -/
theorem descend_spec (h : t.Fits bits base) (hbits : bits ≤ 32) (hdvd : 2 ^ bits ∣ base) (hlo : base ≤ nb)
    (hhi : nb < base + 2 ^ bits) (hrst : ∃ bits base, rst.Fits bits base)
    (hgreater : ∀ c ∈ rst.chunks, base + 2 ^ bits ≤ c.2) (hv : f.Valid nb C) (hC : ∀ c ∈ C, c.2 < 2 ^ 32) (hnb : nb < 2 ^ 32) (ht : ∀ c ∈ t.chunks, c ∈ C)
    (hr : ∀ c ∈ rst.chunks, c ∈ C) {t' : Tree} {f' : Fit} (hres : t.descend nb (key nb bits) rst f = (t', f')) :
    f'.Valid nb C ∧ f'.rsize ≤ f.rsize ∧ (∃ bits base, t'.Fits bits base) ∧ (∀ c ∈ t'.chunks, c ∈ C) ∧
      (f'.rsize = 0 ∨ ∀ c ∈ t'.chunks, nb ≤ c.2) ∧
      ∀ c, c ∈ t.chunks ∨ c ∈ rst.chunks → nb ≤ c.2 → f'.rsize ≤ c.2 - nb ∨ ∃ c' ∈ t'.chunks, c'.2 ≤ c.2 := by
  induction t generalizing bits base f rst with
  | nil =>
    rw [descend] at hres
    obtain ⟨rfl, rfl⟩ := Prod.mk.inj hres
    refine ⟨hv, le_rfl, hrst, hr, .inr fun c hc => ?_, fun c hc _ => .inr ⟨c, ?_, le_rfl⟩⟩
    · have := hgreater c hc
      omega
    · exact hc.resolve_left (Multiset.notMem_zero c)
  | node ring size child0 child1 ih0 ih1 =>
    have hwhole := h
    obtain ⟨hring, hslo, hshi, h0, h1, hleaf⟩ := h
    have hhead : (ring.headD 0, size) ∈ (node ring size child0 child1).chunks := head_mem hring
    obtain ⟨hv', hle, hoffer⟩ := hv.offer hC hnb (ht _ hhead)
    have hin0 (c) (hc : c ∈ child0.chunks) := ht c (mem_chunks_node.mpr (.inr (.inl hc)))
    have hin1 (c) (hc : c ∈ child1.chunks) := ht c (mem_chunks_node.mpr (.inr (.inr hc)))
    rw [descend] at hres
    by_cases hbreak : sub32 size nb < f.rsize ∧ sub32 size nb = 0
    · rw [if_pos hbreak] at hres
      obtain ⟨rfl, rfl⟩ := Prod.mk.inj hres
      have hzero : (f.offer nb (ring.headD 0, size)).rsize = 0 := by
        rw [Fit.offer, if_pos hbreak.1]
        exact hbreak.2
      exact ⟨hv', hle, ⟨bits, base, hwhole⟩, ht, .inl hzero, fun c _ _ => .inl (hzero.le.trans (Nat.zero_le _))⟩
    · rw [if_neg hbreak] at hres
      cases bits with
      | zero =>
        obtain ⟨rfl, rfl⟩ := hleaf rfl
        rw [if_pos rfl, descend, ite_self] at hres
        obtain ⟨rfl, rfl⟩ := Prod.mk.inj hres
        refine ⟨hv', hle, hrst, hr, .inr fun c hc => ?_, fun c hc hc' => ?_⟩
        · have := hgreater c hc
          omega
        · rcases hc with hc | hc
          · rcases mem_chunks_node.mp hc with ⟨-, hsize⟩ | hc | hc
            · rw [hsize] at hc' ⊢
              exact .inl (hoffer hc')
            all_goals exact absurd hc (Multiset.notMem_zero c)
          · exact .inr ⟨c, hc, le_rfl⟩
      | succ b =>
        rw [Nat.add_sub_cancel] at h0 h1
        rw [key_next hbits] at hres
        have hdvd' : 2 ^ b ∣ base := (pow_dvd_pow 2 (Nat.le_succ b)).trans hdvd
        have hpow : 2 ^ (b + 1) = 2 ^ b + 2 ^ b := by ring
        by_cases htop : base + 2 ^ b ≤ nb
        · rw [if_pos ((topBit_key hbits hdvd hlo hhi).mpr htop)] at hres
          obtain ⟨hv₁, hle₁, hfits₁, hin₁, hall₁, hleast₁⟩ := ih1 h1 (by omega) (Nat.dvd_add hdvd' (dvd_refl _))
            htop (by omega) hrst (fun c hc => by have := hgreater c hc; omega) hv' hin1 hr hres
          refine ⟨hv₁, hle₁.trans hle, hfits₁, hin₁, hall₁, fun c hc hc' => ?_⟩
          rcases hc with hc | hc
          · rcases mem_chunks_node.mp hc with ⟨-, hsize⟩ | hc | hc
            · rw [hsize] at hc' ⊢
              exact .inl (hle₁.trans (hoffer hc'))
            · have := (h0.range c hc).2
              omega
            · exact hleast₁ c (.inl hc) hc'
          · exact hleast₁ c (.inr hc) hc'
        · rw [if_neg (mt (topBit_key hbits hdvd hlo hhi).mp htop)] at hres
          have hgreater₁ : ∀ c ∈ (if child1 = nil then rst else child1).chunks, base + 2 ^ b ≤ c.2 := by
            intro c hc
            split_ifs at hc with h1n
            · have := hgreater c hc
              omega
            · exact (h1.range c hc).1
          obtain ⟨hv₁, hle₁, hfits₁, hin₁, hall₁, hleast₁⟩ := ih0 h0 (by omega) hdvd' hlo (by omega)
            (by split_ifs; exacts [hrst, ⟨_, _, h1⟩]) hgreater₁ hv' hin0 (by split_ifs; exacts [hr, hin1]) hres
          refine ⟨hv₁, hle₁.trans hle, hfits₁, hin₁, hall₁, fun c hc hc' => ?_⟩
          rcases hc with hc | hc
          · rcases mem_chunks_node.mp hc with ⟨-, hsize⟩ | hc | hc
            · rw [hsize] at hc' ⊢
              exact .inl (hle₁.trans (hoffer hc'))
            · exact hleast₁ c (.inl hc) hc'
            · have h1n : child1 ≠ nil := by
                rintro rfl
                exact Multiset.notMem_zero c hc
              rw [if_neg h1n] at hleast₁
              exact hleast₁ c (.inr hc) hc'
          · by_cases h1n : child1 = nil
            · rw [if_pos h1n] at hleast₁
              exact hleast₁ c (.inr hc) hc'
            · rw [if_neg h1n] at hleast₁
              obtain ⟨c₁, hc₁⟩ := h1.exists_chunk h1n
              obtain ⟨hlo₁, hhi₁⟩ := h1.range c₁ hc₁
              have hless := hgreater c hc
              rcases hleast₁ c₁ (.inr hc₁) (by omega) with hr₁ | ⟨c', hc', hle'⟩
              · exact .inl (by omega)
              · exact .inr ⟨c', hc', by omega⟩

end Tree

end

/-! ### The bins -/

structure TreeBins where
  treebins : ℕ → Tree
  treemap : BitVec 32
  /-- The field `index` of a chunk. -/
  index : ℕ → ℕ

namespace TreeBins

/-- `init_bins` -/
def empty : TreeBins := ⟨fun _ => .nil, 0#32, fun _ => 0⟩

/-- `insert_large_chunk` -/
def insertLargeChunk (b : TreeBins) (X S : ℕ) : TreeBins :=
  let I := computeTreeIndex S
  let index := Function.update b.index X I
  if b.treemap &&& idx2bit I = 0#32 then
    ⟨Function.update b.treebins I (.node [X] S .nil .nil), b.treemap ||| idx2bit I, index⟩
  else
    ⟨Function.update b.treebins I ((b.treebins I).insert X S (S * 2 ^ leftshiftForTreeIndex I % 2 ^ 32)), b.treemap, index⟩

/-- `unlink_large_chunk` -/
def unlinkLargeChunk (b : TreeBins) (X : ℕ) : TreeBins :=
  let I := b.index X
  let tree := (b.treebins I).unlink X
  { b with
    treebins := Function.update b.treebins I tree
    treemap := if tree = .nil then b.treemap &&& ~~~idx2bit I else b.treemap }

/-- The chunk that `tmalloc_large` finds. -/
def tmallocLarge (b : TreeBins) (nb : ℕ) : Fit :=
  let idx := computeTreeIndex nb
  let (t, f) := (b.treebins idx).descend nb (nb * 2 ^ leftshiftForTreeIndex idx % 2 ^ 32) .nil ⟨none, sub32 0 nb⟩
  let leftbits := leftBits (idx2bit idx) &&& b.treemap
  let t := if t = .nil ∧ f.v = none ∧ leftbits ≠ 0#32 then b.treebins (computeBit2idx (leastBit leftbits)) else t
  t.smallest nb f

/-- The chunk that `tmalloc_small` finds, where a bin is marked. -/
def tmallocSmall (b : TreeBins) (nb : ℕ) : Fit :=
  match b.treebins (computeBit2idx (leastBit b.treemap)) with
  | .nil => ⟨none, sub32 0 nb⟩
  | .node ring size child0 child1 =>
    let f : Fit := ⟨some (ring.headD 0, size), sub32 size nb⟩
    if child0 = .nil then child1.smallest nb f else child0.smallest nb f

/-- What keeps the bins in order, with the chunks `C` in them. -/
structure Inv (b : TreeBins) (C : Multiset (ℕ × ℕ)) : Prop where
  chunks : ∑ i ∈ Finset.range 32, (b.treebins i).chunks = C
  fits (i : ℕ) : i < 32 → (b.treebins i).Fits (binBits i) (binBase i)
  marked (i : ℕ) : i < 32 → (b.treemap.getLsbD i = true ↔ b.treebins i ≠ .nil)
  index (i : ℕ) (c : ℕ × ℕ) : i < 32 → c ∈ (b.treebins i).chunks → b.index c.1 = i ∧ computeTreeIndex c.2 = i
  large (c : ℕ × ℕ) : c ∈ C → 2 ^ 8 ≤ c.2 ∧ c.2 < 2 ^ 32
  nodup : (C.map Prod.fst).Nodup

variable {b : TreeBins} {C : Multiset (ℕ × ℕ)} {X S nb : ℕ}

theorem Inv.mem_iff (h : b.Inv C) {c : ℕ × ℕ} : c ∈ C ↔ ∃ i < 32, c ∈ (b.treebins i).chunks := by
  rw [← h.chunks, Multiset.mem_sum]
  simp only [Finset.mem_range]

theorem Inv.mem_own (h : b.Inv C) {c : ℕ × ℕ} (hc : c ∈ C) :
    computeTreeIndex c.2 < 32 ∧ c ∈ (b.treebins (computeTreeIndex c.2)).chunks := by
  obtain ⟨i, hi, hmem⟩ := h.mem_iff.mp hc
  rw [(h.index i c hi hmem).2]
  exact ⟨hi, hmem⟩

theorem empty_inv : empty.Inv 0 where
  chunks := Finset.sum_eq_zero fun _ _ => rfl
  fits _ _ := trivial
  marked i _ := by simp [empty]
  index _ c _ hc := absurd hc (Multiset.notMem_zero c)
  large c hc := absurd hc (Multiset.notMem_zero c)
  nodup := Multiset.nodup_zero

theorem sum_update (f : ℕ → Tree) {I : ℕ} (hI : I < 32) (t : Tree) :
    ∑ i ∈ Finset.range 32, (Function.update f I t i).chunks + (f I).chunks =
      ∑ i ∈ Finset.range 32, (f i).chunks + t.chunks := by
  have hmem := Finset.mem_range.mpr hI
  rw [← Finset.add_sum_erase _ _ hmem, ← Finset.add_sum_erase _ (fun i => (f i).chunks) hmem, Function.update_self]
  have hrest : ∑ i ∈ (Finset.range 32).erase I, (Function.update f I t i).chunks =
      ∑ i ∈ (Finset.range 32).erase I, (f i).chunks :=
    Finset.sum_congr rfl fun i hi => by rw [Function.update_of_ne (Finset.ne_of_mem_erase hi)]
  rw [hrest]
  abel

/-- The bin in which `insert_large_chunk` puts a chunk. -/
theorem Inv.insert_tree (h : b.Inv C) (hlo : 2 ^ 8 ≤ S) (hhi : S < 2 ^ 32) :
    ∃ t map, b.insertLargeChunk X S =
        ⟨Function.update b.treebins (computeTreeIndex S) t, map, Function.update b.index X (computeTreeIndex S)⟩ ∧
      t.Fits (binBits (computeTreeIndex S)) (binBase (computeTreeIndex S)) ∧
      t.chunks = (X, S) ::ₘ (b.treebins (computeTreeIndex S)).chunks ∧ t ≠ .nil ∧
      ∀ i < 32, map.getLsbD i = (b.treemap.getLsbD i || decide (computeTreeIndex S = i)) := by
  obtain ⟨hI, -, -⟩ := computeTreeIndex_spec hlo hhi
  obtain ⟨hbase, hbits⟩ := mem_bin hlo hhi
  have hmarked := h.marked _ hI
  generalize hdef : computeTreeIndex S = I at hI hbase hbits hmarked ⊢
  unfold insertLargeChunk
  simp only [hdef]
  by_cases hmap : b.treemap &&& idx2bit I = 0#32
  · rw [if_pos hmap]
    have hbit : b.treemap.getLsbD I = false :=
      Bool.eq_false_iff.mpr fun hb => (WordBits.and_bit_ne_zero _ hI).mpr hb hmap
    have hnil : b.treebins I = .nil := by
      by_contra hne
      rw [hmarked.mpr hne] at hbit
      cases hbit
    refine ⟨_, _, rfl, ⟨by simp, hbase, hbits, trivial, trivial, fun _ => ⟨rfl, rfl⟩⟩, ?_, by simp, fun i hi => ?_⟩
    · rw [hnil]
      rfl
    · exact WordBits.getLsbD_or_bit _ hI
  · rw [if_neg hmap]
    have hbit : b.treemap.getLsbD I = true := (WordBits.and_bit_ne_zero _ hI).mp hmap
    rw [leftshift_eq I hI]
    obtain ⟨hfits, hchunks⟩ := Tree.insert_spec (X := X) (h.fits I hI) (binBits_le I hI)
      (two_pow_dvd_binBase I hI) hbase hbits
    refine ⟨_, _, rfl, hfits, hchunks, Tree.insert_ne_nil _, fun i hi => ?_⟩
    by_cases hiI : I = i
    · rw [← hiI, hbit]
      rfl
    · simp [hiI]

theorem insert_inv (h : b.Inv C) (hlo : 2 ^ 8 ≤ S) (hhi : S < 2 ^ 32) (hX : X ∉ C.map Prod.fst) :
    (b.insertLargeChunk X S).Inv ((X, S) ::ₘ C) := by
  obtain ⟨hI, -, -⟩ := computeTreeIndex_spec hlo hhi
  obtain ⟨t, map, heq, hfits, hchunks, hne, hmap⟩ := h.insert_tree (X := X) hlo hhi
  rw [heq]
  generalize hdef : computeTreeIndex S = I at hI hfits hchunks hne hmap ⊢
  constructor
  · have := sum_update b.treebins hI t
    rw [hchunks, h.chunks, Multiset.add_cons, ← Multiset.cons_add] at this
    exact add_right_cancel this
  · intro i hi
    dsimp only
    by_cases hiI : i = I
    · subst hiI
      rw [Function.update_self]
      exact hfits
    · rw [Function.update_of_ne hiI]
      exact h.fits i hi
  · intro i hi
    dsimp only
    rw [hmap i hi]
    by_cases hiI : i = I
    · subst hiI
      simpa using hne
    · rw [Function.update_of_ne hiI, ← h.marked i hi]
      simp [Ne.symm hiI]
  · intro i c hi hc
    dsimp only at hc ⊢
    have old (hc : c ∈ (b.treebins i).chunks) : Function.update b.index X I c.1 = i ∧ computeTreeIndex c.2 = i := by
      have hcX : c.1 ≠ X := by
        rintro rfl
        exact hX (Multiset.mem_map_of_mem Prod.fst (h.mem_iff.mpr ⟨i, hi, hc⟩))
      rw [Function.update_of_ne hcX]
      exact h.index i c hi hc
    by_cases hiI : i = I
    · subst hiI
      rw [Function.update_self, hchunks, Multiset.mem_cons] at hc
      rcases hc with rfl | hc
      · exact ⟨Function.update_self .., hdef⟩
      · exact old hc
    · rw [Function.update_of_ne hiI] at hc
      exact old hc
  · intro c hc
    rcases Multiset.mem_cons.mp hc with rfl | hc
    · exact ⟨hlo, hhi⟩
    · exact h.large c hc
  · rw [Multiset.map_cons]
    exact Multiset.nodup_cons.mpr ⟨hX, h.nodup⟩

theorem unlink_inv (h : b.Inv ((X, S) ::ₘ C)) : (b.unlinkLargeChunk X).Inv C := by
  obtain ⟨hI, hmem⟩ := h.mem_own (Multiset.mem_cons_self (X, S) C)
  have hindex := (h.index _ _ hI hmem).1
  dsimp only at hI hmem hindex
  generalize computeTreeIndex S = I at hI hmem hindex
  have hle : (b.treebins I).chunks ≤ (X, S) ::ₘ C := by
    rw [← h.chunks]
    exact Finset.single_le_sum_of_canonicallyOrdered (f := fun i => (b.treebins i).chunks) (Finset.mem_range.mpr hI)
  obtain ⟨hfits, hchunks⟩ := Tree.unlink_spec (h.fits I hI)
    (Multiset.nodup_of_le (Multiset.map_le_map hle) h.nodup) hmem
  have hbin : b.unlinkLargeChunk X = ⟨Function.update b.treebins I ((b.treebins I).unlink X),
      if (b.treebins I).unlink X = .nil then b.treemap &&& ~~~idx2bit I else b.treemap, b.index⟩ := by
    rw [unlinkLargeChunk, hindex]
  rw [hbin]
  have hsub (i : ℕ) (c : ℕ × ℕ) (hc : c ∈ (Function.update b.treebins I ((b.treebins I).unlink X) i).chunks) :
      c ∈ (b.treebins i).chunks := by
    by_cases hiI : i = I
    · subst hiI
      rw [Function.update_self] at hc
      rw [← hchunks]
      exact Multiset.mem_cons_of_mem hc
    · rwa [Function.update_of_ne hiI] at hc
  constructor
  · have := sum_update b.treebins hI ((b.treebins I).unlink X)
    rw [h.chunks, ← hchunks, Multiset.add_cons, Multiset.cons_add] at this
    exact add_right_cancel ((Multiset.cons_inj_right _).mp this)
  · intro i hi
    dsimp only
    by_cases hiI : i = I
    · subst hiI
      rw [Function.update_self]
      exact hfits
    · rw [Function.update_of_ne hiI]
      exact h.fits i hi
  · intro i hi
    dsimp only
    by_cases hiI : i = I
    · subst hiI
      rw [Function.update_self]
      split_ifs with hnil
      · rw [idx2bit, WordBits.getLsbD_and_not_bit _ hI hi]
        simp [hnil]
      · rw [h.marked i hi]
        refine iff_of_true (fun hnil' => ?_) hnil
        rw [hnil'] at hmem
        exact Multiset.notMem_zero _ hmem
    · rw [Function.update_of_ne hiI, ← h.marked i hi]
      split_ifs
      · rw [idx2bit, WordBits.getLsbD_and_not_bit _ hI hi]
        simp [Ne.symm hiI]
      · rfl
  · intro i c hi hc
    exact h.index i c hi (hsub i c hc)
  · intro c hc
    exact h.large c (Multiset.mem_cons_of_mem hc)
  · have := h.nodup
    rw [Multiset.map_cons, Multiset.nodup_cons] at this
    exact this.2

/-- Two chunks whose bins differ are ordered as their bins. -/
theorem Inv.lt_of_bin (h : b.Inv C) {i j : ℕ} (hi : i < 32) (hj : j < 32) (hij : i < j) {c d : ℕ × ℕ}
    (hc : c ∈ (b.treebins i).chunks) (hd : d ∈ (b.treebins j).chunks) : c.2 < d.2 := by
  obtain ⟨hlo, hhi⟩ := h.large c (h.mem_iff.mpr ⟨i, hi, hc⟩)
  obtain ⟨hlo', hhi'⟩ := h.large d (h.mem_iff.mpr ⟨j, hj, hd⟩)
  refine lt_of_index_lt hlo hhi hlo' hhi' ?_
  rw [(h.index i c hi hc).2, (h.index j d hj hd).2]
  exact hij

/-- What is left over in the bins behind the one that a size belongs to. -/
theorem Inv.next_bin (h : b.Inv C) {idx : ℕ} (hidx : idx < 32) :
    (leftBits (idx2bit idx) &&& b.treemap = 0#32 ∧ ∀ j < 32, idx < j → b.treebins j = .nil) ∨
      ∃ i < 32, leftBits (idx2bit idx) &&& b.treemap ≠ 0#32 ∧
        computeBit2idx (leastBit (leftBits (idx2bit idx) &&& b.treemap)) = i ∧ idx < i ∧ b.treebins i ≠ .nil ∧
        ∀ j < i, idx < j → b.treebins j = .nil := by
  have hbit (j : ℕ) (hj : j < 32) :
      (leftBits (idx2bit idx) &&& b.treemap).getLsbD j = true ↔ idx < j ∧ b.treebins j ≠ .nil := by
    rw [BitVec.getLsbD_and, getLsbD_leftBits hj, Bool.and_eq_true, decide_eq_true_eq, h.marked j hj]
  by_cases hzero : leftBits (idx2bit idx) &&& b.treemap = 0#32
  · refine .inl ⟨hzero, fun j hj hlt => ?_⟩
    by_contra hne
    have := (hbit j hj).mpr ⟨hlt, hne⟩
    rw [hzero] at this
    simp at this
  · obtain ⟨i, hi, heq, hset, hmin⟩ := leastBit_spec hzero
    obtain ⟨hlt, hne⟩ := (hbit i hi).mp hset
    refine .inr ⟨i, hi, hzero, heq, hlt, hne, fun j hj hjlt => ?_⟩
    by_contra hne'
    have := (hbit j (by omega)).mpr ⟨hjlt, hne'⟩
    rw [hmin j hj] at this
    cases this

theorem start_valid (hnb : 0 < nb) (hnb' : nb < 2 ^ 32) : Fit.Valid nb C ⟨none, sub32 0 nb⟩ := by
  refine ⟨fun _ => ?_, by rintro _ ⟨⟩⟩
  rw [sub32_of_lt hnb hnb', Nat.zero_add]

/-- Chunks that are smaller than the request are in the bins up to its own. -/
theorem Inv.index_le (h : b.Inv C) (hnb : 2 ^ 8 ≤ nb) (hnb' : nb < 2 ^ 32) {c : ℕ × ℕ} (hc : c ∈ C) (hle : nb ≤ c.2) :
    computeTreeIndex nb ≤ computeTreeIndex c.2 := by
  obtain ⟨hlo, hhi⟩ := h.large c hc
  by_contra hlt
  have := lt_of_index_lt hlo hhi hnb hnb' (not_le.mp hlt)
  omega

theorem tmallocLarge_eq {t : Tree} {f : Fit}
    (h : (b.treebins (computeTreeIndex nb)).descend nb (nb * 2 ^ leftshiftForTreeIndex (computeTreeIndex nb) % 2 ^ 32) .nil
      ⟨none, sub32 0 nb⟩ = (t, f)) :
    b.tmallocLarge nb =
      (if t = .nil ∧ f.v = none ∧ leftBits (idx2bit (computeTreeIndex nb)) &&& b.treemap ≠ 0#32 then
        b.treebins (computeBit2idx (leastBit (leftBits (idx2bit (computeTreeIndex nb)) &&& b.treemap)))
      else t).smallest nb f := by
  unfold tmallocLarge
  dsimp only
  rw [h]

theorem tmallocLarge_fits (h : b.Inv C) (hnb : 2 ^ 8 ≤ nb) (hnb' : nb < 2 ^ 32) : (b.tmallocLarge nb).Best nb C := by
  obtain ⟨hidx, -, -⟩ := computeTreeIndex_spec hnb hnb'
  obtain ⟨hbase, hbits⟩ := mem_bin hnb hnb'
  have hC (c : ℕ × ℕ) (hc : c ∈ C) : c.2 < 2 ^ 32 := (h.large c hc).2
  have hin (i : ℕ) (hi : i < 32) (c : ℕ × ℕ) (hc : c ∈ (b.treebins i).chunks) : c ∈ C := h.mem_iff.mpr ⟨i, hi, hc⟩
  have hindex (c : ℕ × ℕ) (hc : c ∈ C) (hle : nb ≤ c.2) := h.index_le hnb hnb' hc hle
  cases hres : (b.treebins (computeTreeIndex nb)).descend nb (nb * 2 ^ leftshiftForTreeIndex (computeTreeIndex nb) % 2 ^ 32)
      .nil ⟨none, sub32 0 nb⟩ with
  | mk t f =>
    rw [tmallocLarge_eq hres]
    rw [leftshift_eq _ hidx] at hres
    generalize computeTreeIndex nb = idx at hidx hbase hbits hindex hres
    have hrst : ∃ bits base, Tree.Fits .nil bits base := ⟨0, 0, trivial⟩
    obtain ⟨hown, hle, ⟨bits, base, hfits⟩, ht, hall, hleast⟩ := Tree.descend_spec (h.fits idx hidx) (binBits_le idx hidx)
      (two_pow_dvd_binBase idx hidx) hbase hbits hrst (fun c hc => absurd hc (Multiset.notMem_zero c))
      (start_valid (by omega) hnb') (fun c hc => hC c (hin idx hidx c hc)) hnb' (fun c hc => hc)
      (fun c hc => absurd hc (Multiset.notMem_zero c)) hres
    have hv : f.Valid nb C := hown.mono (hin idx hidx)
    by_cases hnext : t = .nil ∧ f.v = none ∧ leftBits (idx2bit idx) &&& b.treemap ≠ 0#32
    · rw [if_pos hnext]
      obtain ⟨hnil, hnone, hne⟩ := hnext
      obtain ⟨hzero, -⟩ | ⟨i, hi, -, heq, hlt, hine, hmin⟩ := h.next_bin hidx
      · exact absurd hzero hne
      · rw [heq]
        have own (c : ℕ × ℕ) (hc : c ∈ (b.treebins idx).chunks) : c.2 < nb := by
          by_contra hge
          rcases hleast c (.inl hc) (not_lt.mp hge) with hr | ⟨c', hc', -⟩
          · rw [hv.none hnone] at hr
            have := hC c (hin idx hidx c hc)
            omega
          · rw [hnil] at hc'
            exact Multiset.notMem_zero c' hc'
        have above (c : ℕ × ℕ) (hc : c ∈ (b.treebins i).chunks) : nb ≤ c.2 := by
          have hci := (h.index i c hi hc).2
          obtain ⟨hlo, hhi⟩ := h.large c (hin i hi c hc)
          obtain ⟨-, hmin, -⟩ := computeTreeIndex_spec hlo hhi
          rw [hci] at hmin
          have := minsize_le_minsize i hi idx hlt
          have := binBase_add idx (by omega)
          omega
        obtain ⟨hv', -, hleast'⟩ := Tree.smallest_spec (h.fits i hi) hv hC hnb' (hin i hi) (.inr above)
        refine ⟨hv', fun c hc hge => ?_⟩
        obtain ⟨hj, hmem⟩ := h.mem_own hc
        rcases lt_trichotomy (computeTreeIndex c.2) i with hji | hji | hji
        · rcases (hindex c hc hge).eq_or_lt with heq' | hlt'
          · rw [← heq'] at hmem
            exact absurd (own c hmem) (not_lt.mpr hge)
          · rw [hmin _ hji hlt'] at hmem
            exact absurd hmem (Multiset.notMem_zero c)
        · rw [hji] at hmem
          exact hleast' c hmem
        · obtain ⟨d, hd⟩ := (h.fits i hi).exists_chunk hine
          have := h.lt_of_bin hi hj hji hd hmem
          have := hleast' d hd
          omega
    · rw [if_neg hnext]
      obtain ⟨hv', hle', hleast'⟩ := Tree.smallest_spec hfits hv hC hnb' (fun c hc => hin idx hidx c (ht c hc)) hall
      refine ⟨hv', fun c hc hge => ?_⟩
      obtain ⟨hj, hmem⟩ := h.mem_own hc
      rcases (hindex c hc hge).eq_or_lt with heq' | hlt'
      · rw [← heq'] at hmem
        rcases hleast c (.inl hmem) hge with hr | ⟨c', hc', hle''⟩
        · exact hle'.trans hr
        · have := hleast' c' hc'
          omega
      · by_cases hnil : t = .nil
        · cases hfv : f.v with
          | none =>
            obtain ⟨-, hempty⟩ | ⟨i, -, hne, -⟩ := h.next_bin hidx
            · rw [hempty _ hj hlt'] at hmem
              exact absurd hmem (Multiset.notMem_zero c)
            · exact absurd ⟨hnil, hfv, hne⟩ hnext
          | some d =>
            obtain ⟨hd, hged, hrsize⟩ := hown.some d hfv
            have := h.lt_of_bin hidx hj hlt' hd hmem
            omega
        · obtain ⟨d, hd⟩ := hfits.exists_chunk hnil
          have := h.lt_of_bin hidx hj hlt' (ht d hd) hmem
          have := hleast' d hd
          omega

theorem tmallocSmall_eq (hnb : 0 < nb) (hnb' : nb < 2 ^ 32) {i : ℕ} (heq : computeBit2idx (leastBit b.treemap) = i)
    (hsize : ∀ c ∈ (b.treebins i).chunks, nb ≤ c.2 ∧ c.2 < 2 ^ 32) (hne : ∃ bits base, (b.treebins i).Fits bits base) :
    b.tmallocSmall nb = (b.treebins i).smallest nb ⟨none, sub32 0 nb⟩ := by
  unfold tmallocSmall
  rw [heq]
  cases ht : b.treebins i with
  | nil => rfl
  | node ring size child0 child1 =>
    rw [ht] at hsize hne
    obtain ⟨bits, base, hfits⟩ := hne
    obtain ⟨hle, hlt⟩ := hsize _ (Tree.head_mem hfits.1)
    have hoffer : Fit.offer nb ⟨none, sub32 0 nb⟩ (ring.headD 0, size) = ⟨some (ring.headD 0, size), sub32 size nb⟩ := by
      rw [Fit.offer, if_pos]
      rw [sub32_of_le hle hlt, sub32_of_lt hnb hnb']
      dsimp only
      omega
    rw [Tree.smallest, hoffer]

theorem tmallocSmall_fits (h : b.Inv C) (hmap : b.treemap ≠ 0#32) (hnb : 0 < nb) (hnb' : nb ≤ 2 ^ 8) :
    (b.tmallocSmall nb).Best nb C ∧ (b.tmallocSmall nb).v ≠ none := by
  have hC (c : ℕ × ℕ) (hc : c ∈ C) : c.2 < 2 ^ 32 := (h.large c hc).2
  obtain ⟨i, hi, heq, hset, hmin⟩ := leastBit_spec hmap
  have hin (c : ℕ × ℕ) (hc : c ∈ (b.treebins i).chunks) : c ∈ C := h.mem_iff.mpr ⟨i, hi, hc⟩
  have hlarge (c : ℕ × ℕ) (hc : c ∈ (b.treebins i).chunks) : nb ≤ c.2 := hnb'.trans (h.large c (hin c hc)).1
  have hfits := h.fits i hi
  obtain ⟨d, hd⟩ := hfits.exists_chunk ((h.marked i hi).mp hset)
  rw [tmallocSmall_eq hnb (by omega) heq (fun c hc => ⟨hlarge c hc, hC c (hin c hc)⟩) ⟨_, _, hfits⟩]
  obtain ⟨hv, -, hleast⟩ := Tree.smallest_spec hfits (start_valid hnb (by omega)) hC (by omega) hin (.inr hlarge)
  refine ⟨⟨hv, fun c hc hge => ?_⟩, fun hnone => ?_⟩
  · obtain ⟨hj, hmem⟩ := h.mem_own hc
    rcases lt_trichotomy (computeTreeIndex c.2) i with hji | hji | hji
    · have := (h.marked _ hj).not.mp (by rw [hmin _ hji]; simp)
      rw [not_not.mp this] at hmem
      exact absurd hmem (Multiset.notMem_zero c)
    · rw [hji] at hmem
      exact hleast c hmem
    · have := h.lt_of_bin hi hj hji hd hmem
      have := hleast d hd
      omega
  · have := hleast d hd
    rw [hv.none hnone] at this
    have := hC d (hin d hd)
    omega

/-- The bins after chunks have been inserted and unlinked, with the chunks in them. -/
inductive Reaches : TreeBins → Multiset (ℕ × ℕ) → Prop
  | empty : Reaches empty 0
  | insert {b : TreeBins} {C : Multiset (ℕ × ℕ)} (X S : ℕ) : Reaches b C → 2 ^ 8 ≤ S → S < 2 ^ 32 → X ∉ C.map Prod.fst →
      Reaches (b.insertLargeChunk X S) ((X, S) ::ₘ C)
  | unlink {b : TreeBins} {C : Multiset (ℕ × ℕ)} (X S : ℕ) : Reaches b ((X, S) ::ₘ C) → Reaches (b.unlinkLargeChunk X) C

theorem Reaches.inv (h : Reaches b C) : b.Inv C := by
  induction h with
  | empty => exact empty_inv
  | insert X S _ hlo hhi hX ih => exact insert_inv ih hlo hhi hX
  | unlink X S _ ih => exact unlink_inv ih

/-- After any chunks have been inserted and unlinked in any order, the searches find a chunk that fits best. -/
theorem tmalloc_best (h : Reaches b C) :
    (2 ^ 8 ≤ nb → nb < 2 ^ 32 → (b.tmallocLarge nb).Best nb C) ∧
      (0 < nb → nb ≤ 2 ^ 8 → b.treemap ≠ 0#32 → (b.tmallocSmall nb).Best nb C ∧ (b.tmallocSmall nb).v ≠ none) ∧
      (b.treemap = 0#32 ↔ C = 0) := by
  refine ⟨tmallocLarge_fits h.inv, fun hnb hnb' hmap => tmallocSmall_fits h.inv hmap hnb hnb', fun hmap => ?_, ?_⟩
  · refine Multiset.eq_zero_of_forall_notMem fun c hc => ?_
    obtain ⟨hi, hmem⟩ := h.inv.mem_own hc
    have := (h.inv.marked _ hi).not.mp (by rw [hmap]; simp)
    rw [not_not.mp this] at hmem
    exact Multiset.notMem_zero c hmem
  · rintro rfl
    by_contra hne
    obtain ⟨i, hi, -, hset, -⟩ := leastBit_spec hne
    obtain ⟨d, hd⟩ := (h.inv.fits i hi).exists_chunk ((h.inv.marked i hi).mp hset)
    exact Multiset.notMem_zero d (h.inv.mem_iff.mpr ⟨i, hi, hd⟩)

/-- Three chunks, one of which is taken out again. -/
def threeChunks : TreeBins :=
  (((empty.insertLargeChunk 4096 320).insertLargeChunk 8192 600).insertLargeChunk 16384 360).unlinkLargeChunk 16384

theorem threeChunks_reaches : Reaches threeChunks {(8192, 600), (4096, 320)} :=
  .unlink 16384 360 (.insert 16384 360 (.insert 8192 600 (.insert 4096 320 .empty (by decide) (by decide) (by decide))
    (by decide) (by decide) (by decide)) (by decide) (by decide) (by decide))

theorem tmalloc_best_threeChunks :
    (threeChunks.tmallocLarge 400).Best 400 {(8192, 600), (4096, 320)} ∧
      (threeChunks.tmallocLarge 400).v = some (8192, 600) ∧
      (threeChunks.tmallocSmall 16).Best 16 {(8192, 600), (4096, 320)} ∧
      (threeChunks.tmallocSmall 16).v = some (4096, 320) :=
  ⟨(tmalloc_best threeChunks_reaches).1 (by decide) (by decide), by decide,
    ((tmalloc_best threeChunks_reaches).2.1 (by decide) (by decide) (by decide)).1, by decide⟩

end TreeBins

end Bionic.Dlmalloc
