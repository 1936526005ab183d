import Mathlib

/-! # Byte-addressed memory with 32-bit addresses

Every write is a `fill` of a range of addresses, which may wrap around the end of the address space.
Words and half-words are written in either byte order.  `read32_write32` and its companions say what a
read returns after a write, on the same range or on another one. -/

namespace Bionic.ByteMemory

abbrev Addr := BitVec 32

abbrev Mem := Addr → BitVec 8

inductive Endian where
  | little
  | big
deriving DecidableEq, Repr

/-- The `n` addresses from `a` on. -/
def range (a : Addr) (n : ℕ) : Set Addr := {x | (x - a).toNat < n}

instance (a : Addr) (n : ℕ) : DecidablePred (· ∈ range a n) :=
  fun x => inferInstanceAs (Decidable ((x - a).toNat < n))

/-- Write `n` bytes at `a`. -/
def fill (m : Mem) (a : Addr) (n : ℕ) (f : ℕ → BitVec 8) : Mem :=
  fun x => if (x - a).toNat < n then f (x - a).toNat else m x

/-- `memcpy`. -/
def memcpy (m : Mem) (dst src : Addr) (n : ℕ) : Mem := fill m dst n fun i => m (src + BitVec.ofNat 32 i)

/-- The byte with weight `256 ^ i`. -/
def byteOf {w : ℕ} (v : BitVec w) (i : ℕ) : BitVec 8 := BitVec.ofNat 8 (v.toNat / 256 ^ i)

/-- Where the byte at offset `i` of an object of `n` bytes stands. -/
def Endian.weight (e : Endian) (n i : ℕ) : ℕ :=
  match e with
  | .little => i
  | .big => n - 1 - i

def write32 (e : Endian) (m : Mem) (a : Addr) (v : BitVec 32) : Mem :=
  fill m a 4 fun i => byteOf v (e.weight 4 i)

def write16 (e : Endian) (m : Mem) (a : Addr) (v : BitVec 16) : Mem :=
  fill m a 2 fun i => byteOf v (e.weight 2 i)

/-- The byte with weight `256 ^ i` of the word at `a`. -/
def wordByte (e : Endian) (m : Mem) (a : Addr) (i : ℕ) : ℕ :=
  (m (a + BitVec.ofNat 32 (e.weight 4 i))).toNat

def read32 (e : Endian) (m : Mem) (a : Addr) : BitVec 32 :=
  BitVec.ofNat 32 (wordByte e m a 0 + 256 * wordByte e m a 1 + 256 ^ 2 * wordByte e m a 2 +
    256 ^ 3 * wordByte e m a 3)

/-- The byte with weight `256 ^ i` of the half-word at `a`. -/
def halfByte (e : Endian) (m : Mem) (a : Addr) (i : ℕ) : ℕ :=
  (m (a + BitVec.ofNat 32 (e.weight 2 i))).toNat

def read16 (e : Endian) (m : Mem) (a : Addr) : BitVec 16 :=
  BitVec.ofNat 16 (halfByte e m a 0 + 256 * halfByte e m a 1)

/-! ### Offsets -/

section Offsets

variable {a : Addr} {i : ℕ}

/-- Every address is at some distance from `a`. -/
theorem exists_offset (a x : Addr) : ∃ i < 2 ^ 32, x = a + BitVec.ofNat 32 i := by
  refine ⟨(x - a).toNat, (x - a).isLt, ?_⟩
  rw [BitVec.ofNat_toNat, BitVec.setWidth_eq, BitVec.add_comm, BitVec.sub_add_cancel]

theorem offset_sub (hi : i < 2 ^ 32) : (a + BitVec.ofNat 32 i - a).toNat = i := by
  rw [BitVec.add_comm, BitVec.add_sub_cancel, BitVec.toNat_ofNat, Nat.mod_eq_of_lt hi]

theorem offset_add (a : Addr) (i k : ℕ) : a + BitVec.ofNat 32 i + BitVec.ofNat 32 k = a + BitVec.ofNat 32 (i + k) := by
  rw [BitVec.add_assoc, BitVec.ofNat_add]

theorem offset_succ (a : Addr) (k : ℕ) : a + BitVec.ofNat 32 (k + 1) = a + BitVec.ofNat 32 k + 1 := (offset_add a k 1).symm

theorem offset_one_add (a : Addr) (k : ℕ) : a + BitVec.ofNat 32 (k + 1) = a + 1 + BitVec.ofNat 32 k := by
  rw [Nat.add_comm]
  exact (offset_add a 1 k).symm

end Offsets

/-! ### Ranges -/

section Ranges

variable {a b x : Addr} {n k i : ℕ}

theorem mem_range : x ∈ range a n ↔ (x - a).toNat < n := Iff.rfl

theorem add_mem_range (hi : i < n) (hn : n ≤ 2 ^ 32) : a + BitVec.ofNat 32 i ∈ range a n := by
  rw [mem_range, offset_sub (by omega)]
  exact hi

/-- Ranges that start `d` bytes apart do not meet if both fit in between. -/
theorem disjoint_range {d : ℕ} (hn : n ≤ d) (hk : d + k ≤ 2 ^ 32) :
    Disjoint (range a n) (range (a + BitVec.ofNat 32 d) k) := by
  refine Set.disjoint_left.2 fun x hx hx' => ?_
  rw [mem_range] at hx hx'
  rw [BitVec.toNat_sub] at hx hx'
  rw [BitVec.toNat_add, BitVec.toNat_ofNat] at hx'
  have ha := a.isLt
  have hb := x.isLt
  omega

/-- A range behind the first `d` bytes of another one that is long enough. -/
theorem range_add_subset {d : ℕ} (h : d + k ≤ n) (hk : d + k ≤ 2 ^ 32) : range (a + BitVec.ofNat 32 d) k ⊆ range a n := by
  intro x hx
  rw [mem_range, BitVec.toNat_sub] at hx ⊢
  rw [BitVec.toNat_add, BitVec.toNat_ofNat] at hx
  have hx' := x.isLt
  have ha := a.isLt
  omega

/-- A range at an offset is within another one just when it ends there. -/
theorem range_offset_subset (hn : 0 < n) (hfits : i + n ≤ 2 ^ 32) :
    range (a + BitVec.ofNat 32 i) n ⊆ range a k ↔ i + n ≤ k := by
  constructor
  · intro h
    have hlast := h (add_mem_range (show n - 1 < n by omega) (by omega))
    rw [mem_range, offset_add, offset_sub (by omega)] at hlast
    omega
  · exact fun h => range_add_subset h hfits

end Ranges

/-! ### Reads after a write -/

section Fill

variable {m : Mem} {a b x : Addr} {n k : ℕ} {f : ℕ → BitVec 8} {e : Endian}

theorem fill_of_notMem (h : x ∉ range a n) : fill m a n f x = m x := if_neg h

theorem fill_add {i : ℕ} (hi : i < n) (hn : n ≤ 2 ^ 32) : fill m a n f (a + BitVec.ofNat 32 i) = f i := by
  unfold fill
  rw [offset_sub (by omega), if_pos hi]

theorem memcpy_of_notMem (h : x ∉ range a n) : memcpy m a b n x = m x := fill_of_notMem h

theorem memcpy_add {i : ℕ} (hi : i < n) (hn : n ≤ 2 ^ 32) :
    memcpy m a b n (a + BitVec.ofNat 32 i) = m (b + BitVec.ofNat 32 i) := fill_add hi hn

theorem write32_of_notMem {v : BitVec 32} (h : x ∉ range a 4) : write32 e m a v x = m x :=
  fill_of_notMem h

theorem write16_of_notMem {v : BitVec 16} (h : x ∉ range a 2) : write16 e m a v x = m x :=
  fill_of_notMem h

theorem weight_lt {i : ℕ} (hi : i < n) : e.weight n i < n := by
  cases e with
  | little => exact hi
  | big =>
      show n - 1 - i < n
      omega

theorem weight_weight {i : ℕ} (hi : i < n) : e.weight n (e.weight n i) = i := by
  cases e with
  | little => rfl
  | big =>
      show n - 1 - (n - 1 - i) = i
      omega

theorem wordByte_write32 (v : BitVec 32) {i : ℕ} (hi : i < 4) :
    wordByte e (write32 e m a v) a i = v.toNat / 256 ^ i % 256 := by
  unfold wordByte write32
  rw [fill_add (weight_lt hi) (by omega), weight_weight hi, byteOf, BitVec.toNat_ofNat]

@[simp] theorem read32_write32 (v : BitVec 32) : read32 e (write32 e m a v) a = v := by
  unfold read32
  rw [wordByte_write32 v (by omega), wordByte_write32 v (by omega), wordByte_write32 v (by omega),
    wordByte_write32 v (by omega)]
  apply BitVec.eq_of_toNat_eq
  rw [BitVec.toNat_ofNat]
  have hv := v.isLt
  omega

/-- A read sees only the four bytes of its word. -/
theorem read32_congr {m' : Mem} (h : ∀ x ∈ range a 4, m x = m' x) : read32 e m a = read32 e m' a := by
  have hb : ∀ i < 4, wordByte e m a i = wordByte e m' a i := fun i hi => by
    unfold wordByte
    rw [h _ (add_mem_range (weight_lt hi) (by omega))]
  unfold read32
  rw [hb 0 (by omega), hb 1 (by omega), hb 2 (by omega), hb 3 (by omega)]

theorem read32_write32_of_disjoint {v : BitVec 32} (h : Disjoint (range a 4) (range b 4)) :
    read32 e (write32 e m b v) a = read32 e m a :=
  read32_congr fun _ hx => write32_of_notMem (Set.disjoint_left.1 h hx)

@[simp] theorem read16_write16 (v : BitVec 16) : read16 e (write16 e m a v) a = v := by
  have hb : ∀ i < 2, halfByte e (write16 e m a v) a i = v.toNat / 256 ^ i % 256 := fun i hi => by
    unfold halfByte write16
    rw [fill_add (weight_lt hi) (by omega), weight_weight hi, byteOf, BitVec.toNat_ofNat]
  unfold read16
  rw [hb 0 (by omega), hb 1 (by omega)]
  apply BitVec.eq_of_toNat_eq
  rw [BitVec.toNat_ofNat]
  have hv := v.isLt
  omega

theorem read16_congr {m' : Mem} (h : ∀ x ∈ range a 2, m x = m' x) : read16 e m a = read16 e m' a := by
  have hb : ∀ i < 2, halfByte e m a i = halfByte e m' a i := fun i hi => by
    unfold halfByte
    rw [h _ (add_mem_range (weight_lt hi) (by omega))]
  unfold read16
  rw [hb 0 (by omega), hb 1 (by omega)]

end Fill

/-! ### Copying byte by byte -/

section Copy

variable {m m' : Mem} {a b x : Addr} {n i : ℕ}

theorem memcpy_offset (hi : i < 2 ^ 32) : memcpy m a b n (a + BitVec.ofNat 32 i) =
    if i < n then m (b + BitVec.ofNat 32 i) else m (a + BitVec.ofNat 32 i) := by
  unfold memcpy fill
  rw [offset_sub hi]

@[simp] theorem memcpy_zero (m : Mem) (a b : Addr) : memcpy m a b 0 = m := by
  funext x
  exact fill_of_notMem (by simp [mem_range])

/-- A byte of the source that no copied byte has overwritten. -/
theorem memcpy_source (h : n ≤ (b + BitVec.ofNat 32 i - a).toNat) :
    memcpy m a b n (b + BitVec.ofNat 32 i) = m (b + BitVec.ofNat 32 i) :=
  memcpy_of_notMem (by rw [mem_range]; omega)

/-- One more byte at the end. -/
theorem memcpy_concat (hn : n < 2 ^ 32) :
    Function.update (memcpy m a b n) (a + BitVec.ofNat 32 n) (m (b + BitVec.ofNat 32 n)) = memcpy m a b (n + 1) := by
  funext x
  obtain ⟨i, hi, rfl⟩ := exists_offset a x
  rw [memcpy_offset hi]
  by_cases h : i = n
  · subst h
    rw [Function.update_self, if_pos (Nat.lt_succ_self i)]
  · have hne : a + BitVec.ofNat 32 i ≠ a + BitVec.ofNat 32 n := fun e => h (by rw [← offset_sub hi, e, offset_sub hn])
    rw [Function.update_of_ne hne, memcpy_offset hi]
    by_cases hlt : i < n
    · rw [if_pos hlt, if_pos (by omega)]
    · rw [if_neg hlt, if_neg (by omega)]

/-- One more byte at the start. -/
theorem memcpy_cons :
    Function.update (memcpy m (a + 1) (b + 1) n) a (m b) = memcpy m a b (n + 1) := by
  funext x
  obtain ⟨i, hi, rfl⟩ := exists_offset a x
  rw [memcpy_offset hi]
  cases i with
  | zero => simp
  | succ i =>
    have hne : a + BitVec.ofNat 32 (i + 1) ≠ a := fun e => by
      have h := offset_sub (a := a) hi
      rw [e, BitVec.sub_self] at h
      exact absurd h (Nat.succ_ne_zero i).symm
    rw [Function.update_of_ne hne, offset_one_add a, offset_one_add b, memcpy_offset (by omega)]
    by_cases hlt : i < n
    · rw [if_pos hlt, if_pos (by omega)]
    · rw [if_neg hlt, if_neg (by omega)]

end Copy

/-! ### Lists of bytes -/

section Lists

variable {m : Mem} {a : Addr} {l : List (BitVec 8)} {n k i : ℕ} {e : Endian}

/-- The `n` bytes from `a` on. -/
def bytesAt (m : Mem) (a : Addr) (n : ℕ) : List (BitVec 8) := (List.range n).map fun i => m (a + BitVec.ofNat 32 i)

/-- A list as a memory, from the address 0 on. -/
def ofBytes (l : List (BitVec 8)) : Mem := fun x => l.getD x.toNat 0

@[simp] theorem length_bytesAt : (bytesAt m a n).length = n := by simp [bytesAt]

theorem bytesAt_add (m : Mem) (a : Addr) (n k : ℕ) :
    bytesAt m a (n + k) = bytesAt m a n ++ bytesAt m (a + BitVec.ofNat 32 n) k := by
  rw [bytesAt, List.range_add, List.map_append, List.map_map]
  simp only [bytesAt, Function.comp_def, offset_add]

theorem bytesAt_drop (h : bytesAt m a n = l) (hk : k ≤ n) : bytesAt m (a + BitVec.ofNat 32 k) (n - k) = l.drop k := by
  rw [← h, ← Nat.add_sub_of_le hk, bytesAt_add, Nat.add_sub_cancel_left, List.drop_left' length_bytesAt]

/-- The byte at an offset, where a list is in memory. -/
theorem apply_of_bytesAt (h : bytesAt m a n = l) (hi : i < n) : m (a + BitVec.ofNat 32 i) = l.getD i 0 := by
  subst h
  rw [List.getD_eq_getElem _ _ (by simpa using hi)]
  simp [bytesAt]

theorem bytesAt_fill (hl : l.length ≤ 2 ^ 32) : bytesAt (fill m a l.length fun i => l.getD i 0) a l.length = l := by
  refine List.ext_getElem length_bytesAt fun i _ hi => ?_
  simp only [bytesAt, List.getElem_map, List.getElem_range]
  rw [fill_add hi hl, List.getD_eq_getElem _ _ hi]

theorem read16_of_bytesAt (h : bytesAt m a n = l) (hk : k + 2 ≤ n) (hn : n < 2 ^ 32) :
    read16 e m (a + BitVec.ofNat 32 k) = read16 e (ofBytes l) (BitVec.ofNat 32 k) := by
  have hb : ∀ i < 2, halfByte e m (a + BitVec.ofNat 32 k) i = halfByte e (ofBytes l) (BitVec.ofNat 32 k) i := fun i hi => by
    have hw := weight_lt (e := e) hi
    unfold halfByte ofBytes
    rw [offset_add, ← BitVec.ofNat_add, apply_of_bytesAt h (by omega), BitVec.toNat_ofNat,
      Nat.mod_eq_of_lt (by omega : k + e.weight 2 i < 2 ^ 32)]
  unfold read16
  rw [hb 0 (by omega), hb 1 (by omega)]

end Lists

/-! ### An array of words -/

section Words

variable {m : Mem} {p : Addr} {e : Endian} {i j : ℕ}

/-- `&p[i]`, for a pointer to words. -/
def wordAt (p : Addr) (i : ℕ) : Addr := p + BitVec.ofNat 32 (4 * i)

theorem wordAt_wordAt : wordAt (wordAt p i) j = wordAt p (i + j) := by
  rw [wordAt, wordAt, wordAt, offset_add, Nat.mul_add]

theorem disjoint_wordAt (h : i < j) (hj : j < 2 ^ 30) :
    Disjoint (range (wordAt p i) 4) (range (wordAt p j) 4) := by
  have he : wordAt p j = wordAt p i + BitVec.ofNat 32 (4 * (j - i)) := by
    rw [wordAt, wordAt, offset_add]
    congr 2
    omega
  rw [he]
  exact disjoint_range (by omega) (by omega)

theorem range_wordAt_subset {n : ℕ} (h : 4 * i + 4 ≤ n) (hi : 4 * i + 4 ≤ 2 ^ 32) : range (wordAt p i) 4 ⊆ range p n :=
  range_add_subset h hi

/-- Writing one word of an array. -/
theorem read32_write32_wordAt (v : BitVec 32) (hi : i < 2 ^ 30) (hj : j < 2 ^ 30) :
    read32 e (write32 e m (wordAt p j) v) (wordAt p i) =
      if i = j then v else read32 e m (wordAt p i) := by
  split
  · next h => rw [h, read32_write32]
  · next h =>
    apply read32_write32_of_disjoint
    rcases Nat.lt_or_gt_of_ne h with h | h
    · exact disjoint_wordAt h hj
    · exact (disjoint_wordAt h hi).symm

end Words

end Bionic.ByteMemory
