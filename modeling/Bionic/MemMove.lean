import Mathlib
import Bionic.ByteMemory

/-! # Moving bytes (`libc/string/memmove.c`)

`memmove` copies forward, by the `memcpy` of `libc/arch-ppc/string/memcpy.c`, where the destination is below the source,
and backward otherwise: whole lines of 32 bytes, then the rest.  Either way no byte of the source is overwritten before
it has been read, so the two buffers may overlap in any way (`memmove_moves`).  The prefetches change nothing. -/

namespace Bionic.MemMove

open ByteMemory (Addr Mem range memcpy_offset memcpy_source memcpy_concat memcpy_cons memcpy_zero offset_succ)

/-- `n` bytes that end within the address space. -/
structure Buffer (n : ℕ) where
  addr : Addr
  fits : addr.toNat + n ≤ 2 ^ 32

/-! ### The source -/

/-- `while (n--) *p1++ = *p2++` -/
def forward : ℕ → Mem → Addr → Addr → Mem
  | 0, m, _, _ => m
  | n + 1, m, p1, p2 => forward n (Function.update m p1 (m p2)) (p1 + 1) (p2 + 1)

/-- `memcpy`: what it returns, and the memory behind it. -/
def memcpy (m : Mem) (s1 s2 : Addr) (n : ℕ) : Addr × Mem :=
  if n = 0 then (s1, m) else (s1, forward n m s1 s2)

/-- The memory and the two pointers of the loops that copy backward. -/
structure Backward where
  mem : Mem
  p : Addr
  q : Addr

/-- `*--q = *--p` -/
def copyByte (s : Backward) : Backward := ⟨Function.update s.mem (s.q - 1) (s.mem (s.p - 1)), s.p - 1, s.q - 1⟩

/-- A loop that copies `i` bytes. -/
def copyBytes : ℕ → Backward → Backward
  | 0, s => s
  | i + 1, s => copyBytes i (copyByte s)

/-- `while ( c1-- )`, with the loop over 32 bytes in it. -/
def copyLines : ℕ → Backward → Backward
  | 0, s => s
  | c1 + 1, s => copyLines c1 (copyBytes 32 s)

/-- `memmove`: what it returns, and the memory behind it. -/
def memmove (m : Mem) (dst src : Addr) (n : ℕ) : Addr × Mem :=
  if dst < src then memcpy m dst src n
  else
    let c0 := n &&& 0x1F
    let c1 := n >>> 5
    let s := copyLines c1 ⟨m, src + BitVec.ofNat 32 n, dst + BitVec.ofNat 32 n⟩
    (dst, (copyBytes c0 s).mem)

/-! ### The two directions -/

section Directions

variable {m : Mem} {dst src : Addr} {i j k n : ℕ}

/-- Copying goes on behind the first `k` bytes, if the source is ahead of the destination by as much as is left of the
address space. -/
theorem forward_eq (m : Mem) (dst src : Addr) (h : (src - dst).toNat + (k + n) ≤ 2 ^ 32) :
    forward n (ByteMemory.memcpy m dst src k) (dst + BitVec.ofNat 32 k) (src + BitVec.ofNat 32 k) =
      ByteMemory.memcpy m dst src (k + n) := by
  induction n generalizing k with
  | zero => rfl
  | succ n ih =>
    have unread : k ≤ (src + BitVec.ofNat 32 k - dst).toNat := by
      rw [BitVec.toNat_sub] at h ⊢
      rw [BitVec.toNat_add, BitVec.toNat_ofNat]
      omega
    rw [forward, memcpy_source unread, memcpy_concat (by omega), ← offset_succ, ← offset_succ, ih (by omega)]
    congr 1
    omega

theorem copyBytes_add (i j : ℕ) (s : Backward) : copyBytes (i + j) s = copyBytes j (copyBytes i s) := by
  induction i generalizing s with
  | zero => rw [Nat.zero_add, copyBytes]
  | succ i ih => rw [Nat.succ_add, copyBytes, ih, copyBytes]

theorem copyLines_eq (c : ℕ) (s : Backward) : copyLines c s = copyBytes (32 * c) s := by
  induction c generalizing s with
  | zero => rfl
  | succ c ih => rw [copyLines, ih, Nat.mul_succ, Nat.add_comm, copyBytes_add]

/-- Copying goes on, down to the first byte, when `j` bytes behind the first `i` are done. -/
theorem copyBytes_eq (m : Mem) (dst src : Addr) (h : i + j ≤ (src - dst - 1).toNat + 1) :
    (copyBytes i ⟨ByteMemory.memcpy m (dst + BitVec.ofNat 32 i) (src + BitVec.ofNat 32 i) j, src + BitVec.ofNat 32 i,
      dst + BitVec.ofNat 32 i⟩).mem = ByteMemory.memcpy m dst src (i + j) := by
  induction i generalizing j with
  | zero => simp [copyBytes]
  | succ i ih =>
    have unread : src + BitVec.ofNat 32 i ∉ range (dst + BitVec.ofNat 32 i + 1) j := by
      have hd : src + BitVec.ofNat 32 i - (dst + BitVec.ofNat 32 i + 1) = src - dst - 1 := by
        bv_omega
      rw [ByteMemory.mem_range, hd]
      omega
    rw [copyBytes, copyByte]
    dsimp only
    rw [offset_succ, offset_succ, BitVec.add_sub_cancel, BitVec.add_sub_cancel, ByteMemory.memcpy_of_notMem unread, memcpy_cons,
      ih (by omega)]
    congr 1
    omega

end Directions

/-! ### The call -/

section Call

variable {n : ℕ}

theorem memmove_below (m : Mem) (dst src : Buffer n) (h : dst.addr < src.addr) :
    memmove m dst.addr src.addr n = (dst.addr, ByteMemory.memcpy m dst.addr src.addr n) := by
  have hs := src.fits
  have hall := forward_eq m dst.addr src.addr (k := 0) (n := n) (by
    rw [BitVec.lt_def] at h
    rw [BitVec.toNat_sub]
    omega)
  rw [memmove, if_pos h, memcpy]
  rcases Nat.eq_zero_or_pos n with rfl | h0
  · rw [if_pos rfl, memcpy_zero]
  · rw [if_neg (by omega)]
    simpa using congrArg (Prod.mk dst.addr) hall

theorem memmove_not_below (m : Mem) (dst src : Buffer n) (h : ¬ dst.addr < src.addr) :
    memmove m dst.addr src.addr n = (dst.addr, ByteMemory.memcpy m dst.addr src.addr n) := by
  have hd := dst.fits
  have hlines : 32 * (n >>> 5) + (n &&& 0x1F) = n := by
    have hc0 : n &&& 0x1F = n % 32 := Nat.and_two_pow_sub_one_eq_mod n 5
    rw [hc0, Nat.shiftRight_eq_div_pow]
    omega
  have hall := copyBytes_eq m dst.addr src.addr (i := n) (j := 0) (by
    rw [BitVec.lt_def] at h
    have hb := src.addr.isLt
    have h1 : (src.addr - dst.addr - 1).toNat = 2 ^ 32 - 1 - (dst.addr.toNat - src.addr.toNat) := by bv_omega
    omega)
  rw [memmove, if_neg h]
  dsimp only
  rw [copyLines_eq, ← copyBytes_add, hlines]
  rw [memcpy_zero] at hall
  exact congrArg (Prod.mk dst.addr) hall

end Call

/-- For every memory and any two buffers of the same length, whether they overlap or not, `memmove` returns the
destination, which then holds the bytes that the source held before; all other memory is unchanged. -/
theorem memmove_moves (m : Mem) {n : ℕ} (dst src : Buffer n) :
    (memmove m dst.addr src.addr n).1 = dst.addr ∧
    (∀ i < n, (memmove m dst.addr src.addr n).2 (dst.addr + BitVec.ofNat 32 i) = m (src.addr + BitVec.ofNat 32 i)) ∧
    ∀ x ∉ range dst.addr n, (memmove m dst.addr src.addr n).2 x = m x := by
  have heq : memmove m dst.addr src.addr n = (dst.addr, ByteMemory.memcpy m dst.addr src.addr n) := by
    by_cases h : dst.addr < src.addr
    · exact memmove_below m dst src h
    · exact memmove_not_below m dst src h
  have hd := dst.fits
  rw [heq]
  exact ⟨rfl, fun i hi => ByteMemory.memcpy_add hi (by omega), fun x hx => ByteMemory.memcpy_of_notMem hx⟩

end Bionic.MemMove
