import Mathlib
import Bionic.ByteMemory
import Bionic.Iterate
import Bionic.LineParser

/-! # Copying up to a byte (`libc/string/memccpy.c`)

`memccpy` copies bytes until one of them is `c` or `n` are copied.  Behind the loop it tells the two apart by the source
pointer, and so returns NULL where `c` is the last of the `n` bytes.  Where `char` is signed, a byte from 0x80 on is
never equal to `c`; and where `src + n` wraps around, nothing is copied (`copiesUpTo_iff`). -/

namespace Bionic.MemCcpy

open Iterate
open ByteMemory (Addr Mem memcpy memcpy_concat memcpy_source memcpy_zero offset_sub offset_succ)
open Sysconf (Byte charToInt ofInt_charToInt)

/-! ### The source -/

/-- The memory and the variables of the loop. -/
structure State where
  mem : Mem
  p : Addr
  q : Addr
  ch : Byte

/-- What a call leaves: the memory, how far it has copied, and its value. -/
structure Result where
  mem : Mem
  q : Addr
  ret : Option Addr

variable (signed : Bool)

/-- One of the four equal parts of the loop's body. -/
def step (c : ℤ) (pEnd : Addr) (s : State) : State ⊕ Result :=
  if charToInt signed s.ch = c ∨ pEnd ≤ s.p then .inr ⟨s.mem, s.q, if pEnd ≤ s.p then none else some s.q⟩
  else .inl ⟨Function.update s.mem s.q (s.mem s.p), s.p + 1, s.q + 1, s.mem s.p⟩

/-- Before the loop. -/
def enter (m : Mem) (dst src : Addr) (c : ℤ) : State := ⟨m, src, dst, ~~~BitVec.ofInt 8 c⟩

/-- `memccpy` returns with this result. -/
def Memccpy (m : Mem) (dst src : Addr) (c : ℤ) (n : BitVec 32) (r : Result) : Prop :=
  Returns (step signed c (src + n)) (enter m dst src c) r

/-! ### What it should do -/

/-- The index of the first `c` among the first `n` bytes of the source. -/
def firstIndex (m : Mem) (src : Addr) (c : Byte) (n : BitVec 32) : Option ℕ :=
  (List.range n.toNat).find? fun i => m (src + BitVec.ofNat 32 i) = c

/-- Exactly `k` bytes are copied, and `ret` is returned. -/
def Copied (m : Mem) (dst src : Addr) (k : ℕ) (ret : Option Addr) (r : Result) : Prop :=
  r.mem = memcpy m dst src k ∧ r.q = dst + BitVec.ofNat 32 k ∧ r.ret = ret

/-- The call ends; it has copied the source up to the first `c` and returns the address behind it, or it has copied `n`
bytes and returns NULL. -/
def CopiesUpTo (m : Mem) (dst src : Addr) (c : Byte) (n : BitVec 32) : Prop :=
  ∃ r, Memccpy signed m dst src c.toNat n r ∧
    match firstIndex m src c n with
    | some k => Copied m dst src (k + 1) (some (dst + BitVec.ofNat 32 (k + 1))) r
    | none => Copied m dst src n.toNat none r

section Loop

variable {signed} {m : Mem} {dst src : Addr} {b c : Byte} {n : BitVec 32} {k : ℕ}

theorem charToInt_eq_iff : charToInt signed b = c.toNat ↔ b = c ∧ (signed = true → c.toNat < 128) := by
  constructor
  · intro h
    have hb : b = c := by simpa [h] using (ofInt_charToInt signed b).symm
    refine ⟨hb, ?_⟩
    rintro rfl
    subst hb
    rw [charToInt, if_pos rfl] at h
    have hlt := BitVec.toInt_lt (x := b)
    omega
  · rintro ⟨rfl, hs⟩
    cases signed with
    | false => rfl
    | true =>
      have hlt := hs rfl
      rw [charToInt, if_pos rfl]
      exact BitVec.toInt_eq_toNat_of_lt (by omega)

/-- `ch != c` -/
theorem enter_ne (c : Byte) : charToInt signed (~~~BitVec.ofInt 8 (c.toNat : ℤ)) ≠ c.toNat := by
  intro h
  have hc : ~~~c = c := by simpa using (charToInt_eq_iff.mp h).1
  have h0 := congrArg (BitVec.getLsbD · 0) hc
  simp at h0

/-- The state behind `k` bytes. -/
def behind (m : Mem) (dst src : Addr) (c : Byte) : ℕ → State
  | 0 => enter m dst src c.toNat
  | k + 1 => ⟨memcpy m dst src (k + 1), src + BitVec.ofNat 32 (k + 1), dst + BitVec.ofNat 32 (k + 1),
      m (src + BitVec.ofNat 32 k)⟩

theorem behind_mem : (behind m dst src c k).mem = memcpy m dst src k := by
  cases k with
  | zero => exact (memcpy_zero m dst src).symm
  | succ k => rfl

theorem behind_p : (behind m dst src c k).p = src + BitVec.ofNat 32 k := by
  cases k with
  | zero => simp [behind, enter]
  | succ k => rfl

theorem behind_q : (behind m dst src c k).q = dst + BitVec.ofNat 32 k := by
  cases k with
  | zero => simp [behind, enter]
  | succ k => rfl

/-- No byte before the last one copied is `c`. -/
theorem behind_ch (h : ∀ i < k, charToInt signed (m (src + BitVec.ofNat 32 i)) ≠ c.toNat) :
    charToInt signed (behind m dst src c k).ch ≠ c.toNat := by
  cases k with
  | zero => exact enter_ne c
  | succ k => exact h k (Nat.lt_succ_self k)

/-- The end of the source is reached behind the last byte. -/
theorem end_le_iff (fits : src.toNat + n.toNat < 2 ^ 32) (hk : k ≤ n.toNat) :
    src + n ≤ src + BitVec.ofNat 32 k ↔ k = n.toNat := by
  rw [BitVec.le_def, BitVec.toNat_add, BitVec.toNat_add, BitVec.toNat_ofNat]
  omega

/-- The destination does not begin inside the source, behind its first byte. -/
def Apart (dst src : Addr) (n : BitVec 32) : Prop := dst = src ∨ n.toNat ≤ (dst - src).toNat

theorem Apart.unread (h : Apart dst src n) (hk : k < n.toNat) : k ≤ (src + BitVec.ofNat 32 k - dst).toNat := by
  have hn := n.isLt
  rcases h with rfl | h
  · rw [offset_sub (by omega)]
  · rw [BitVec.toNat_sub] at h ⊢
    rw [BitVec.toNat_add, BitVec.toNat_ofNat]
    omega

/-- The loop comes to the state behind `k` bytes if none before the last one is `c`. -/
theorem leads_behind (fits : src.toNat + n.toNat < 2 ^ 32) (apart : Apart dst src n) (hk : k ≤ n.toNat)
    (h : ∀ i, i + 1 < k → charToInt signed (m (src + BitVec.ofNat 32 i)) ≠ c.toNat) :
    Leads (step signed c.toNat (src + n)) (enter m dst src c.toNat) (behind m dst src c k) := by
  induction k with
  | zero => exact Leads.refl _
  | succ k ih =>
    refine (ih (by omega) fun i hi => h i (by omega)).tail ?_
    have hch : charToInt signed (behind m dst src c k).ch ≠ c.toNat := behind_ch fun i hi => h i (by omega)
    have hp : ¬ src + n ≤ (behind m dst src c k).p := by
      rw [behind_p, end_le_iff fits (by omega)]
      omega
    have hn := n.isLt
    rw [step, if_neg (not_or_intro hch hp), behind_mem, behind_p, behind_q, memcpy_source (apart.unread (by omega)),
      memcpy_concat (by omega), behind, offset_succ, offset_succ]

/-- What the loop leaves if it stops behind `k` bytes. -/
theorem returns_behind {ret : Option Addr}
    (stops : charToInt signed (behind m dst src c k).ch = c.toNat ∨ src + n ≤ src + BitVec.ofNat 32 k)
    (hret : (if src + n ≤ src + BitVec.ofNat 32 k then none else some (dst + BitVec.ofNat 32 k)) = ret) (r : Result) :
    Returns (step signed c.toNat (src + n)) (behind m dst src c k) r ↔ Copied m dst src k ret r := by
  have hstep : step signed c.toNat (src + n) (behind m dst src c k) =
      .inr ⟨memcpy m dst src k, dst + BitVec.ofNat 32 k, ret⟩ := by
    rw [step, behind_mem, behind_p, behind_q, if_pos stops, hret]
  rw [returns_done_iff hstep, Copied]
  obtain ⟨mem, q, v⟩ := r
  simp

/-- `c` is not found. -/
theorem memccpy_none (fits : src.toNat + n.toNat < 2 ^ 32) (apart : Apart dst src n)
    (h : ∀ i < n.toNat, charToInt signed (m (src + BitVec.ofNat 32 i)) ≠ c.toNat) (r : Result) :
    Memccpy signed m dst src c.toNat n r ↔ Copied m dst src n.toNat none r := by
  have hend : src + n ≤ src + BitVec.ofNat 32 n.toNat := (end_le_iff fits (Nat.le_refl _)).mpr rfl
  rw [Memccpy, (leads_behind fits apart (Nat.le_refl _) fun i hi => h i (by omega)).returns_iff]
  exact returns_behind (Or.inr hend) (if_pos hend) r

/-- `c` is found at `k`. -/
theorem memccpy_some (fits : src.toNat + n.toNat < 2 ^ 32) (apart : Apart dst src n) (hk : k < n.toNat)
    (hc : charToInt signed (m (src + BitVec.ofNat 32 k)) = c.toNat)
    (h : ∀ i < k, charToInt signed (m (src + BitVec.ofNat 32 i)) ≠ c.toNat) (r : Result) :
    Memccpy signed m dst src c.toNat n r ↔
      Copied m dst src (k + 1) (if k + 1 = n.toNat then none else some (dst + BitVec.ofNat 32 (k + 1))) r := by
  rw [Memccpy, (leads_behind fits apart hk fun i hi => h i (by omega)).returns_iff]
  exact returns_behind (Or.inl hc) (by simp only [end_le_iff fits hk]) r

/-- `src + n` wraps around. -/
theorem memccpy_wrap (wraps : 2 ^ 32 ≤ src.toNat + n.toNat) (r : Result) :
    Memccpy signed m dst src c.toNat n r ↔ Copied m dst src 0 none r := by
  have hend : src + n ≤ src + BitVec.ofNat 32 0 := by
    have hs := src.isLt
    have hn := n.isLt
    rw [BitVec.le_def, BitVec.toNat_add, BitVec.toNat_add, BitVec.toNat_ofNat]
    omega
  exact returns_behind (k := 0) (Or.inr hend) (if_pos hend) r

/-- The number of bytes copied can be read off the destination pointer. -/
theorem exists_copied_iff {i j : ℕ} {v w : Option Addr} (hi : i < 2 ^ 32) (hj : j < 2 ^ 32) :
    (∃ r, Copied m dst src i v r ∧ Copied m dst src j w r) ↔ i = j ∧ v = w := by
  constructor
  · rintro ⟨r, h, h'⟩
    refine ⟨?_, h.2.2.symm.trans h'.2.2⟩
    have hq := h.2.1.symm.trans h'.2.1
    rw [← offset_sub (a := dst) hi, hq, offset_sub hj]
  · rintro ⟨rfl, rfl⟩
    exact ⟨⟨memcpy m dst src i, dst + BitVec.ofNat 32 i, v⟩, ⟨rfl, rfl, rfl⟩, ⟨rfl, rfl, rfl⟩⟩

/-! ### When it does so -/

theorem firstIndex_eq_some : firstIndex m src c n = some k ↔
    m (src + BitVec.ofNat 32 k) = c ∧ k < n.toNat ∧ ∀ i < k, m (src + BitVec.ofNat 32 i) ≠ c := by
  simp [firstIndex, List.find?_range_eq_some]

theorem firstIndex_eq_none : firstIndex m src c n = none ↔ ∀ i < n.toNat, m (src + BitVec.ofNat 32 i) ≠ c := by
  simp [firstIndex]

/-- What the call returns when it copies up to `c`. -/
theorem copiesUpTo_some (h : firstIndex m src c n = some k) {i : ℕ} {ret : Option Addr}
    (call : ∀ r, Memccpy signed m dst src c.toNat n r ↔ Copied m dst src i ret r) (hi : i < 2 ^ 32) :
    CopiesUpTo signed m dst src c n ↔ i = k + 1 ∧ ret = some (dst + BitVec.ofNat 32 (k + 1)) := by
  have hk := (firstIndex_eq_some.mp h).2.1
  have hn := n.isLt
  unfold CopiesUpTo
  rw [h]
  simp only [call]
  exact exists_copied_iff hi (by omega)

theorem copiesUpTo_none (h : firstIndex m src c n = none) {i : ℕ}
    (call : ∀ r, Memccpy signed m dst src c.toNat n r ↔ Copied m dst src i none r) (hi : i < 2 ^ 32) :
    CopiesUpTo signed m dst src c n ↔ i = n.toNat := by
  unfold CopiesUpTo
  rw [h]
  simp only [call]
  exact (exists_copied_iff hi n.isLt).trans (and_iff_left rfl)

theorem copiesUpTo_wrap (wraps : 2 ^ 32 ≤ src.toNat + n.toNat) : ¬ CopiesUpTo signed m dst src c n := by
  have hs := src.isLt
  cases h : firstIndex m src c n with
  | some k =>
    rw [copiesUpTo_some h (memccpy_wrap wraps) (by omega)]
    omega
  | none =>
    rw [copiesUpTo_none h (memccpy_wrap wraps) (by omega)]
    omega

/-- Without `c`, the `n` bytes are copied. -/
theorem copiesUpTo_of_none (fits : src.toNat + n.toNat < 2 ^ 32) (apart : Apart dst src n)
    (h : firstIndex m src c n = none) : CopiesUpTo signed m dst src c n := by
  have hne : ∀ i < n.toNat, charToInt signed (m (src + BitVec.ofNat 32 i)) ≠ c.toNat := fun i hi hc =>
    firstIndex_eq_none.mp h i hi (charToInt_eq_iff.mp hc).1
  exact (copiesUpTo_none h (memccpy_none fits apart hne) n.isLt).mpr rfl

/-- With `c` at `k`, it is found unless it is negative as a `char`. -/
theorem copiesUpTo_of_some (fits : src.toNat + n.toNat < 2 ^ 32) (apart : Apart dst src n)
    (h : firstIndex m src c n = some k) :
    CopiesUpTo signed m dst src c n ↔ k + 1 < n.toNat ∧ (signed = true → c.toNat < 128) := by
  obtain ⟨hc, hk, hlt⟩ := firstIndex_eq_some.mp h
  have hn := n.isLt
  by_cases hs : signed = true → c.toNat < 128
  · have hne : ∀ i < k, charToInt signed (m (src + BitVec.ofNat 32 i)) ≠ c.toNat := fun i hi he =>
      hlt i hi (charToInt_eq_iff.mp he).1
    rw [copiesUpTo_some h (memccpy_some fits apart hk (charToInt_eq_iff.mpr ⟨hc, hs⟩) hne) (by omega)]
    rcases Nat.lt_or_ge (k + 1) n.toNat with hlast | hlast
    · simpa [hlast, Nat.ne_of_lt hlast] using hs
    · simp [show k + 1 = n.toNat by omega]
  · have hne : ∀ i < n.toNat, charToInt signed (m (src + BitVec.ofNat 32 i)) ≠ c.toNat := fun i _ he =>
      hs (charToInt_eq_iff.mp he).2
    rw [copiesUpTo_some h (memccpy_none fits apart hne) hn]
    simp [hs]

end Loop

/-- When the call does what it should. -/
def Good (m : Mem) (src : Addr) (c : Byte) (n : BitVec 32) : Prop :=
  src.toNat + n.toNat < 2 ^ 32 ∧
    ∀ k, firstIndex m src c n = some k → k + 1 < n.toNat ∧ (signed = true → c.toNat < 128)

/-- For every memory, byte `c` and `n`, and all buffers that `memccpy` may be called with, the call does what it should
if and only if `src + n` does not wrap around, the first `c` is not the last one of the `n` bytes and it is below 0x80
where `char` is signed. -/
theorem copiesUpTo_iff (m : Mem) (dst src : Addr) (c : Byte) (n : BitVec 32) (apart : Apart dst src n) :
    CopiesUpTo signed m dst src c n ↔ Good signed m src c n := by
  rcases Nat.lt_or_ge (src.toNat + n.toNat) (2 ^ 32) with fits | wraps
  · rw [Good, and_iff_right fits]
    cases h : firstIndex m src c n with
    | some k =>
      rw [copiesUpTo_of_some fits apart h]
      simp
    | none => exact iff_of_true (copiesUpTo_of_none fits apart h) (by simp)
  · exact iff_of_false (copiesUpTo_wrap wraps) fun good => absurd good.1 (by omega)

/-! ### Two bytes -/

/-- `ab` at 0x1000. -/
def abMem : Mem := fun x => if x = 0x1000 then 97 else if x = 0x1001 then 98 else 0

/-- With room behind it, `b` is found. -/
theorem copiesUpTo_room : Apart (0x2000 : Addr) 0x1000 3 ∧ CopiesUpTo false abMem 0x2000 0x1000 98 3 := by
  have apart : Apart (0x2000 : Addr) 0x1000 3 := Or.inr (by decide)
  refine ⟨apart, (copiesUpTo_iff false abMem 0x2000 0x1000 98 3 apart).mpr ⟨by decide, ?_⟩⟩
  intro k hk
  have hfirst : firstIndex abMem 0x1000 98 3 = some 1 := by decide
  obtain rfl : 1 = k := Option.some.inj (hfirst.symm.trans hk)
  decide

/-- As the last one of the bytes it is copied, and NULL is returned. -/
theorem not_copiesUpTo_last : Apart (0x2000 : Addr) 0x1000 2 ∧ firstIndex abMem 0x1000 98 2 = some 1 ∧
    ¬ CopiesUpTo false abMem 0x2000 0x1000 98 2 := by
  have apart : Apart (0x2000 : Addr) 0x1000 2 := Or.inr (by decide)
  have hfirst : firstIndex abMem 0x1000 98 2 = some 1 := by decide
  refine ⟨apart, hfirst, ?_⟩
  rw [copiesUpTo_of_some (by decide) apart hfirst]
  decide

end Bionic.MemCcpy
