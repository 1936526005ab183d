import Mathlib
import Bionic.MallocLeakTable

/-! # Guarded blocks of the heap (`libc/bionic/malloc_leak.c`)

`chk_malloc` puts sixteen sentinel bytes in front of the bytes of the user and sixteen behind them, and the size into
the last word of what `dlmalloc` lets it use.  `chk_mem_check` compares the sentinels and reads the size, except on
PowerPC, where it does nothing.  `roundTrip_iff` says for which targets and sizes it finds what `chk_malloc` has stored.

The answers of `dlmalloc` are parameters of the operations, as for leak checking.  A write behind the end of its block
is a fault. -/

namespace Bionic.MallocCheck

open ByteMemory StateExcept
open MallocLeak (Word Fresh)

/-- What differs between the builds: whether it is PowerPC, whether a plain `char` is signed, and the order of the bytes
of a word. -/
structure Target where
  powerpc : Bool
  charSigned : Bool
  endian : Endian

/-- The blocks of the allocator have the sizes that `dlmalloc_usable_size` gives. -/
structure State where
  mem : Mem
  blocks : List (Addr × ℕ)

inductive Fault
  /-- The allocator does not answer so. -/
  | impossible
  /-- The allocator gets a pointer that it has not returned. -/
  | badPointer
  /-- A write behind the end of a block. -/
  | outOfBlock
  /-- `__builtin_trap` -/
  | trap
deriving DecidableEq, Repr

/-! ### The allocator -/

/-- `pad_request` -/
def padRequest (n : ℕ) : ℕ := (n + 4 + 7) / 8 * 8

def DEFAULT_MMAP_THRESHOLD : ℕ := 64 * 1024

/-- What may be usable of a block for `n` bytes.  A chunk is a multiple of eight bytes and has at least sixteen, of
which four are overhead, or eight if it was mapped. -/
def Usable (n u : ℕ) : Prop := n ≤ u ∧ 12 ≤ u ∧ (u % 8 = 4 ∨ u % 8 = 0 ∧ DEFAULT_MMAP_THRESHOLD ≤ padRequest n)

instance (n u : ℕ) : Decidable (Usable n u) := inferInstanceAs (Decidable (_ ∧ _))

/-- The answer of `dlmalloc`: a block, or the null pointer. -/
structure Answer where
  base : Addr
  usable : ℕ

/-- The block is one that `dlmalloc` may return for `n` bytes.  The size of the next chunk stands behind it. -/
def Gives (blocks : List (Addr × ℕ)) (n : Word) (a : Answer) : Prop :=
  Fresh blocks a.base (a.usable + 4) ∧ Usable n.toNat a.usable

instance (blocks : List (Addr × ℕ)) (n : Word) (a : Answer) : Decidable (Gives blocks n a) :=
  inferInstanceAs (Decidable (_ ∧ _))

def dlmalloc (s : State) (n : Word) (a : Answer) : Except Fault State :=
  if a.base = 0#32 then .ok s
  else if Gives s.blocks n a then .ok { s with blocks := (a.base, a.usable) :: s.blocks }
  else .error .impossible

def dlfree (s : State) (a : Addr) : Except Fault State :=
  match s.blocks.lookup a with
  | none => .error .badPointer
  | some _ => .ok { s with blocks := s.blocks.filter fun b => b.1 ≠ a }

/-- `dlmalloc_usable_size` -/
def usableSize (s : State) (a : Addr) : Except Fault ℕ :=
  match s.blocks.lookup a with
  | none => .error .badPointer
  | some u => .ok u

/-- A write of `n` bytes at an offset in a block, which makes the memory `m`. -/
def writeBlock (s : State) (buffer : Addr) (offset n : ℕ) (m : Mem) : Except Fault State := do
  let u ← usableSize s buffer
  if n ≠ 0 ∧ u < offset + n then throw .outOfBlock
  return { s with mem := m }

def memset (s : State) (buffer : Addr) (offset : ℕ) (b : BitVec 8) (n : Word) : Except Fault State :=
  writeBlock s buffer offset n.toNat (fill s.mem (buffer + BitVec.ofNat 32 offset) n.toNat fun _ => b)

/-! ### Sentinels -/

def CHK_FILL_FREE : BitVec 8 := 0xef#8

def CHK_SENTINEL_VALUE : ℕ := 0xeb

def CHK_SENTINEL_HEAD_SIZE : ℕ := 16

def CHK_SENTINEL_TAIL_SIZE : ℕ := 16

def CHK_OVERHEAD_SIZE : Word := BitVec.ofNat 32 (CHK_SENTINEL_HEAD_SIZE + CHK_SENTINEL_TAIL_SIZE + 4)

def gTrapOnError : Bool := true

/-- `assert_log_message` -/
def assertLogMessage : Except Fault Unit := if gTrapOnError then throw .trap else pure ()

/-- A plain `char`, promoted to `int`. -/
def Target.char (t : Target) (b : BitVec 8) : ℤ := if t.charSigned then b.toInt else b.toNat

/-- A loop of `chk_mem_check` over a sentinel. -/
def Target.intact (t : Target) (m : Mem) (buf : Addr) (n : ℕ) : Bool :=
  (List.range n).all fun i => t.char (m (buf + BitVec.ofNat 32 i)) = CHK_SENTINEL_VALUE

/-- `chk_mem_check`: what it returns, and `*allocated`. -/
def chkMemCheck (t : Target) (s : State) (mem : Addr) (allocated : Word) : Except Fault (ℤ × Word) := do
  if t.powerpc then return (0, allocated)
  let buffer := mem - BitVec.ofNat 32 CHK_SENTINEL_HEAD_SIZE
  if t.intact s.mem buffer CHK_SENTINEL_HEAD_SIZE then
    let u ← usableSize s buffer
    let offset := BitVec.ofNat 32 u - 4#32
    let bytes := read32 t.endian s.mem (buffer + offset)
    if t.intact s.mem (mem + bytes) CHK_SENTINEL_TAIL_SIZE then return (0, bytes)
    assertLogMessage
    return (-1, allocated)
  assertLogMessage
  return (-1, allocated)

/-! ### The interface -/

/-- `chk_malloc` -/
def chkMalloc (t : Target) (s : State) (bytes : Word) (a : Answer) : Except Fault (Addr × State) := do
  let buffer := a.base
  let s ← dlmalloc s (bytes + CHK_OVERHEAD_SIZE) a
  if buffer = 0#32 then return (buffer, s)
  let s ← memset s buffer 0 (BitVec.ofNat 8 CHK_SENTINEL_VALUE) (bytes + CHK_OVERHEAD_SIZE)
  let u ← usableSize s buffer
  let offset := BitVec.ofNat 32 u - 4#32
  let s ← writeBlock s buffer offset.toNat 4 (write32 t.endian s.mem (buffer + offset) bytes)
  return (buffer + BitVec.ofNat 32 CHK_SENTINEL_HEAD_SIZE, s)

/-- `chk_free`.  Its local variable `size` is not initialised. -/
def chkFree (t : Target) (s : State) (mem : Addr) (size : Word) : Except Fault State := do
  if mem = 0#32 then return s
  let (ret, size) ← chkMemCheck t s mem size
  if ret = 0 then
    let buffer := mem - BitVec.ofNat 32 CHK_SENTINEL_HEAD_SIZE
    let s ← memset s buffer 0 CHK_FILL_FREE (size + CHK_OVERHEAD_SIZE)
    return ← dlfree s buffer
  return s

/-- `chk_calloc` -/
def chkCalloc (t : Target) (s : State) (n elem : Word) (a : Answer) : Except Fault (Addr × State) := do
  if n ≠ 0#32 ∧ BitVec.allOnes 32 / n < elem then return (0#32, s)
  let size := n * elem
  let (ptr, s) ← chkMalloc t s size a
  if ptr = 0#32 then return (ptr, s)
  return (ptr, ← memset s (ptr - BitVec.ofNat 32 CHK_SENTINEL_HEAD_SIZE) CHK_SENTINEL_HEAD_SIZE 0#8 size)

/-- `chk_realloc`.  The last argument is what is in `size` when it calls `chk_free`. -/
def chkRealloc (t : Target) (s : State) (mem : Addr) (bytes : Word) (a : Answer) (junk : Word) :
    Except Fault (Addr × State) := do
  if mem = 0#32 then return ← chkMalloc t s bytes a
  let (ret, old) ← chkMemCheck t s mem 0#32
  if ret < 0 then return (0#32, s)
  let (q, s) ← chkMalloc t s bytes a
  if q = 0#32 then return (q, s)
  let size := if bytes < old then bytes else old
  let s ← writeBlock s (q - BitVec.ofNat 32 CHK_SENTINEL_HEAD_SIZE) CHK_SENTINEL_HEAD_SIZE size.toNat
    (memcpy s.mem q mem size.toNat)
  return (q, ← chkFree t s mem junk)

/-! ### What the target compares -/

section

variable {t : Target} {m : Mem} {a : Addr} {n : ℕ}

/-- A signed character is never 0xeb. -/
theorem not_intact (signed : t.charSigned = true) (pos : 0 < n) : t.intact m a n = false := by
  refine List.all_eq_false.2 ⟨0, List.mem_range.2 pos, fun same => ?_⟩
  have eq := of_decide_eq_true same
  rw [Target.char, if_pos signed] at eq
  have := (m (a + BitVec.ofNat 32 0)).isLt
  have lt : (m (a + BitVec.ofNat 32 0)).toInt < 2 ^ 7 := BitVec.toInt_lt
  rw [eq] at lt
  exact absurd lt (by decide)

theorem intact_of_eq (unsigned : t.charSigned = false) (h : ∀ i < n, m (a + BitVec.ofNat 32 i) = 0xeb#8) :
    t.intact m a n = true := by
  refine List.all_eq_true.2 fun i hi => decide_eq_true ?_
  rw [Target.char, if_neg (by rw [unsigned]; exact Bool.false_ne_true), h i (List.mem_range.1 hi)]
  rfl

end

/-! ### Writes in a block -/

section

variable {s : State} {buffer : Addr} {offset n u : ℕ} {m : Mem}

theorem usableSize_eq (live : s.blocks.lookup buffer = some u) : usableSize s buffer = .ok u := by
  rw [usableSize, live]

theorem writeBlock_eq (live : s.blocks.lookup buffer = some u) (fits : n ≠ 0 → offset + n ≤ u) :
    writeBlock s buffer offset n m = .ok { s with mem := m } := by
  rw [writeBlock, usableSize_eq live]
  exact if_neg fun out => Nat.not_lt.2 (fits out.1) out.2

theorem writeBlock_out (live : s.blocks.lookup buffer = some u) (pos : n ≠ 0) (behind : u < offset + n) :
    writeBlock s buffer offset n m = .error .outOfBlock := by
  rw [writeBlock, usableSize_eq live]
  exact if_pos ⟨pos, behind⟩

end

/-- An address with an offset that is not in a part of the block. -/
theorem notMem_range {a : Addr} {o d n : ℕ} (out : o < d ∨ d + n ≤ o) (lt : o < 2 ^ 32) (le : d + n ≤ 2 ^ 32) :
    a + BitVec.ofNat 32 o ∉ range (a + BitVec.ofNat 32 d) n := by
  rw [mem_range, BitVec.toNat_sub, BitVec.toNat_add, BitVec.toNat_add, BitVec.toNat_ofNat, BitVec.toNat_ofNat]
  have := a.isLt
  omega

theorem offset_eq {u : ℕ} (le : 4 ≤ u) (lt : u < 2 ^ 32) :
    BitVec.ofNat 32 u - 4#32 = BitVec.ofNat 32 (u - 4) := by
  apply BitVec.eq_of_toNat_eq
  rw [BitVec.toNat_sub, BitVec.toNat_ofNat, BitVec.toNat_ofNat]
  simp only [BitVec.toNat_ofNat]
  omega

theorem overhead_toNat {bytes : Word} (room : bytes.toNat + 36 < 2 ^ 32) :
    (bytes + CHK_OVERHEAD_SIZE).toNat = bytes.toNat + 36 := by
  rw [BitVec.toNat_add]
  exact Nat.mod_eq_of_lt room

section

variable {s : State} {n : Word} {a : Answer}

theorem dlmalloc_eq (gives : Gives s.blocks n a) :
    dlmalloc s n a = .ok { s with blocks := (a.base, a.usable) :: s.blocks } := by
  rw [dlmalloc, if_neg gives.1.1, if_pos gives]

theorem sentinel_ne_zero {base : Addr} (bound : base.toNat + 16 < 2 ^ 32) : base + 16#32 ≠ 0#32 := by
  intro zero
  have := congrArg BitVec.toNat zero
  rw [BitVec.toNat_add] at this
  simp only [BitVec.toNat_ofNat] at this
  omega

theorem Gives.user_ne_zero (gives : Gives s.blocks n a) : a.base + 16#32 ≠ 0#32 := by
  obtain ⟨⟨-, -, bound, -⟩, -, twelve, -⟩ := gives
  exact sentinel_ne_zero (by omega)

/-- A new block does not meet the others. -/
theorem Gives.disjoint (gives : Gives s.blocks n a) {b : Addr} {u : ℕ} (live : s.blocks.lookup b = some u)
    (bound : b.toNat + u < 2 ^ 32) : b ≠ a.base ∧ Disjoint (range b u) (range a.base a.usable) := by
  obtain ⟨before, after, split_at, -⟩ := List.lookup_eq_some_iff.1 live
  have mem : (b, u) ∈ s.blocks := split_at ▸ List.mem_append_right _ List.mem_cons_self
  obtain ⟨⟨-, -, bound', meets⟩, -⟩ := gives
  obtain ⟨ne, apart⟩ := meets _ mem
  refine ⟨ne, Set.disjoint_left.2 fun x hx hx' => ?_⟩
  rw [mem_range, BitVec.toNat_sub] at hx hx'
  have := x.isLt
  simp only at apart
  omega

end

/-! ### Guarded blocks -/

/-- The block has been guarded for so many bytes of the user. -/
structure Guarded (t : Target) (s : State) (a : Answer) (bytes : Word) : Prop where
  live : s.blocks.lookup a.base = some a.usable
  fits : bytes.toNat + 36 ≤ a.usable
  bound : a.base.toNat + a.usable < 2 ^ 32
  null : a.base ≠ 0#32
  head : ∀ i < 16, s.mem (a.base + BitVec.ofNat 32 i) = 0xeb#8
  tail : ∀ i < 16, s.mem (a.base + BitVec.ofNat 32 (16 + bytes.toNat + i)) = 0xeb#8
  size : read32 t.endian s.mem (a.base + BitVec.ofNat 32 (a.usable - 4)) = bytes

section Guarded

variable {t : Target} {s s' : State} {a : Answer} {bytes : Word} {m : Mem}

/-- What is outside of the bytes of the user matters. -/
theorem Guarded.congr (g : Guarded t s a bytes) (live : s'.blocks.lookup a.base = some a.usable)
    (same : ∀ x ∈ range a.base a.usable, x ∉ range (a.base + 16#32) bytes.toNat → s'.mem x = s.mem x) :
    Guarded t s' a bytes := by
  have bound := g.bound
  have fits := g.fits
  have at_offset (o : ℕ) (lt : o < a.usable) (out : o < 16 ∨ 16 + bytes.toNat ≤ o) :
      s'.mem (a.base + BitVec.ofNat 32 o) = s.mem (a.base + BitVec.ofNat 32 o) :=
    same _ (add_mem_range lt (by omega)) (notMem_range out (by omega) (by omega))
  refine ⟨live, g.fits, g.bound, g.null, fun i hi => ?_, fun i hi => ?_, ?_⟩
  · exact (at_offset i (by omega) (.inl hi)).trans (g.head i hi)
  · exact (at_offset _ (by omega) (.inr (by omega))).trans (g.tail i hi)
  · refine (read32_congr fun x hx => same x (range_add_subset (by omega) (by omega) hx) fun user => ?_).trans g.size
    have apart : Disjoint (range (a.base + 16#32) bytes.toNat)
        (range (a.base + 16#32 + BitVec.ofNat 32 (a.usable - 4 - 16)) 4) := disjoint_range (by omega) (by omega)
    rw [offset_add, Nat.add_sub_cancel' (by omega)] at apart
    exact Set.disjoint_left.1 apart user hx

theorem Guarded.check (g : Guarded t s a bytes) (other : t.powerpc = false) (unsigned : t.charSigned = false)
    (allocated : Word) : chkMemCheck t s (a.base + 16#32) allocated = .ok (0, bytes) := by
  have bound := g.bound
  have fits := g.fits
  have tail : t.intact s.mem (a.base + 16#32 + bytes) 16 = true := by
    refine intact_of_eq unsigned fun i hi => ?_
    have sum : a.base + 16#32 + bytes + BitVec.ofNat 32 i = a.base + BitVec.ofNat 32 (16 + bytes.toNat + i) := by
      rw [BitVec.ofNat_add, BitVec.ofNat_add, BitVec.ofNat_toNat, BitVec.setWidth_eq, BitVec.add_assoc,
        BitVec.add_assoc, BitVec.add_assoc]
    rw [sum]
    exact g.tail i hi
  rw [chkMemCheck, if_neg (by rw [other]; exact Bool.false_ne_true)]
  simp only [CHK_SENTINEL_HEAD_SIZE, CHK_SENTINEL_TAIL_SIZE, BitVec.add_sub_cancel]
  rw [if_pos (intact_of_eq unsigned g.head), usableSize_eq g.live, ok_bind, offset_eq (by omega) (by omega), g.size,
    if_pos tail]
  rfl

/-! ### What `chk_malloc` stores -/

/-- The memory after `chk_malloc`. -/
def guardMem (t : Target) (m : Mem) (a : Answer) (bytes : Word) : Mem :=
  write32 t.endian (fill m a.base (bytes + CHK_OVERHEAD_SIZE).toNat fun _ => 0xeb#8)
    (a.base + BitVec.ofNat 32 (a.usable - 4)) bytes

theorem chkMalloc_eq (gives : Gives s.blocks (bytes + CHK_OVERHEAD_SIZE) a) :
    chkMalloc t s bytes a =
      .ok (a.base + 16#32, ⟨guardMem t s.mem a bytes, (a.base, a.usable) :: s.blocks⟩) := by
  obtain ⟨⟨null, -, bound, -⟩, enough, twelve, -⟩ := id gives
  have live : List.lookup a.base ((a.base, a.usable) :: s.blocks) = some a.usable := List.lookup_cons_self
  have offset : (BitVec.ofNat 32 (a.usable - 4)).toNat + 4 = a.usable := by
    rw [BitVec.toNat_ofNat]
    omega
  rw [chkMalloc, dlmalloc_eq gives, ok_bind, if_neg null, memset, writeBlock_eq live fun _ => by omega, ok_bind,
    usableSize_eq live, ok_bind, offset_eq (by omega) (by omega)]
  dsimp only
  rw [writeBlock_eq live fun _ => by omega, ok_bind, BitVec.add_zero]
  rfl

theorem guardMem_of_notMem (gives : Gives s.blocks (bytes + CHK_OVERHEAD_SIZE) a) {x : Addr}
    (out : x ∉ range a.base a.usable) : guardMem t m a bytes x = m x := by
  obtain ⟨⟨-, -, bound, -⟩, enough, twelve, -⟩ := gives
  rw [guardMem, write32_of_notMem fun hx => out (range_add_subset (by omega) (by omega) hx)]
  exact fill_of_notMem fun hx => out (Nat.lt_of_lt_of_le (mem_range.1 hx) enough)

theorem chkMalloc_guarded (gives : Gives s.blocks (bytes + CHK_OVERHEAD_SIZE) a) (room : bytes.toNat + 36 < 2 ^ 32) :
    Guarded t ⟨guardMem t s.mem a bytes, (a.base, a.usable) :: s.blocks⟩ a bytes := by
  obtain ⟨⟨null, -, bound, -⟩, enough, -⟩ := gives
  have total := overhead_toNat room
  rw [total] at enough
  have sentinel (o : ℕ) (lt : o < bytes.toNat + 32) :
      guardMem t s.mem a bytes (a.base + BitVec.ofNat 32 o) = 0xeb#8 := by
    rw [guardMem, write32_of_notMem (notMem_range (by omega) (by omega) (by omega)), total]
    exact fill_add (by omega) (by omega)
  refine ⟨List.lookup_cons_self, enough, by omega, null, fun i hi => ?_, fun i hi => ?_, ?_⟩
  · exact sentinel i (by omega)
  · exact sentinel _ (by omega)
  · exact read32_write32 bytes

/-! ### `chk_free` and `chk_realloc` -/

theorem Guarded.user_ne_zero (g : Guarded t s a bytes) : a.base + 16#32 ≠ 0#32 :=
  sentinel_ne_zero (Nat.lt_of_le_of_lt (Nat.add_le_add_left (by have := g.fits; omega) _) g.bound)

theorem Guarded.free (g : Guarded t s a bytes) (other : t.powerpc = false) (unsigned : t.charSigned = false)
    (junk : Word) : ∃ m, chkFree t s (a.base + 16#32) junk = .ok ⟨m, s.blocks.filter fun b => b.1 ≠ a.base⟩ ∧
      ∀ x ∉ range a.base a.usable, m x = s.mem x := by
  have bound := g.bound
  have fits := g.fits
  have total : (bytes + CHK_OVERHEAD_SIZE).toNat = bytes.toNat + 36 := overhead_toNat (by omega)
  refine ⟨fill s.mem a.base (bytes.toNat + 36) fun _ => CHK_FILL_FREE, ?_, fun x hx => ?_⟩
  · rw [chkFree, if_neg g.user_ne_zero, g.check other unsigned, ok_bind]
    dsimp only
    rw [if_pos rfl]
    simp only [CHK_SENTINEL_HEAD_SIZE, BitVec.add_sub_cancel]
    rw [memset, writeBlock_eq g.live fun _ => by omega, total, BitVec.add_zero, ok_bind, dlfree, g.live]
  · exact fill_of_notMem fun hx' => hx (Nat.lt_of_lt_of_le (mem_range.1 hx') fits)

/-- The bytes that `chk_realloc` copies fit behind the sentinel of the new block. -/
def CopyFits (old new : Word) (a : Answer) : Prop :=
  0 < min old.toNat new.toNat → 16 + min old.toNat new.toNat ≤ a.usable

theorem toNat_min (old new : Word) : (if new < old then new else old).toNat = min old.toNat new.toNat := by
  split
  · next lt => exact (Nat.min_eq_right (Nat.le_of_lt (BitVec.lt_def.1 lt))).symm
  · next le => exact (Nat.min_eq_left (Nat.le_of_not_lt fun lt => le (BitVec.lt_def.2 lt))).symm

section Realloc

variable {new : Word} {a' : Answer}

/-- `chk_realloc` up to the copy. -/
theorem Guarded.realloc_eq (g : Guarded t s a bytes) (other : t.powerpc = false) (unsigned : t.charSigned = false)
    (gives : Gives s.blocks (new + CHK_OVERHEAD_SIZE) a') (junk : Word) :
    chkRealloc t s (a.base + 16#32) new a' junk = (do
      let s₁ : State := ⟨guardMem t s.mem a' new, (a'.base, a'.usable) :: s.blocks⟩
      let s₂ ← writeBlock s₁ a'.base 16 (min bytes.toNat new.toNat)
        (memcpy s₁.mem (a'.base + 16#32) (a.base + 16#32) (min bytes.toNat new.toNat))
      return (a'.base + 16#32, ← chkFree t s₂ (a.base + 16#32) junk)) := by
  rw [chkRealloc, if_neg g.user_ne_zero, g.check other unsigned, ok_bind]
  dsimp only
  rw [if_neg (lt_irrefl _), chkMalloc_eq gives, ok_bind]
  dsimp only
  rw [if_neg gives.user_ne_zero]
  simp only [toNat_min, CHK_SENTINEL_HEAD_SIZE, BitVec.add_sub_cancel]

theorem Guarded.realloc (g : Guarded t s a bytes) (other : t.powerpc = false) (unsigned : t.charSigned = false)
    (gives : Gives s.blocks (new + CHK_OVERHEAD_SIZE) a') (fits : CopyFits bytes new a') (junk : Word) :
    ∃ s', chkRealloc t s (a.base + 16#32) new a' junk = .ok (a'.base + 16#32, s') ∧
      ∀ i < min bytes.toNat new.toNat,
        s'.mem (a'.base + 16#32 + BitVec.ofNat 32 i) = s.mem (a.base + 16#32 + BitVec.ofNat 32 i) := by
  have bound := g.bound
  have room := g.fits
  obtain ⟨ne, apart⟩ := gives.disjoint g.live bound
  have bound' := gives.1.2.2.1
  have lt := bytes.isLt
  have live : List.lookup a.base ((a'.base, a'.usable) :: s.blocks) = some a.usable := by
    rw [List.lookup_cons, beq_eq_false_iff_ne.2 ne]
    exact g.live
  have copyRange : range (a'.base + 16#32) (min bytes.toNat new.toNat) ⊆ range a'.base a'.usable := by
    intro x hx
    have pos : 0 < min bytes.toNat new.toNat := Nat.zero_lt_of_lt (mem_range.1 hx)
    exact range_add_subset (fits pos) (by omega) hx
  set m := memcpy (guardMem t s.mem a' new) (a'.base + 16#32) (a.base + 16#32) (min bytes.toNat new.toNat) with m_eq
  have old (x : Addr) (hx : x ∈ range a.base a.usable) : m x = s.mem x := by
    have out := Set.disjoint_left.1 apart hx
    rw [m_eq, memcpy_of_notMem fun hx' => out (copyRange hx'), guardMem_of_notMem gives out]
  have g' : Guarded t ⟨m, (a'.base, a'.usable) :: s.blocks⟩ a bytes := g.congr live fun x hx _ => old x hx
  obtain ⟨m', freed, frame⟩ := g'.free other unsigned junk
  have run : chkRealloc t s (a.base + 16#32) new a' junk =
      .ok (a'.base + 16#32, ⟨m', ((a'.base, a'.usable) :: s.blocks).filter fun b => b.1 ≠ a.base⟩) := by
    rw [g.realloc_eq other unsigned gives]
    dsimp only
    rw [writeBlock_eq List.lookup_cons_self fun pos => fits (Nat.pos_of_ne_zero pos), ok_bind, ← m_eq, freed]
    rfl
  refine ⟨_, run, fun i hi => ?_⟩
  have copied : a'.base + 16#32 + BitVec.ofNat 32 i ∈ range (a'.base + 16#32) (min bytes.toNat new.toNat) :=
    add_mem_range hi (by omega)
  have source : a.base + 16#32 + BitVec.ofNat 32 i ∈ range a.base a.usable :=
    range_add_subset (d := 16) (k := bytes.toNat) (by omega) (by omega) (add_mem_range (by omega) (by omega))
  calc m' (a'.base + 16#32 + BitVec.ofNat 32 i)
      = m (a'.base + 16#32 + BitVec.ofNat 32 i) := frame _ fun hx => Set.disjoint_left.1 apart hx (copyRange copied)
    _ = guardMem t s.mem a' new (a.base + 16#32 + BitVec.ofNat 32 i) := memcpy_add hi (by omega)
    _ = s.mem (a.base + 16#32 + BitVec.ofNat 32 i) := guardMem_of_notMem gives (Set.disjoint_left.1 apart source)

theorem Guarded.realloc_out (g : Guarded t s a bytes) (other : t.powerpc = false) (unsigned : t.charSigned = false)
    (gives : Gives s.blocks (new + CHK_OVERHEAD_SIZE) a') (out : ¬ CopyFits bytes new a') (junk : Word) :
    chkRealloc t s (a.base + 16#32) new a' junk = .error .outOfBlock := by
  obtain ⟨pos, behind⟩ := Classical.not_imp.1 out
  rw [g.realloc_eq other unsigned gives]
  dsimp only
  rw [writeBlock_out List.lookup_cons_self (Nat.ne_of_gt pos) (Nat.lt_of_not_le behind), error_bind]

end Realloc

end Guarded

/-! ### Requests -/

inductive Request
  | malloc (bytes : Word)
  | calloc (n elem : Word)
deriving DecidableEq, Repr

namespace Request

def run (t : Target) (s : State) (a : Answer) : Request → Except Fault (Addr × State)
  | malloc bytes => chkMalloc t s bytes a
  | calloc n elem => chkCalloc t s n elem a

def size : Request → Word
  | malloc bytes => bytes
  | calloc n elem => n * elem

/-- `chk_calloc` returns the null pointer at once. -/
def Overflows : Request → Prop
  | malloc _ => False
  | calloc n elem => n ≠ 0#32 ∧ BitVec.allOnes 32 / n < elem

/-- How much `dlmalloc` is asked for. -/
def total (req : Request) : Word := req.size + CHK_OVERHEAD_SIZE

end Request

section Run

variable {t : Target} {s : State} {a : Answer} {req : Request}

theorem run_overflows (overflows : req.Overflows) : req.run t s a = .ok (0#32, s) := by
  cases req with
  | malloc bytes => exact overflows.elim
  | calloc n elem => exact if_pos overflows

theorem chkMalloc_null {bytes : Word} (null : a.base = 0#32) : chkMalloc t s bytes a = .ok (0#32, s) := by
  rw [chkMalloc, dlmalloc, if_pos null, ok_bind, if_pos null, null]
  rfl

theorem chkMalloc_impossible {bytes : Word} (null : a.base ≠ 0#32)
    (no : ¬ Gives s.blocks (bytes + CHK_OVERHEAD_SIZE) a) : chkMalloc t s bytes a = .error .impossible := by
  rw [chkMalloc]
  dsimp only
  rw [dlmalloc, if_neg null, if_neg no, error_bind]

theorem run_null (null : a.base = 0#32) : req.run t s a = .ok (0#32, s) := by
  cases req with
  | malloc bytes => exact chkMalloc_null null
  | calloc n elem =>
      by_cases overflows : (Request.calloc n elem).Overflows
      · exact run_overflows overflows
      · rw [Request.run, chkCalloc, if_neg (show ¬ (n ≠ 0#32 ∧ BitVec.allOnes 32 / n < elem) from overflows)]
        dsimp only
        rw [chkMalloc_null null]
        rfl

theorem run_impossible (no_overflow : ¬ req.Overflows) (null : a.base ≠ 0#32) (no : ¬ Gives s.blocks req.total a) :
    req.run t s a = .error .impossible := by
  have no_block := chkMalloc_impossible (t := t) null no
  cases req with
  | malloc bytes => exact no_block
  | calloc n elem =>
      rw [Request.run, chkCalloc, if_neg (show ¬ (n ≠ 0#32 ∧ BitVec.allOnes 32 / n < elem) from no_overflow)]
      exact congrArg (· >>= _) no_block

/-- The zeros of `chk_calloc`. -/
theorem chkCalloc_eq {n elem : Word} (no_overflow : ¬ (Request.calloc n elem).Overflows)
    (gives : Gives s.blocks (n * elem + CHK_OVERHEAD_SIZE) a) :
    chkCalloc t s n elem a = (do
      let s₁ : State := ⟨guardMem t s.mem a (n * elem), (a.base, a.usable) :: s.blocks⟩
      return (a.base + 16#32, ← memset s₁ a.base 16 0#8 (n * elem))) := by
  rw [chkCalloc, if_neg (show ¬ (n ≠ 0#32 ∧ BitVec.allOnes 32 / n < elem) from no_overflow)]
  dsimp only
  rw [chkMalloc_eq gives, ok_bind]
  dsimp only
  rw [if_neg gives.user_ne_zero]
  simp only [CHK_SENTINEL_HEAD_SIZE, BitVec.add_sub_cancel]

/-- A request whose sum does not wrap around gets a guarded block. -/
theorem run_guarded (no_overflow : ¬ req.Overflows) (gives : Gives s.blocks req.total a)
    (room : req.size.toNat + 36 < 2 ^ 32) :
    ∃ m, req.run t s a = .ok (a.base + 16#32, ⟨m, (a.base, a.usable) :: s.blocks⟩) ∧
      Guarded t ⟨m, (a.base, a.usable) :: s.blocks⟩ a req.size := by
  have g := chkMalloc_guarded (t := t) gives room
  cases req with
  | malloc bytes => exact ⟨_, chkMalloc_eq gives, g⟩
  | calloc n elem =>
      have fits : (n * elem).toNat + 36 ≤ a.usable := g.fits
      refine ⟨fill (guardMem t s.mem a (n * elem)) (a.base + 16#32) (n * elem).toNat fun _ => 0#8, ?_,
        g.congr List.lookup_cons_self fun x _ out => ?_⟩
      · rw [Request.run, chkCalloc_eq no_overflow gives]
        dsimp only
        rw [memset, writeBlock_eq List.lookup_cons_self fun _ => by omega, ok_bind]
        rfl
      · show fill (guardMem t s.mem a (n * elem)) (a.base + 16#32) (n * elem).toNat (fun _ => 0#8) x = _
        exact fill_of_notMem out

end Run

theorem Gives.of_any {blocks : List (Addr × ℕ)} {n : Word} {a : Answer} (gives : Gives blocks n a) : Gives [] n a :=
  ⟨⟨gives.1.1, gives.1.2.1, gives.1.2.2.1, nofun⟩, gives.2⟩

/-! ### The round trip -/

/-- What is to hold of a guarded block: `chk_mem_check` finds its size, `chk_realloc` keeps its bytes, and `chk_free`
writes in the block only. -/
structure Kept (t : Target) (s : State) (block : Answer) (p : Addr) (bytes new : Word) : Prop where
  check : ∀ allocated, chkMemCheck t s p allocated = .ok (0, bytes)
  realloc : ∀ a junk, Ends (· = .impossible) (chkRealloc t s p new a junk) fun r => r.1 ≠ 0#32 →
    ∀ i < min bytes.toNat new.toNat, r.2.mem (r.1 + BitVec.ofNat 32 i) = s.mem (p + BitVec.ofNat 32 i)
  free : ∀ junk, ∃ m, chkFree t s p junk = .ok ⟨m, s.blocks.filter fun b => b.1 ≠ block.base⟩ ∧
    ∀ x ∉ range block.base block.usable, m x = s.mem x

/-- It holds of each block that is returned, whatever the user has written into it. -/
def RoundTrip (t : Target) (req : Request) (new : Word) : Prop :=
  ∀ s a, Ends (· = .impossible) (req.run t s a) fun r => r.1 ≠ 0#32 →
    ∀ m : Mem, (∀ x ∉ range r.1 req.size.toNat, m x = r.2.mem x) → Kept t ⟨m, r.2.blocks⟩ a r.1 req.size new

/-- No block is returned, or the target compares the sentinels as unsigned characters, the sum does not wrap around, and
what `dlmalloc` gives for the new size has room for the copy. -/
def Works (t : Target) (req : Request) (new : Word) : Prop :=
  req.Overflows ∨ (∀ a, ¬ Gives [] req.total a) ∨
    t.powerpc = false ∧ t.charSigned = false ∧ req.size.toNat + 36 < 2 ^ 32 ∧
      ∀ a a', Gives [] req.total a → Gives [(a.base, a.usable)] (new + CHK_OVERHEAD_SIZE) a' → CopyFits req.size new a'

section

variable {t : Target} {req : Request} {new : Word} {a : Answer}

/-- A size that is found where the user has written zeros. -/
theorem chkMemCheck_overwritten {m : Mem} {blocks : List (Addr × ℕ)} {base : Addr} {u : ℕ} {bytes : Word} (le : 4 ≤ u)
    (lt : u < 2 ^ 32) (checked : chkMemCheck t
      ⟨write32 t.endian m (base + BitVec.ofNat 32 (u - 4)) 0#32, (base, u) :: blocks⟩ (base + 16#32) 0#32 =
        .ok (0, bytes)) : bytes = 0#32 := by
  have live : List.lookup base ((base, u) :: blocks) = some u := List.lookup_cons_self
  rw [chkMemCheck] at checked
  split at checked
  · exact (congrArg Prod.snd (Except.ok.inj checked)).symm
  · simp only [CHK_SENTINEL_HEAD_SIZE, BitVec.add_sub_cancel] at checked
    split at checked
    · rw [usableSize_eq live, ok_bind, offset_eq le lt, read32_write32] at checked
      split at checked
      · exact (congrArg Prod.snd (Except.ok.inj checked)).symm
      · cases checked
    · cases checked

theorem Guarded.kept {s : State} {bytes : Word} (g : Guarded t s a bytes) (other : t.powerpc = false)
    (unsigned : t.charSigned = false)
    (copyFits : ∀ a', Gives s.blocks (new + CHK_OVERHEAD_SIZE) a' → CopyFits bytes new a') :
    Kept t s a (a.base + 16#32) bytes new where
  check := g.check other unsigned
  free := g.free other unsigned
  realloc a' junk := by
    by_cases gives : Gives s.blocks (new + CHK_OVERHEAD_SIZE) a'
    · obtain ⟨s', run, copied⟩ := g.realloc other unsigned gives (copyFits a' gives) junk
      rw [run]
      exact fun _ => copied
    · rw [chkRealloc, if_neg g.user_ne_zero, g.check other unsigned, ok_bind]
      dsimp only
      rw [if_neg (lt_irrefl _)]
      by_cases null : a'.base = 0#32
      · rw [chkMalloc_null null, ok_bind]
        exact fun ne => absurd rfl ne
      · rw [chkMalloc_impossible null gives]
        exact rfl

theorem roundTrip_of_works (works : Works t req new) : RoundTrip t req new := by
  intro s a
  by_cases overflows : req.Overflows
  · rw [run_overflows overflows]
    exact fun ne => absurd rfl ne
  by_cases null : a.base = 0#32
  · rw [run_null null]
    exact fun ne => absurd rfl ne
  by_cases gives : Gives s.blocks req.total a
  · obtain overflows' | none_given | ⟨other, unsigned, room, copyFits⟩ := works
    · exact absurd overflows' overflows
    · exact absurd gives.of_any (none_given a)
    · obtain ⟨m, run, g⟩ := run_guarded (t := t) overflows gives room
      rw [run]
      intro _ m' confined
      have g' : Guarded t ⟨m', (a.base, a.usable) :: s.blocks⟩ a req.size :=
        g.congr List.lookup_cons_self fun x _ => confined x
      refine g'.kept other unsigned fun a' gives' => ?_
      refine copyFits a a' gives.of_any ⟨⟨gives'.1.1, gives'.1.2.1, gives'.1.2.2.1, fun b hb => ?_⟩, gives'.2⟩
      rw [List.mem_singleton.1 hb]
      exact gives'.1.2.2.2 _ List.mem_cons_self
  · rw [run_impossible overflows null gives]
    exact rfl

/-! ### Where it fails -/

def empty : State := ⟨fun _ => 0#8, []⟩

theorem gives_first {n : Word} {u : ℕ} (usable : Usable n.toNat u) (lt : 8 + u + 4 < 2 ^ 32) :
    Gives empty.blocks n ⟨8#32, u⟩ := by
  refine ⟨⟨?_, ?_, ?_, nofun⟩, usable⟩
  · exact (by decide : 8#32 ≠ 0#32)
  · exact (by decide : (8#32).toNat % 8 = 0)
  · exact (Nat.add_assoc 8 u 4 ▸ lt)

/-- A sum that wraps around is a small one. -/
theorem gives_wrapped {bytes : Word} (wraps : ¬ bytes.toNat + 36 < 2 ^ 32) :
    ∃ u, 20 ≤ u ∧ u ≤ 36 ∧ Gives empty.blocks (bytes + CHK_OVERHEAD_SIZE) ⟨8#32, u⟩ := by
  have lt := bytes.isLt
  have total : (bytes + CHK_OVERHEAD_SIZE).toNat = bytes.toNat + 36 - 2 ^ 32 := by
    rw [BitVec.toNat_add]
    simp only [CHK_OVERHEAD_SIZE, CHK_SENTINEL_HEAD_SIZE, CHK_SENTINEL_TAIL_SIZE, BitVec.toNat_ofNat]
    omega
  by_cases le : (bytes + CHK_OVERHEAD_SIZE).toNat ≤ 20
  · exact ⟨20, by omega, by omega, gives_first ⟨le, by omega, .inl rfl⟩ (by omega)⟩
  · exact ⟨36, by omega, by omega, gives_first ⟨by omega, by omega, .inl rfl⟩ (by omega)⟩

/-- Then the user may write into the last word of the block. -/
theorem fits_of_roundTrip (holds : RoundTrip t req new) (no_overflow : ¬ req.Overflows) :
    req.size.toNat + 36 < 2 ^ 32 := by
  by_contra wraps
  have lt := req.size.isLt
  obtain ⟨u, twenty, small, gives⟩ := gives_wrapped wraps
  have ends := holds empty ⟨8#32, u⟩
  cases req with
  | malloc bytes =>
      change Gives empty.blocks (bytes + CHK_OVERHEAD_SIZE) _ at gives
      rw [Request.run, chkMalloc_eq gives] at ends
      have inside : range (8#32 + BitVec.ofNat 32 (u - 4)) 4 ⊆ range (8#32 + 16#32) bytes.toNat := by
        intro x hx
        rw [mem_range, BitVec.toNat_sub] at hx ⊢
        rw [BitVec.toNat_add, BitVec.toNat_ofNat] at hx
        have := x.isLt
        simp only [Request.size, BitVec.toNat_ofNat, BitVec.toNat_add] at hx wraps lt ⊢
        omega
      have kept := ends gives.user_ne_zero (write32 t.endian (guardMem t empty.mem ⟨8#32, u⟩ bytes)
        (8#32 + BitVec.ofNat 32 (u - 4)) 0#32) fun x out => write32_of_notMem fun hx => out (inside hx)
      have zero : bytes = 0#32 := chkMemCheck_overwritten (by omega) (by omega) (kept.check 0#32)
      rw [zero] at wraps
      exact wraps (by decide)
  | calloc n elem =>
      rw [Request.run, chkCalloc_eq no_overflow gives] at ends
      simp only [Request.size] at wraps ends
      rw [memset, writeBlock_out List.lookup_cons_self (by omega) (by omega), error_bind] at ends
      exact Fault.noConfusion ends

/-- The first block of a heap. -/
theorem exists_gives (some_given : ¬ ∀ a, ¬ Gives [] req.total a) : ∃ u, Gives empty.blocks req.total ⟨8#32, u⟩ := by
  obtain ⟨a, gives⟩ := not_forall_not.1 some_given
  obtain ⟨⟨null, aligned, bound, -⟩, usable⟩ := gives
  have pos : a.base.toNat ≠ 0 := fun zero => null (BitVec.eq_of_toNat_eq zero)
  exact ⟨a.usable, gives_first usable (by omega)⟩

theorem works_of_roundTrip (holds : RoundTrip t req new) : Works t req new := by
  by_cases overflows : req.Overflows
  · exact .inl overflows
  by_cases none_given : ∀ a, ¬ Gives [] req.total a
  · exact .inr (.inl none_given)
  have room := fits_of_roundTrip holds overflows
  have kept {a : Answer} (gives : Gives empty.blocks req.total a) :
      ∃ m, Guarded t ⟨m, [(a.base, a.usable)]⟩ a req.size ∧
        Kept t ⟨m, [(a.base, a.usable)]⟩ a (a.base + 16#32) req.size new := by
    obtain ⟨m, run, g⟩ := run_guarded (t := t) overflows gives room
    have ends := holds empty a
    rw [run] at ends
    exact ⟨m, g, ends g.user_ne_zero m fun _ _ => rfl⟩
  obtain ⟨u, gives⟩ := exists_gives none_given
  obtain ⟨m, -, first⟩ := kept gives
  have other : t.powerpc = false := by
    by_contra power
    have checked := first.check (req.size + 1#32)
    rw [chkMemCheck, if_pos (Bool.eq_true_of_not_eq_false power)] at checked
    have eq := congrArg Prod.snd (Except.ok.inj checked)
    exact absurd (BitVec.add_right_eq_self.1 eq) (by decide : 1#32 ≠ 0#32)
  have unsigned : t.charSigned = false := by
    by_contra signed
    have checked := first.check 0#32
    rw [chkMemCheck, if_neg (by rw [other]; exact Bool.false_ne_true)] at checked
    dsimp only at checked
    rw [not_intact (Bool.eq_true_of_not_eq_false signed) (by decide), if_neg Bool.false_ne_true] at checked
    cases checked
  refine .inr (.inr ⟨other, unsigned, room, fun a a' given given' => ?_⟩)
  by_contra no_room
  obtain ⟨m, g, k⟩ := kept given
  have ends := k.realloc a' 0#32
  rw [g.realloc_out other unsigned given' no_room] at ends
  exact Fault.noConfusion ends

/-- For which targets and sizes `chk_mem_check` finds what `chk_malloc` has stored. -/
theorem roundTrip_iff (t : Target) (req : Request) (new : Word) : RoundTrip t req new ↔ Works t req new :=
  ⟨works_of_roundTrip, roundTrip_of_works⟩

/-- On x86, where a plain `char` is signed, `chk_mem_check` stops at the sentinel of a block that is as it was. -/
theorem not_roundTrip_signed : ¬ RoundTrip ⟨false, true, .little⟩ (.malloc 100#32) 200#32 := by
  intro holds
  obtain overflows | none_given | ⟨-, unsigned, -⟩ := works_of_roundTrip holds
  · exact overflows
  · exact none_given ⟨8#32, 140⟩ (by decide)
  · exact Bool.false_ne_true unsigned.symm

end

end Bionic.MallocCheck
