import Bionic.MallocCheck
import Bionic.MallocLeakRun

/-! # The sizes of the debug allocators (`libc/bionic/malloc_leak.c`)

`leak_memalign` and `chk_malloc` add what they need to the size of the user, modulo `2 ^ 32`.  `leak_malloc` stops if
the sum is too large for the flag in the size of an entry, but a sum that has wrapped around is small.  `sized_iff` says
for which sizes and alignments the bytes of the user are inside of the block. -/

namespace Bionic.MallocSizes

open ByteMemory StateExcept
open MallocLeak (Word MALLOC_ALIGNMENT powerOfTwo powerOfTwo_spec dvd_two_pow moved_spec leakMalloc leakMemalign)
open MallocCheck (Target chkMalloc CHK_OVERHEAD_SIZE)

/-- The bytes are inside of one of the blocks. -/
def Within (blocks : List (Addr × ℕ)) (p : Addr) (n : ℕ) : Prop :=
  ∃ b ∈ blocks, b.1.toNat ≤ p.toNat ∧ p.toNat + n ≤ b.1.toNat + b.2

/-- The largest power of two that is not above the alignment divides the pointer, and so do all smaller ones. -/
def Aligned (alignment : Word) (p : Addr) : Prop := ∀ j, 2 ^ j ≤ alignment.toNat → 2 ^ j ∣ p.toNat

/-! ### The pointer of `leak_memalign` -/

section Pointer

variable {s s' : MallocLeak.State} {alignment bytes : Word} {c : MallocLeak.Alloc} {p : Addr}

theorem toNat_lt_of_flag {size : Word} (flag : size &&& MallocLeak.SIZE_FLAG_MASK = 0#32) : size.toNat < 2 ^ 31 :=
  MallocLeak.toNat_lt_of_masked (MallocLeak.size_masked flag).1

/-- A size that is recorded does not have the flag, and blocks are only added. -/
theorem recordBacktrace_blocks {e : Addr} (run : MallocLeak.recordBacktrace s bytes c = .ok (e, s')) :
    bytes.toNat < 2 ^ 31 ∧ ∀ b ∈ s.blocks, b ∈ s'.blocks := by
  rw [MallocLeak.recordBacktrace] at run
  dsimp only at run
  obtain ⟨flag, run⟩ := guard_eq_ok.1 run
  refine ⟨toNat_lt_of_flag (not_not.1 flag), fun b hb => ?_⟩
  simp only [bind_eq_ok] at run
  obtain ⟨found, -, run⟩ := run
  cases found with
  | some e =>
      obtain ⟨-, rfl⟩ := Prod.mk.inj (Except.ok.inj run)
      exact hb
  | none =>
      dsimp only at run
      obtain ⟨null, run⟩ := guard_eq_ok.1 run
      obtain ⟨s₁, given, run⟩ := bind_eq_ok.1 run
      obtain ⟨-, rfl⟩ := Prod.mk.inj (Except.ok.inj run)
      rw [MallocLeak.dlmalloc, if_neg null] at given
      split at given
      · cases given
        exact List.mem_cons_of_mem _ hb
      · cases given

/-- The block of `leak_malloc`. -/
theorem leakMalloc_ptr (run : leakMalloc s bytes c = .ok (p, s')) :
    p = 0#32 ∨ p = c.base + 8#32 ∧ c.base.toNat % 8 = 0 ∧ c.base.toNat + (bytes.toNat + 8) < 2 ^ 32 ∧
      (c.base, bytes.toNat + 8) ∈ s'.blocks := by
  rw [leakMalloc, bind_eq_ok] at run
  obtain ⟨s₁, given, run⟩ := run
  split at run
  · exact .inl (congrArg Prod.fst (Except.ok.inj run)).symm
  · next null =>
    rw [bind_eq_ok] at run
    obtain ⟨r, recorded, run⟩ := run
    obtain ⟨rfl, rfl⟩ := Prod.mk.inj (Except.ok.inj run)
    obtain ⟨lt, keep⟩ := recordBacktrace_blocks recorded
    have total : (bytes + 8#32).toNat = bytes.toNat + 8 := by
      rw [BitVec.toNat_add]
      simp only [BitVec.toNat_ofNat]
      omega
    rw [MallocLeak.dlmalloc, if_neg null, total] at given
    split at given
    · next fresh =>
      cases given
      exact .inr ⟨rfl, fresh.2.1, fresh.2.2.1, keep _ List.mem_cons_self⟩
    · cases given

theorem eight_toNat {base : Addr} (bound : base.toNat + 8 < 2 ^ 32) : (base + 8#32).toNat = base.toNat + 8 := by
  rw [BitVec.toNat_add]
  exact Nat.mod_eq_of_lt bound

theorem eight_dvd {base : Addr} (aligned : base.toNat % 8 = 0) : 8 ∣ (base + 8#32).toNat := by
  rw [BitVec.toNat_add]
  simp only [BitVec.toNat_ofNat]
  omega

/-- The power of two that `leak_memalign` takes is the largest one. -/
theorem two_pow_dvd_powerOfTwo (large : 8 < alignment.toNat) {j : ℕ} (le : 2 ^ j ≤ alignment.toNat) :
    2 ^ j ∣ (powerOfTwo alignment).toNat := by
  have ne : alignment.toNat ≠ 0 := by omega
  have most : j ≤ Nat.log2 alignment.toNat := (Nat.le_log2 ne).2 le
  unfold powerOfTwo
  split
  · have lt : Nat.log2 alignment.toNat < 32 := (Nat.log2_lt ne).2 alignment.isLt
    rw [BitVec.toNat_ofNat, Nat.mod_eq_of_lt (Nat.pow_lt_pow_right (by omega) lt)]
    exact Nat.pow_dvd_pow 2 most
  · next power =>
    obtain ⟨i, -, -, eq⟩ := powerOfTwo_spec large
    rw [powerOfTwo, if_neg power] at eq
    rw [eq, Nat.log2_two_pow] at most
    rw [eq]
    exact Nat.pow_dvd_pow 2 most

theorem powerOfTwo_le (large : 8 < alignment.toNat) : (powerOfTwo alignment).toNat ≤ alignment.toNat := by
  have ne : alignment.toNat ≠ 0 := by omega
  unfold powerOfTwo
  split
  · rw [BitVec.toNat_ofNat]
    exact (Nat.mod_le _ _).trans (Nat.log2_self_le ne)
  · exact Nat.le_refl _

/-- The pointer that is moved up. -/
theorem dvd_moved {base alignment : Word} {j : ℕ} (power : alignment.toNat = 2 ^ j) :
    alignment.toNat ∣ (base + -base % alignment).toNat := by
  have dvd := dvd_two_pow power
  have le := Nat.le_of_lt base.isLt
  have whole : alignment.toNat ∣ base.toNat + (2 ^ 32 - base.toNat) % alignment.toNat := by
    rw [Nat.dvd_iff_mod_eq_zero, Nat.add_mod, Nat.mod_mod, ← Nat.add_mod, Nat.add_sub_cancel' le]
    exact Nat.mod_eq_zero_of_dvd dvd
  rw [BitVec.toNat_add, BitVec.toNat_umod, BitVec.toNat_neg, Nat.mod_mod_of_dvd _ dvd]
  exact (Nat.dvd_mod_iff dvd).2 whole

/-- `leak_memalign` with the block of `leak_malloc`. -/
theorem leakMemalign_of_leakMalloc {base : Addr} (large : MALLOC_ALIGNMENT < alignment)
    (run : leakMalloc s (powerOfTwo alignment - MALLOC_ALIGNMENT + bytes) c = .ok (base, s')) (ne : base ≠ 0#32) :
    ∃ p m, leakMemalign s alignment bytes c = .ok (p, { s' with mem := m }) ∧
      (base % powerOfTwo alignment = 0#32 ∧ p = base ∨
        base % powerOfTwo alignment ≠ 0#32 ∧ p = base + -base % powerOfTwo alignment) := by
  rw [leakMemalign, if_neg (BitVec.not_le.2 large)]
  dsimp only
  rw [run, ok_bind]
  dsimp only
  rw [if_neg ne]
  by_cases luck : base % powerOfTwo alignment = 0#32
  · rw [if_pos luck]
    exact ⟨base, s'.mem, rfl, .inl ⟨luck, rfl⟩⟩
  · rw [if_neg luck]
    exact ⟨_, _, rfl, .inr ⟨luck, rfl⟩⟩

/-- A pointer of `leak_memalign` comes from one of `leak_malloc`. -/
theorem leakMemalign_cases (large : MALLOC_ALIGNMENT < alignment)
    (run : leakMemalign s alignment bytes c = .ok (p, s')) (ne : p ≠ 0#32) :
    ∃ base s₁, leakMalloc s (powerOfTwo alignment - MALLOC_ALIGNMENT + bytes) c = .ok (base, s₁) ∧ base ≠ 0#32 ∧
      s'.blocks = s₁.blocks ∧ (base % powerOfTwo alignment = 0#32 ∧ p = base ∨
        base % powerOfTwo alignment ≠ 0#32 ∧ p = base + -base % powerOfTwo alignment) := by
  have start := run
  rw [leakMemalign, if_neg (BitVec.not_le.2 large), bind_eq_ok] at start
  obtain ⟨⟨base, s₁⟩, allocated, rest⟩ := start
  by_cases null : base = 0#32
  · dsimp only at rest
    rw [if_pos null] at rest
    exact absurd ((Prod.mk.inj (Except.ok.inj rest)).1.symm.trans null) ne
  · obtain ⟨p', m, run', ptr⟩ := leakMemalign_of_leakMalloc large allocated null
    obtain ⟨rfl, rfl⟩ := Prod.mk.inj (Except.ok.inj (run.symm.trans run'))
    exact ⟨_, _, allocated, null, rfl, ptr⟩

/-- The pointer is aligned. -/
theorem leakMemalign_aligned (run : leakMemalign s alignment bytes c = .ok (p, s')) (ne : p ≠ 0#32) :
    Aligned alignment p := by
  intro j le
  by_cases small : alignment ≤ MALLOC_ALIGNMENT
  · rw [leakMemalign, if_pos small] at run
    obtain ⟨rfl, aligned, -⟩ := (leakMalloc_ptr run).resolve_left ne
    have small : alignment.toNat ≤ 8 := BitVec.le_def.1 small
    have most : j ≤ 3 := (Nat.pow_le_pow_iff_right (a := 2) (by omega)).1 (le.trans small)
    exact (Nat.pow_dvd_pow 2 most).trans (eight_dvd aligned)
  · have large := BitVec.not_le.1 small
    have large' : 8 < alignment.toNat := BitVec.lt_def.1 large
    obtain ⟨i, -, -, power⟩ := powerOfTwo_spec large'
    apply (two_pow_dvd_powerOfTwo large' le).trans
    obtain ⟨base, s₁, -, -, -, ⟨luck, rfl⟩ | ⟨-, rfl⟩⟩ := leakMemalign_cases large run ne
    · have zero := congrArg BitVec.toNat luck
      rw [BitVec.toNat_umod] at zero
      exact Nat.dvd_of_mod_eq_zero zero
    · exact dvd_moved power

/-- Unless the sum wraps around, the bytes are inside of the block. -/
theorem leakMemalign_within (fits : MallocLeak.Fits alignment bytes)
    (run : leakMemalign s alignment bytes c = .ok (p, s')) (ne : p ≠ 0#32) : Within s'.blocks p bytes.toNat := by
  by_cases small : alignment ≤ MALLOC_ALIGNMENT
  · rw [leakMemalign, if_pos small] at run
    obtain ⟨rfl, -, bound, block⟩ := (leakMalloc_ptr run).resolve_left ne
    refine ⟨_, block, ?_, ?_⟩
    all_goals
      rw [eight_toNat (by omega)]
      dsimp only
      omega
  · have large := BitVec.not_le.1 small
    obtain ⟨i, three, -, power⟩ := powerOfTwo_spec (BitVec.lt_def.1 large)
    obtain ⟨base, s₁, allocated, null, blocks, ptr⟩ := leakMemalign_cases large run ne
    obtain ⟨rfl, aligned, bound, block⟩ := (leakMalloc_ptr allocated).resolve_left null
    have least : 2 ^ 3 ≤ (powerOfTwo alignment).toNat := power ▸ Nat.pow_le_pow_right (by omega) three
    have total : (powerOfTwo alignment - MALLOC_ALIGNMENT + bytes).toNat =
        (powerOfTwo alignment).toNat - 8 + bytes.toNat := by
      have sum := fits large
      have lt := (powerOfTwo alignment).isLt
      have eight : MALLOC_ALIGNMENT.toNat = 8 := rfl
      rw [BitVec.toNat_add, BitVec.toNat_sub, eight]
      omega
    have base : (c.base + 8#32).toNat = c.base.toNat + 8 := eight_toNat (by omega)
    obtain ⟨d, moved, le⟩ : ∃ d, p.toNat = c.base.toNat + 8 + d ∧ d + 8 ≤ (powerOfTwo alignment).toNat := by
      obtain ⟨-, rfl⟩ | ⟨luck, rfl⟩ := ptr
      · exact ⟨0, base, least⟩
      · obtain ⟨d, -, le, distance⟩ := moved_spec three power (by omega) luck
        refine ⟨4 * d, ?_, le⟩
        rw [distance, BitVec.toNat_add, base, BitVec.toNat_ofNat]
        omega
    rw [blocks]
    refine ⟨_, block, ?_, ?_⟩
    all_goals
      rw [moved]
      dsimp only
      omega

end Pointer

/-! ### Sizes of the blocks -/

/-- `leak_memalign` returns the null pointer, ends the process with `abort` or by a write through a null `HashEntry`,
or returns an aligned pointer to bytes of a block.  Other faults are those of a table that is not sound. -/
def LeakSized (alignment bytes : Word) : Prop :=
  ∀ s c, Ends (fun f => ∀ chains live, MallocLeak.Sound s chains live →
      f = .impossible ∨ f = .abort ∨ f = .nullEntry)
    (leakMemalign s alignment bytes c) fun r => r.1 ≠ 0#32 → Within r.2.blocks r.1 bytes.toNat ∧ Aligned alignment r.1

/-- `chk_malloc` returns the null pointer, or a pointer to bytes of a block. -/
def ChkSized (bytes : Word) : Prop :=
  ∀ t s a, Ends (· = .impossible) (chkMalloc t s bytes a) fun r => r.1 ≠ 0#32 → Within r.2.blocks r.1 bytes.toNat

section

variable {alignment bytes : Word}

theorem leakSized_of_fits (fits : MallocLeak.Fits alignment bytes) : LeakSized alignment bytes := by
  intro s c
  cases run : leakMemalign s alignment bytes c with
  | error f =>
      intro chains live sound
      have ends := sound.leakMemalign_ends (A := fun f => f = .impossible ∨ f = .abort ∨ f = .nullEntry) (.inl rfl)
        (.inr (.inl rfl)) (.inr (.inr rfl)) alignment bytes c (.inl fits)
      exact ends.of_error run
  | ok r =>
      exact fun ne => ⟨leakMemalign_within fits run ne, leakMemalign_aligned run ne⟩

theorem chkSized_of_fits (fits : bytes.toNat + 36 < 2 ^ 32) : ChkSized bytes := by
  intro t s a
  by_cases null : a.base = 0#32
  · rw [MallocCheck.chkMalloc_null null]
    exact fun ne => absurd rfl ne
  by_cases gives : MallocCheck.Gives s.blocks (bytes + CHK_OVERHEAD_SIZE) a
  · have g := MallocCheck.chkMalloc_guarded (t := t) gives fits
    have room := g.fits
    have bound := g.bound
    rw [MallocCheck.chkMalloc_eq gives]
    refine fun _ => ⟨_, List.mem_cons_self, ?_, ?_⟩
    all_goals
      rw [BitVec.toNat_add]
      simp only [BitVec.toNat_ofNat]
      omega
  · rw [MallocCheck.chkMalloc_impossible null gives]
    exact rfl

/-! ### Sums that wrap around -/

theorem fits_of_chkSized (sized : ChkSized bytes) : bytes.toNat + 36 < 2 ^ 32 := by
  by_contra wraps
  obtain ⟨u, -, small, gives⟩ := MallocCheck.gives_wrapped wraps
  have ends := sized ⟨false, false, .little⟩ MallocCheck.empty ⟨8#32, u⟩
  rw [MallocCheck.chkMalloc_eq gives] at ends
  obtain ⟨b, hb, -, le⟩ := ends gives.user_ne_zero
  rw [List.mem_singleton.1 hb] at le
  simp only [BitVec.toNat_add, BitVec.toNat_ofNat] at le
  omega

theorem and_flag {size : Word} (lt : size.toNat < 2 ^ 31) : size &&& MallocLeak.SIZE_FLAG_MASK = 0#32 := by
  have mask : MallocLeak.SIZE_FLAG_MASK = BitVec.twoPow 32 31 := by decide
  have bit : size.getLsbD 31 = false := Nat.testBit_lt_two_pow lt
  rw [mask, BitVec.and_twoPow, bit]
  rfl

theorem findEntryFrom_null (m : Mem) (backtrace : List Word) (size : Word) {fuel : ℕ} (pos : 0 < fuel) :
    MallocLeak.findEntryFrom m backtrace size fuel 0#32 = .ok none := by
  obtain ⟨fuel, rfl⟩ := Nat.exists_eq_add_of_le' pos
  rw [MallocLeak.findEntryFrom, if_pos rfl]

def first : MallocLeak.Alloc := ⟨[], Nat.zero_le _, 8#32, 0xc0000000#32⟩

/-- The first allocation, of a size without the flag. -/
theorem leakMalloc_first (m : Mem) (size : Word) (lt : size.toNat < 2 ^ 31) :
    ∃ s, leakMalloc (MallocLeak.Run.init m).state size first = .ok (16#32, s) := by
  have total : (size + 8#32).toNat = size.toNat + 8 := by
    rw [BitVec.toNat_add]
    simp only [BitVec.toNat_ofNat]
    omega
  have base : MallocLeak.Fresh [] 8#32 (size + 8#32).toNat := by
    refine ⟨by decide, by decide, ?_, nofun⟩
    rw [total]
    simp only [BitVec.toNat_ofNat]
    omega
  have entry : MallocLeak.Fresh [(8#32, (size + 8#32).toNat)] 0xc0000000#32
      (BitVec.ofNat 32 (24 + 4 * ([] : List Word).length)).toNat := by
    refine ⟨by decide, by decide, by decide, fun b hb => ?_⟩
    rw [List.mem_singleton.1 hb]
    refine ⟨(by decide : (8#32 : Addr) ≠ 0xc0000000#32), .inr ?_⟩
    rw [total]
    simp only [BitVec.toNat_ofNat]
    omega
  have none_found : MallocLeak.findEntry ⟨m, 0#32, fun _ => 0#32, false, [(8#32, (size + 8#32).toNat)]⟩
      (MallocLeak.slotOf []) [] size = .ok none := findEntryFrom_null _ _ _ (Nat.two_pow_pos 32)
  have null : (8#32 : Addr) ≠ 0#32 := by decide
  have null' : (0xc0000000#32 : Addr) ≠ 0#32 := by decide
  rw [leakMalloc, first]
  dsimp only [MallocLeak.Run.init]
  rw [MallocLeak.dlmalloc, if_neg null, if_pos base, ok_bind, if_neg null, MallocLeak.recordBacktrace]
  dsimp only
  rw [if_neg (not_not.2 (and_flag lt)), if_neg Bool.false_ne_true, none_found, ok_bind]
  dsimp only
  rw [if_neg null', MallocLeak.dlmalloc, if_neg null', if_pos entry]
  exact ⟨_, rfl⟩

theorem fits_of_leakSized (sized : LeakSized alignment bytes) : MallocLeak.Fits alignment bytes := by
  by_contra wraps
  obtain ⟨large, wraps⟩ := Classical.not_imp.1 wraps
  have large' : 8 < alignment.toNat := BitVec.lt_def.1 large
  obtain ⟨j, three, j_lt, power⟩ := powerOfTwo_spec large'
  have least : 2 ^ 3 ≤ (powerOfTwo alignment).toNat := power ▸ Nat.pow_le_pow_right (by omega) three
  have most : (powerOfTwo alignment).toNat ≤ 2 ^ 31 := power ▸ Nat.pow_le_pow_right (by omega) (by omega)
  have lt := bytes.isLt
  have size : (powerOfTwo alignment - MALLOC_ALIGNMENT + bytes).toNat =
      (powerOfTwo alignment).toNat - 8 + bytes.toNat - 2 ^ 32 := by
    have eight : MALLOC_ALIGNMENT.toNat = 8 := rfl
    rw [BitVec.toNat_add, BitVec.toNat_sub, eight]
    omega
  obtain ⟨s, allocated⟩ := leakMalloc_first (fun _ => 0#8) (powerOfTwo alignment - MALLOC_ALIGNMENT + bytes) (by omega)
  obtain ⟨chains, sound⟩ := MallocLeak.sound_init fun _ => 0#8
  obtain ⟨p, m, run, ptr⟩ := leakMemalign_of_leakMalloc large allocated (by decide)
  have ne : p ≠ 0#32 := by
    obtain ⟨-, rfl⟩ | ⟨luck, rfl⟩ := ptr
    · decide
    · obtain ⟨d, -, le, distance⟩ := moved_spec three power (by decide) luck
      rw [distance]
      intro zero
      have := congrArg BitVec.toNat zero
      simp only [BitVec.toNat_add, BitVec.toNat_ofNat] at this
      omega
  obtain ⟨⟨b, hb, -, inside⟩, aligned⟩ := (sized _ first).of_ok run ne
  have bound : b.1.toNat + b.2 < 2 ^ 32 := by
    have ends := sound.leakMalloc_ends (A := fun _ => True) trivial (powerOfTwo alignment - MALLOC_ALIGNMENT + bytes)
      first (fun _ _ => trivial) (fun _ _ => trivial) false
    cases ends.of_ok allocated with
    | block chains' sound' same => exact (sound'.blocks.placed b hb).2.2
  have above : (powerOfTwo alignment).toNat ≤ p.toNat := by
    have le : 2 ^ j ≤ alignment.toNat := power ▸ powerOfTwo_le large'
    rw [power]
    exact Nat.le_of_dvd (Nat.pos_of_ne_zero fun zero => ne (BitVec.eq_of_toNat_eq zero)) (aligned j le)
  dsimp only at inside
  omega

/-- For which sizes and alignments the bytes of the user are inside of the block. -/
theorem sized_iff (alignment bytes : Word) :
    LeakSized alignment bytes ∧ ChkSized bytes ↔ MallocLeak.Fits alignment bytes ∧ bytes.toNat + 36 < 2 ^ 32 :=
  ⟨fun h => ⟨fits_of_leakSized h.1, fits_of_chkSized h.2⟩, fun h => ⟨leakSized_of_fits h.1, chkSized_of_fits h.2⟩⟩

/-- `leak_memalign(64, 0xffffffd8)` asks for 16 bytes. -/
theorem not_sized_wrapped : ¬ (LeakSized 64#32 0xffffffd8#32 ∧ ChkSized 0xffffffd8#32) := by
  rintro ⟨sized, -⟩
  exact absurd (fits_of_leakSized sized) (by decide)

end

end Bionic.MallocSizes
