import Mathlib
import Bionic.Arm
import Bionic.WordBits

/-! # The length of a string, a word at a time (`libc/arch-arm/bionic/strlen.c`)

`strlen` goes to the next word boundary byte by byte, and on from there with an `asm` statement that tests a word for a
zero byte by `(v - 0x01010101) & 0x80808080 & ~v`.  A byte above a zero byte may be marked as well, by the borrow; but
the test only asks whether any byte is marked (`marks_eq_zero_iff`), and the position is found on the word itself.  The
length is the index of the first NUL, at every alignment and whatever stands behind the NUL (`strlen_eq`).

The body of the loop is unrolled eight times, or not at all where `__OPTIMIZE_SIZE__` is defined. -/

namespace Bionic.ArmStrlen

open Iterate Arm
open ByteMemory (Addr Mem read32 offset_add offset_one_add)

/-! ### The source -/

/-- The operands of the `asm` statement. -/
inductive Reg where
  | l
  | v
  | t
  | s
  | mask
deriving DecidableEq, Repr

/-- The test of the word in `v`, and the load of the next one where it has no zero byte. -/
def wordTest : List (Line Reg) :=
  [.instr (.sub .t .v (.lsr .mask 7)),
   .instr (.and .t .t (.reg .mask)),
   .instr (.bics .t .t (.reg .v)),
   .instr (.ldr .eq .v .s 4)]

/-- The test, and `n` further ones that are left with `bne 1f`. -/
def unrolled : ℕ → List (Line Reg)
  | 0 => wordTest
  | n + 1 => wordTest ++ .branch .ne 1 :: unrolled n

/-- Behind the loop: from the label 1 on. -/
def tail : List (Line Reg) :=
  [.label 1,
   .instr (.add .al .l .l (.reg .s)),
   .instr (.tst .v (.imm 0xFF)),
   .branch .eq 2,
   .instr (.add .al .l .l (.imm 1)),
   .instr (.tst .v (.imm 0xFF00)),
   .branch .eq 2,
   .instr (.add .al .l .l (.imm 1)),
   .instr (.tst .v (.imm 0xFF0000)),
   .instr (.add .ne .l .l (.imm 1)),
   .label 2]

/-- What the preprocessor knows: `__ARM_HAVE_PLD` and `__OPTIMIZE_SIZE__`. -/
structure Target where
  pld : Bool
  optimizeSize : Bool

/-- How often the body is unrolled. -/
def Target.copies (T : Target) : ℕ := if T.optimizeSize then 0 else 7

/-- The loop: from the label 0 on. -/
def loop (T : Target) : List (Line Reg) :=
  .label 0 :: ((if T.pld then [.instr (.pld .s 64)] else []) ++ (unrolled T.copies ++ .branch .eq 0 :: tail))

def program (T : Target) : List (Line Reg) :=
  .instr (.ldr .al .v .s 4) :: .instr (.sub .l .l (.reg .s)) :: loop T

/-- Where the bytes before the first word boundary lead: to a NUL, or to the boundary. -/
inductive Aligned where
  | done (l : Word)
  | words (u : Addr) (l : Word)

/-- `while (u.i & 0x3)`, with `u.b` and `l`. -/
def alignStep (m : Mem) (s : Addr × Word) : Addr × Word ⊕ Aligned :=
  if s.1 &&& 0x3 ≠ 0 then
    if m s.1 = 0 then .inr (.done s.2) else .inl (s.1 + 1, s.2 + 1)
  else .inr (.words s.1 s.2)

/-- What is not initialised before the `asm` statement. -/
structure Scratch where
  v : Word
  t : Word
  z : Bool

/-- The registers before the `asm` statement. -/
def enter (S : Scratch) (u : Addr) (l : Word) : Reg → Word
  | .l => l
  | .v => S.v
  | .t => S.t
  | .s => u
  | .mask => 0x80808080

/-- `strlen` returns `r`. -/
def Strlen (T : Target) (S : Scratch) (m : Mem) (s : Addr) (r : Word) : Prop :=
  ∃ a, Returns (alignStep m) (s, 0) a ∧
    match a with
    | .done l => r = l
    | .words u l => ∃ regs, Returns (Arm.step m (program T)) ⟨program T, enter S u l, S.z⟩ regs ∧ r = regs .l

/-- `libc/string/strlen.c`, byte by byte: `for (s = str; *s; ++s)`, and the difference of the two pointers. -/
def referenceStep (m : Mem) (str s : Addr) : Addr ⊕ Word := if m s ≠ 0 then .inl (s + 1) else .inr (s - str)

/-! ### The test of a word -/

/-- The word in `t`. -/
def marks (v : Word) : Word := ((v - 0x80808080 >>> 7) &&& 0x80808080) &&& ~~~v

section Words

variable {v : Word} {i : ℕ}

theorem getLsbD_mask (hi : i < 32) : (0x80808080#32).getLsbD i = decide (i % 8 = 7) := by
  have h : ∀ i : Fin 32, (0x80808080#32).getLsbD i = decide (i.val % 8 = 7) := by decide
  exact h ⟨i, hi⟩

theorem getLsbD_marks (hi : i < 32) :
    (marks v).getLsbD i = (decide (i % 8 = 7) && ((v - 0x01010101#32).getLsbD i && !v.getLsbD i)) := by
  have hones : 0x80808080#32 >>> 7 = 0x01010101#32 := by decide
  show (((v - 0x80808080#32 >>> 7) &&& 0x80808080#32) &&& ~~~v).getLsbD i = _
  rw [hones, BitVec.getLsbD_and, BitVec.getLsbD_and, BitVec.getLsbD_not, getLsbD_mask hi]
  simp only [hi, decide_true, Bool.true_and]
  rw [Bool.and_comm (v - 0x01010101#32 |>.getLsbD i), Bool.and_assoc]

theorem getLsbD_eq_div (w : Word) (i : ℕ) : w.getLsbD i = true ↔ w.toNat / 2 ^ i % 2 = 1 := by
  rw [BitVec.getLsbD, Nat.testBit_eq_decide_div_mod_eq, decide_eq_true_iff]

/-- A zero byte is marked, whether there is a borrow from it or not. -/
theorem marked_of_zero (hi : i < 4) (h : v.toNat / 256 ^ i % 256 = 0) : (marks v).getLsbD (8 * i + 7) = true := by
  have hv := v.isLt
  have hsub : (v - 0x01010101#32).toNat = (2 ^ 32 - 0x01010101 + v.toNat) % 2 ^ 32 := BitVec.toNat_sub ..
  rw [getLsbD_marks (by omega), Bool.and_eq_true, Bool.and_eq_true, Bool.not_eq_true', ← Bool.not_eq_true, getLsbD_eq_div,
    getLsbD_eq_div, hsub, decide_eq_true_iff]
  obtain rfl | rfl | rfl | rfl : i = 0 ∨ i = 1 ∨ i = 2 ∨ i = 3 := by omega
  all_goals omega

/-- Where no byte is zero there is no borrow, and no byte is marked. -/
theorem not_marked (h : ∀ i < 4, v.toNat / 256 ^ i % 256 ≠ 0) (hi : i < 4) : (marks v).getLsbD (8 * i + 7) = false := by
  have hv := v.isLt
  have h0 := h 0 (by omega)
  have h1 := h 1 (by omega)
  have h2 := h 2 (by omega)
  have h3 := h 3 (by omega)
  have hsub : (v - 0x01010101#32).toNat = (2 ^ 32 - 0x01010101 + v.toNat) % 2 ^ 32 := BitVec.toNat_sub ..
  have hbit : (v - 0x01010101#32).getLsbD (8 * i + 7) = true → v.getLsbD (8 * i + 7) = true := by
    rw [getLsbD_eq_div, getLsbD_eq_div, hsub]
    obtain rfl | rfl | rfl | rfl : i = 0 ∨ i = 1 ∨ i = 2 ∨ i = 3 := by omega
    all_goals omega
  rw [getLsbD_marks (by omega)]
  cases hd : (v - 0x01010101#32).getLsbD (8 * i + 7) with
  | false => simp
  | true => simp [hbit hd]

theorem marks_eq_zero_iff (v : Word) : marks v = 0 ↔ ∀ i < 4, v.toNat / 256 ^ i % 256 ≠ 0 := by
  constructor
  · intro h i hi h0
    have hm := marked_of_zero hi h0
    rw [h] at hm
    simp at hm
  · intro h
    apply BitVec.eq_of_getLsbD_eq
    intro j hj
    refine Eq.trans ?_ BitVec.getLsbD_zero.symm
    by_cases h7 : j % 8 = 7
    · have hlast := not_marked h (show j / 8 < 4 by omega)
      rwa [show 8 * (j / 8) + 7 = j by omega] at hlast
    · rw [getLsbD_marks hj]
      simp [h7]

/-- `tst` on one byte of a word. -/
theorem and_byte_eq_zero_iff {mask : Word} (hm : mask.toNat = (2 ^ 8 - 1) <<< (8 * i)) :
    v &&& mask = 0 ↔ v.toNat / 256 ^ i % 256 = 0 := by
  have h := WordBits.toNat_and_mask v mask (8 * i) 8 hm
  have hpos : 0 < 2 ^ (8 * i) := Nat.two_pow_pos _
  have hpow : 2 ^ (8 * i) = 256 ^ i := Nat.pow_mul 2 8 i
  have h0 : (0 : Word).toNat = 0 := rfl
  rw [← BitVec.toNat_inj, h, h0, Nat.mul_eq_zero, or_iff_left hpos.ne', hpow]
  rfl

theorem read32_byte (m : Mem) (a : Addr) (hi : i < 4) :
    (read32 .little m a).toNat / 256 ^ i % 256 = (m (a + BitVec.ofNat 32 i)).toNat := by
  have h0 := (m (a + BitVec.ofNat 32 0)).isLt
  have h1 := (m (a + BitVec.ofNat 32 1)).isLt
  have h2 := (m (a + BitVec.ofNat 32 2)).isLt
  have h3 := (m (a + BitVec.ofNat 32 3)).isLt
  rw [read32, BitVec.toNat_ofNat]
  unfold ByteMemory.wordByte ByteMemory.Endian.weight
  dsimp only
  obtain rfl | rfl | rfl | rfl : i = 0 ∨ i = 1 ∨ i = 2 ∨ i = 3 := by omega
  all_goals omega

end Words

/-! ### The string -/

/-- The first NUL from `s` on stands at the index `n`. -/
structure FirstNul (m : Mem) (s : Addr) (n : ℕ) : Prop where
  nul : m (s + BitVec.ofNat 32 n) = 0
  before : ∀ i < n, m (s + BitVec.ofNat 32 i) ≠ 0

section String

variable {m : Mem} {s : Addr} {n k i : ℕ}

theorem FirstNul.lt (h : FirstNul m s n) : n < 2 ^ 32 := by
  by_contra hge
  have hmod : BitVec.ofNat 32 (n % 2 ^ 32) = BitVec.ofNat 32 n := by
    apply BitVec.eq_of_toNat_eq
    rw [BitVec.toNat_ofNat, BitVec.toNat_ofNat, Nat.mod_mod]
  have hlt := Nat.mod_lt n (Nat.two_pow_pos 32)
  exact h.before (n % 2 ^ 32) (by omega) (hmod ▸ h.nul)

/-- Behind `k` bytes of the string. -/
theorem FirstNul.skip (h : FirstNul m s n) (hk : k ≤ n) : FirstNul m (s + BitVec.ofNat 32 k) (n - k) where
  nul := by
    rw [offset_add, Nat.add_sub_cancel' hk]
    exact h.nul
  before i hi := by
    rw [offset_add]
    exact h.before (k + i) (by omega)

theorem FirstNul.eq_zero_iff (h : FirstNul m s n) : n = 0 ↔ m s = 0 := by
  constructor
  · rintro rfl
    simpa using h.nul
  · intro h0
    by_contra hn
    exact h.before 0 (Nat.pos_of_ne_zero hn) (by simpa using h0)

/-- A byte of the word at `s`, as far as the string goes. -/
theorem FirstNul.byte_eq_zero_iff (h : FirstNul m s n) (hi : i < 4) (hn : i ≤ n) :
    (read32 .little m s).toNat / 256 ^ i % 256 = 0 ↔ i = n := by
  have hzero := (h.skip hn).eq_zero_iff
  rw [read32_byte m s hi]
  constructor
  · intro h0
    have hn0 := hzero.mpr (BitVec.eq_of_toNat_eq h0)
    omega
  · rintro rfl
    exact congrArg BitVec.toNat (hzero.mp (Nat.sub_self i))

/-- The word at `s` has no marks if and only if the string goes on behind it. -/
theorem FirstNul.marks_eq_zero_iff (h : FirstNul m s n) : marks (read32 .little m s) = 0 ↔ 4 ≤ n := by
  rw [ArmStrlen.marks_eq_zero_iff]
  constructor
  · intro hall
    by_contra hn
    exact hall n (by omega) ((h.byte_eq_zero_iff (by omega) (Nat.le_refl n)).mpr rfl)
  · intro hn i hi h0
    have := (h.byte_eq_zero_iff hi (by omega)).mp h0
    omega

end String

/-! ### The loop -/

section Loop

variable {m : Mem} {T : Target} {a : Addr} {L : Word} {regs : Reg → Word} {z : Bool} {n k : ℕ} {p : List (Line Reg)}

/-- The word at `a` is loaded, and `s` points behind it. -/
structure At (m : Mem) (a : Addr) (L : Word) (regs : Reg → Word) : Prop where
  mask : regs .mask = 0x80808080
  v : regs .v = read32 .little m a
  s : regs .s = a + 4
  l : regs .l = L

/-- The first three instructions of a test put the marks into `t`. -/
theorem marks_leads (h : At m a L regs) :
    Leads (Arm.step m (program T)) ⟨wordTest ++ p, regs, z⟩
      ⟨.instr (.ldr .eq .v .s 4) :: p, Function.update regs .t (marks (read32 .little m a)),
        decide (marks (read32 .little m a) = 0)⟩ := by
  have hmarks : (regs .v - regs .mask >>> 7 &&& regs .mask) &&& ~~~regs .v = marks (read32 .little m a) := by
    rw [h.mask, h.v]
    rfl
  refine leads_exec (leads_exec (leads_exec ?_))
  simp only [exec, Operand.value, Function.update_self, Function.update_idem, ne_eq, reduceCtorEq, not_false_eq_true,
    Function.update_of_ne, hmarks]
  exact Leads.refl _

/-- One test: the next word is loaded where there are no marks. -/
theorem wordTest_leads (h : At m a L regs) :
    ∃ regs', Leads (Arm.step m (program T)) ⟨wordTest ++ p, regs, z⟩
        ⟨p, regs', decide (marks (read32 .little m a) = 0)⟩ ∧
      At m (if marks (read32 .little m a) = 0 then a + 4 else a) L regs' := by
  have hrun := marks_leads (T := T) (z := z) (p := p) h
  by_cases h0 : marks (read32 .little m a) = 0
  · rw [decide_eq_true h0] at hrun ⊢
    rw [if_pos h0]
    refine ⟨_, hrun.trans (leads_exec (Leads.refl _)), ?_⟩
    constructor <;> simp [exec, Cond.holds, h.mask, h.s, h.l]
  · rw [decide_eq_false h0] at hrun ⊢
    rw [if_neg h0]
    refine ⟨_, hrun.trans (leads_exec (Leads.refl _)), ?_⟩
    constructor <;> simp [exec, Cond.holds, h.mask, h.v, h.s, h.l]

theorem target_one (T : Target) : target (program T) 1 = tail := by
  obtain ⟨pld, size⟩ := T
  cases pld <;> cases size <;> rfl

theorem target_zero (T : Target) : target (program T) 0 = loop T := by
  obtain ⟨pld, size⟩ := T
  cases pld <;> cases size <;> rfl

theorem target_two (T : Target) : target (program T) 2 = [.label 2] := by
  obtain ⟨pld, size⟩ := T
  cases pld <;> cases size <;> rfl

/-- From the label 0 to the first test. -/
theorem loop_leads : Leads (Arm.step m (program T)) ⟨loop T, regs, z⟩
    ⟨unrolled T.copies ++ .branch .eq 0 :: tail, regs, z⟩ := by
  refine leads_label ?_
  cases T.pld with
  | false => exact Leads.refl _
  | true => exact leads_exec (Leads.refl _)

/-- A test and its branch lead behind the loop, or on to the next test. -/
theorem unrolled_step (h : FirstNul m a n) (hat : At m a L regs) (k : ℕ) :
    ∃ regs', if n < 4 then
        Leads (Arm.step m (program T)) ⟨unrolled k ++ .branch .eq 0 :: tail, regs, z⟩ ⟨tail, regs', false⟩ ∧ At m a L regs'
      else ∃ k', Leads (Arm.step m (program T)) ⟨unrolled k ++ .branch .eq 0 :: tail, regs, z⟩
          ⟨unrolled k' ++ .branch .eq 0 :: tail, regs', true⟩ ∧ At m (a + 4) L regs' := by
  cases k with
  | zero =>
    obtain ⟨regs', hrun, hat'⟩ := wordTest_leads (T := T) (z := z) (p := .branch .eq 0 :: tail) hat
    refine ⟨regs', ?_⟩
    split
    · next hn =>
      have hmarks := mt h.marks_eq_zero_iff.mp (by omega)
      rw [decide_eq_false hmarks] at hrun
      rw [if_neg hmarks] at hat'
      exact ⟨hrun.trans (leads_branch (Leads.refl _)), hat'⟩
    · next hn =>
      have hmarks := h.marks_eq_zero_iff.mpr (by omega)
      rw [decide_eq_true hmarks] at hrun
      rw [if_pos hmarks] at hat'
      refine ⟨T.copies, hrun.trans (leads_branch ?_), hat'⟩
      rw [Cond.holds, if_pos rfl, target_zero]
      exact loop_leads
  | succ k =>
    obtain ⟨regs', hrun, hat'⟩ := wordTest_leads (T := T) (z := z)
      (p := .branch .ne 1 :: (unrolled k ++ .branch .eq 0 :: tail)) hat
    have hcode : unrolled (k + 1) ++ .branch .eq 0 :: tail =
        wordTest ++ .branch .ne 1 :: (unrolled k ++ .branch .eq 0 :: tail) := by
      rw [unrolled, List.append_assoc, List.cons_append]
    rw [hcode]
    refine ⟨regs', ?_⟩
    split
    · next hn =>
      have hmarks := mt h.marks_eq_zero_iff.mp (by omega)
      rw [decide_eq_false hmarks] at hrun
      rw [if_neg hmarks] at hat'
      refine ⟨hrun.trans (leads_branch ?_), hat'⟩
      rw [Cond.holds, Bool.not_false, if_pos rfl, target_one]
    · next hn =>
      have hmarks := h.marks_eq_zero_iff.mpr (by omega)
      rw [decide_eq_true hmarks] at hrun
      rw [if_pos hmarks] at hat'
      exact ⟨k, hrun.trans (leads_branch (Leads.refl _)), hat'⟩

/-- The loop ends at the word with the first NUL. -/
theorem unrolled_leads (h : FirstNul m a n) (hat : At m a L regs) (k : ℕ) :
    ∃ regs' z', Leads (Arm.step m (program T)) ⟨unrolled k ++ .branch .eq 0 :: tail, regs, z⟩ ⟨tail, regs', z'⟩ ∧
      At m (a + BitVec.ofNat 32 (4 * (n / 4))) L regs' := by
  induction n using Nat.strongRecOn generalizing a regs z k with
  | ind n ih =>
    obtain ⟨regs', hstep⟩ := unrolled_step (T := T) (z := z) h hat k
    split at hstep
    · next hn =>
      obtain ⟨hrun, hat'⟩ := hstep
      refine ⟨regs', false, hrun, ?_⟩
      rw [Nat.div_eq_of_lt hn]
      simpa using hat'
    · next hn =>
      obtain ⟨k', hrun, hat'⟩ := hstep
      have hskip : FirstNul m (a + 4) (n - 4) := h.skip (k := 4) (by omega)
      obtain ⟨regs'', z', hrun', hat''⟩ := ih (n - 4) (by omega) hskip (z := true) hat' k'
      refine ⟨regs'', z', hrun.trans hrun', ?_⟩
      have haddr : a + 4 + BitVec.ofNat 32 (4 * ((n - 4) / 4)) = a + BitVec.ofNat 32 (4 * (n / 4)) := by
        rw [BitVec.add_assoc, show 4 * (n / 4) = 4 + 4 * ((n - 4) / 4) by omega, BitVec.ofNat_add]
        rfl
      rwa [haddr] at hat''

/-- `tst` on a byte of the last word, and the branch to the end. -/
theorem tst_leads (h : FirstNul m a n) (hat : At m a L regs) {i : ℕ} (hi : i < 4) (hin : i ≤ n) {c : Word}
    (hm : c.toNat = (2 ^ 8 - 1) <<< (8 * i)) :
    Leads (Arm.step m (program T)) ⟨.instr (.tst .v (.imm c)) :: p, regs, z⟩ ⟨p, regs, decide (i = n)⟩ := by
  have hz : (regs .v &&& c = 0) ↔ i = n := by
    rw [hat.v, and_byte_eq_zero_iff hm, h.byte_eq_zero_iff hi hin]
  refine leads_exec ?_
  simp only [exec, Operand.value, hz]
  exact Leads.refl _

/-- One more byte is not the NUL. -/
theorem add_leads (hat : At m a L regs) (w : Word) :
    ∃ regs', Leads (Arm.step m (program T)) ⟨.instr (.add .al .l .l (.imm w)) :: p, regs, z⟩ ⟨p, regs', z⟩ ∧
      At m a (L + w) regs' := by
  refine ⟨_, leads_exec (Leads.refl _), ?_⟩
  constructor <;> simp [exec, Cond.holds, Operand.value, hat.mask, hat.v, hat.s, hat.l]

/-- The byte `i` is the NUL: the statement ends. -/
theorem stop_leads (h : FirstNul m a n) (hat : At m a L regs) (hn : n < 4) {c : Word}
    (hm : c.toNat = (2 ^ 8 - 1) <<< (8 * n)) :
    Leads (Arm.step m (program T)) ⟨.instr (.tst .v (.imm c)) :: .branch .eq 2 :: p, regs, z⟩ ⟨[], regs, true⟩ := by
  have htst := tst_leads (T := T) (z := z) (p := .branch .eq 2 :: p) h hat hn (Nat.le_refl n) hm
  rw [decide_eq_true rfl] at htst
  refine htst.trans (leads_branch ?_)
  rw [Cond.holds, if_pos rfl, target_two]
  exact leads_label (Leads.refl _)

/-- The byte `i` is not the NUL: it is counted. -/
theorem count_leads (h : FirstNul m a n) (hat : At m a L regs) {i : ℕ} (hi : i < 4) (hin : i < n) {c : Word}
    (hm : c.toNat = (2 ^ 8 - 1) <<< (8 * i)) :
    ∃ regs', Leads (Arm.step m (program T))
        ⟨.instr (.tst .v (.imm c)) :: .branch .eq 2 :: .instr (.add .al .l .l (.imm 1)) :: p, regs, z⟩
        ⟨p, regs', false⟩ ∧ At m a (L + 1) regs' := by
  have htst := tst_leads (T := T) (z := z) (p := .branch .eq 2 :: .instr (.add .al .l .l (.imm 1)) :: p) h hat hi
    (Nat.le_of_lt hin) hm
  rw [decide_eq_false (Nat.ne_of_lt hin)] at htst
  obtain ⟨regs', hadd, hat'⟩ := add_leads (T := T) (z := false) (p := p) hat 1
  exact ⟨regs', htst.trans (leads_branch hadd), hat'⟩

/-- The last byte of the word is counted without a branch. -/
theorem last_leads (h : FirstNul m a n) (hat : At m a L regs) (h2 : 2 ≤ n) (hn : n < 4) :
    ∃ regs' z', Leads (Arm.step m (program T))
        ⟨[.instr (.tst .v (.imm 0xFF0000)), .instr (.add .ne .l .l (.imm 1)), .label 2], regs, z⟩ ⟨[], regs', z'⟩ ∧
      regs' .l = L + BitVec.ofNat 32 (n - 2) := by
  have htst := tst_leads (T := T) (z := z) (p := [.instr (.add .ne .l .l (.imm 1)), .label 2]) h hat (i := 2)
    (by omega) h2 (c := 0xFF0000) (by decide)
  by_cases h3 : 2 = n
  · rw [decide_eq_true h3] at htst
    refine ⟨_, _, htst.trans (leads_exec (leads_label (Leads.refl _))), ?_⟩
    simp [exec, Cond.holds, hat.l, ← h3]
  · rw [decide_eq_false h3] at htst
    refine ⟨_, _, htst.trans (leads_exec (leads_label (Leads.refl _))), ?_⟩
    obtain rfl : n = 3 := by omega
    simp [exec, Cond.holds, Operand.value, hat.l]

/-- Behind the loop, the length is the place of the word and the index of the NUL in it. -/
theorem tail_leads (h : FirstNul m a n) (hn : n < 4) (hat : At m a L regs) :
    ∃ regs' z', Leads (Arm.step m (program T)) ⟨tail, regs, z⟩ ⟨[], regs', z'⟩ ∧
      regs' .l = L + (a + 4) + BitVec.ofNat 32 n := by
  have hplace : ∃ regs₁, Leads (Arm.step m (program T)) ⟨tail, regs, z⟩ ⟨tail.drop 2, regs₁, z⟩ ∧
      At m a (L + (a + 4)) regs₁ := by
    refine ⟨_, leads_label (leads_exec (Leads.refl _)), ?_⟩
    constructor <;> simp [exec, Cond.holds, Operand.value, hat.mask, hat.v, hat.s, hat.l]
  obtain ⟨regs₁, run₁, hat₁⟩ := hplace
  rcases Nat.eq_zero_or_pos n with rfl | h0
  · exact ⟨regs₁, true, run₁.trans (stop_leads h hat₁ hn (by decide)), by simp [hat₁.l]⟩
  · obtain ⟨regs₂, run₂, hat₂⟩ := count_leads (T := T) (z := z) h hat₁ (i := 0) (by omega) h0 (c := 0xFF) (by decide)
      (p := tail.drop 5)
    rcases Nat.eq_or_lt_of_le h0 with rfl | h1
    · exact ⟨regs₂, true, run₁.trans (run₂.trans (stop_leads h hat₂ hn (by decide))), by simp [hat₂.l]⟩
    · obtain ⟨regs₃, run₃, hat₃⟩ := count_leads (T := T) (z := false) h hat₂ (i := 1) (by omega) h1 (c := 0xFF00)
        (by decide) (p := tail.drop 8)
      obtain ⟨regs₄, z', run₄, hl⟩ := last_leads (T := T) (z := false) h hat₃ h1 hn
      refine ⟨regs₄, z', run₁.trans (run₂.trans (run₃.trans run₄)), ?_⟩
      have htwo : (1 : Word) + 1 + BitVec.ofNat 32 (n - 2) = BitVec.ofNat 32 n := by
        rw [show n = 2 + (n - 2) by omega, BitVec.ofNat_add]
        simp
      rw [hl, BitVec.add_assoc (L + (a + 4)), BitVec.add_assoc (L + (a + 4)), htwo]

/-- The `asm` statement adds the length from `a` on to `l`. -/
theorem program_returns (S : Scratch) (h : FirstNul m a n) :
    ∃ regs, (∀ r, Returns (Arm.step m (program T)) ⟨program T, enter S a L, S.z⟩ r ↔ r = regs) ∧
      regs .l = L + BitVec.ofNat 32 n := by
  have hload : ∃ regs₁, Leads (Arm.step m (program T)) ⟨program T, enter S a L, S.z⟩ ⟨loop T, regs₁, S.z⟩ ∧
      At m a (L - (a + 4)) regs₁ := by
    refine ⟨_, leads_exec (leads_exec (Leads.refl _)), ?_⟩
    constructor <;> simp [exec, Cond.holds, Operand.value, enter]
  obtain ⟨regs₁, run₁, hat₁⟩ := hload
  obtain ⟨regs₂, z₂, run₂, hat₂⟩ := unrolled_leads (T := T) (z := S.z) h hat₁ T.copies
  have hword : FirstNul m (a + BitVec.ofNat 32 (4 * (n / 4))) (n % 4) := by
    rw [show n % 4 = n - 4 * (n / 4) by omega]
    exact h.skip (by omega)
  obtain ⟨regs₃, z₃, run₃, hl⟩ := tail_leads (T := T) (z := z₂) hword (Nat.mod_lt n (by omega)) hat₂
  refine ⟨regs₃, fun r => ?_, ?_⟩
  · rw [(run₁.trans (loop_leads.trans (run₂.trans run₃))).returns_iff]
    exact returns_end r
  · have hsum : BitVec.ofNat 32 n = BitVec.ofNat 32 (4 * (n / 4)) + BitVec.ofNat 32 (n % 4) := by
      rw [← BitVec.ofNat_add, Nat.div_add_mod]
    rw [hl, hsum]
    generalize BitVec.ofNat 32 (4 * (n / 4)) = x
    generalize BitVec.ofNat 32 (n % 4) = y
    ring

end Loop

/-! ### The call -/

section Call

variable {m : Mem} {s u : Addr} {l : Word} {n : ℕ}

theorem FirstNul.next (h : FirstNul m s (n + 1)) : FirstNul m (s + 1) n := h.skip (k := 1) (by omega)

theorem FirstNul.ne_zero (h : FirstNul m s (n + 1)) : m s ≠ 0 := mt h.eq_zero_iff.mpr (Nat.succ_ne_zero n)

/-- What the first loop leaves of a string of the length `n`, at `s` and with `l` bytes before it. -/
def Leaves (s : Addr) (l : Word) (n : ℕ) : Aligned → Prop
  | .done l' => l' = l + BitVec.ofNat 32 n
  | .words u l' => ∃ k ≤ n, u = s + BitVec.ofNat 32 k ∧ l' = l + BitVec.ofNat 32 k

theorem alignStep_boundary (hs : s &&& 0x3 = 0) (l : Word) : alignStep m (s, l) = .inr (.words s l) :=
  if_neg (not_not_intro hs)

theorem alignStep_byte (hs : s &&& 0x3 ≠ 0) (l : Word) :
    alignStep m (s, l) = if m s = 0 then .inr (.done l) else .inl (s + 1, l + 1) := if_pos hs

/-- The first loop ends, at the NUL or at a word boundary before it. -/
theorem align_returns (h : FirstNul m s n) (l : Word) :
    ∃ a, (∀ r, Returns (alignStep m) (s, l) r ↔ r = a) ∧ Leaves s l n a := by
  induction n generalizing s l with
  | zero =>
    by_cases hs : s &&& 0x3 = 0
    · exact ⟨_, fun r => returns_done_iff (alignStep_boundary hs l), 0, Nat.le_refl 0, by simp, by simp⟩
    · have hstep := (alignStep_byte hs l).trans (if_pos (h.eq_zero_iff.mp rfl))
      exact ⟨_, fun r => returns_done_iff hstep, by simp [Leaves]⟩
  | succ n ih =>
    by_cases hs : s &&& 0x3 = 0
    · exact ⟨_, fun r => returns_done_iff (alignStep_boundary hs l), 0, Nat.zero_le _, by simp, by simp⟩
    · have hstep := (alignStep_byte hs l).trans (if_neg h.ne_zero)
      obtain ⟨a, hret, hleaves⟩ := ih h.next (l + 1)
      refine ⟨a, fun r => (returns_next_iff hstep).trans (hret r), ?_⟩
      cases a with
      | done l' => exact hleaves.trans (offset_one_add l n).symm
      | words u l' =>
        obtain ⟨k, hk, rfl, rfl⟩ := hleaves
        exact ⟨k + 1, Nat.succ_le_succ hk, (offset_one_add s k).symm, (offset_one_add l k).symm⟩

/-- Byte by byte, the pointer comes to the NUL. -/
theorem reference_returns (h : FirstNul m s n) (str r : Addr) :
    Returns (referenceStep m str) s r ↔ r = s + BitVec.ofNat 32 n - str := by
  induction n generalizing s with
  | zero =>
    have hstep : referenceStep m str s = .inr (s - str) := if_neg (not_not_intro (h.eq_zero_iff.mp rfl))
    rw [returns_done_iff hstep]
    simp
  | succ n ih =>
    have hstep : referenceStep m str s = .inl (s + 1) := if_pos h.ne_zero
    rw [returns_next_iff hstep, ih h.next, offset_one_add]

theorem strlen_returns (T : Target) (S : Scratch) (h : FirstNul m s n) (r : Word) :
    Strlen T S m s r ↔ r = BitVec.ofNat 32 n := by
  obtain ⟨a, hret, hleaves⟩ := align_returns h 0
  unfold Strlen
  simp only [hret, exists_eq_left]
  cases a with
  | done l =>
    obtain rfl : l = 0 + BitVec.ofNat 32 n := hleaves
    simp
  | words u l =>
    obtain ⟨k, hk, rfl, rfl⟩ := hleaves
    obtain ⟨regs, hregs, hl⟩ := program_returns (T := T) (L := 0 + BitVec.ofNat 32 k) S (h.skip hk)
    simp only [hregs, exists_eq_left]
    rw [hl, offset_add, Nat.add_sub_cancel' hk]
    simp

end Call

/-- For every memory, every start and both ways to unroll the loop: if the first NUL stands at the index `n`, `strlen`
returns `n`, and so does the loop that goes byte by byte. -/
theorem strlen_eq (T : Target) (S : Scratch) (m : Mem) (s : Addr) (n : ℕ) (h : FirstNul m s n) :
    (∀ r, Strlen T S m s r ↔ r.toNat = n) ∧ ∀ r, Returns (referenceStep m s) s r ↔ r.toNat = n := by
  have hvalue : ∀ r : Word, r = BitVec.ofNat 32 n ↔ r.toNat = n := fun r => by
    rw [← BitVec.toNat_inj, BitVec.toNat_ofNat, Nat.mod_eq_of_lt h.lt]
  refine ⟨fun r => (strlen_returns T S h r).trans (hvalue r), fun r => (reference_returns h s r).trans ?_⟩
  rw [← hvalue, BitVec.add_comm, BitVec.add_sub_cancel]

/-- `ab` at 0x1003, with a byte 0x80 and a byte 1 behind the NUL. -/
def abMem : Mem := fun x => if x = 0x1003 then 97 else if x = 0x1004 then 98 else if x = 0x1005 then 0
  else if x = 0x1006 then 1 else 0x80

theorem strlen_ab : (∀ r, Strlen ⟨true, false⟩ ⟨0, 0, false⟩ abMem 0x1003 r ↔ r.toNat = 2) ∧
    ∀ r, Returns (referenceStep abMem 0x1003) 0x1003 r ↔ r.toNat = 2 :=
  strlen_eq ⟨true, false⟩ ⟨0, 0, false⟩ abMem 0x1003 2 ⟨by decide, by decide⟩

end Bionic.ArmStrlen
