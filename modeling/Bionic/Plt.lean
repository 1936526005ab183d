import Bionic.PowerPc
import Bionic.Reloc

/-! # The procedure linkage table on PowerPC

`setup_got` writes a stub that calls through a table of addresses, and `R_PPC_JMP_SLOT` entries fill in
the slots of the table: with a branch where the target is near, else with two instructions that put the
offset of the slot's address into `r11` and branch to the stub.  `Stub` says which words a processed
slot holds, `relocEntries_stub` that all slots hold theirs after a run, and `stub_transfers` that
executing them leads to the target. -/

namespace Bionic.Plt

open ByteMemory ElfLookup PowerPc Reloc Reloc.Ppc StateExcept WordBits
open Linker (CStr Ptr Fault)

/-! ### Encodings -/

section Encodings

variable {a t x : BitVec 32}

theorem toNat_and_low (x : BitVec 32) : (x &&& ~~~0xfc000000#32).toNat = x.toNat % 2 ^ 26 :=
  toNat_and_lowMask x _ 26 rfl

theorem toNat_BR (a t : BitVec 32) : (BR a t).toNat = 18 * 2 ^ 26 + (t - a).toNat % 2 ^ 26 := by
  have hlow := toNat_and_low (t - a)
  have hlt : ((t - a) &&& ~~~0xfc000000#32).toNat < 2 ^ 26 := by
    rw [hlow]
    exact Nat.mod_lt _ (by decide)
  rw [BR, toNat_or_of_lt 26 (by decide) hlt, hlow]
  rfl

/-- The high seven bits of an offset decide whether it fits into 26 bits. -/
theorem b24ValidRange_iff : b24ValidRange x ↔ x.toNat < 2 ^ 25 ∨ 2 ^ 32 - 2 ^ 25 ≤ x.toNat := by
  have hmask : x &&& 0xfe000000#32 = (x >>> 25) <<< 25 := by
    ext i hi
    simp only [BitVec.getElem_and, BitVec.getElem_shiftLeft,
      BitVec.getElem_ushiftRight]
    interval_cases i <;> simp
  have hand : (x &&& 0xfe000000#32).toNat = x.toNat / 2 ^ 25 * 2 ^ 25 % 2 ^ 32 := by
    rw [hmask, BitVec.toNat_shiftLeft, BitVec.toNat_ushiftRight, Nat.shiftLeft_eq,
      Nat.shiftRight_eq_div_pow]
  have hx := x.isLt
  rw [b24ValidRange, BitVec.toNat_eq, BitVec.toNat_eq, hand]
  simp only [BitVec.toNat_ofNat]
  omega

theorem decode_BR (ht : (t - a).toNat % 4 = 0) :
    decode (BR a t) = some (.b (BitVec.ofNat 26 (t - a).toNat) false false) := by
  have hk : 4 * ((t - a).toNat % 2 ^ 26 / 4) = (t - a).toNat % 2 ^ 26 := by omega
  have hw : (BR a t).toNat = 18 * 2 ^ 26 + 4 * ((t - a).toNat % 2 ^ 26 / 4) := by
    rw [hk, toNat_BR]
  have hofNat : BitVec.ofNat 26 ((t - a).toNat % 2 ^ 26) = BitVec.ofNat 26 (t - a).toNat := by
    apply BitVec.eq_of_toNat_eq
    rw [BitVec.toNat_ofNat, BitVec.toNat_ofNat, Nat.mod_mod]
  rw [decode_b (by omega) hw, hk, hofNat]

theorem decode_li (hv : x.toNat < 2 ^ 16) : decode (LI_R11 ||| x) = some (.addi 11 0 (x.setWidth 16)) := by
  have hop : LI_R11.toNat % 2 ^ 16 = 0 := by decide
  unfold decode
  rw [field_or hop hv (by omega), field_or hop hv (by omega), field_or hop hv (by omega),
    immediate_or hop hv]
  rfl

theorem decode_lwz (x : BitVec 32) :
    decode (LWZ_R11_R11 ||| L x) = some (.lwz 11 11 (x.setWidth 16)) := by
  have hop : LWZ_R11_R11.toNat % 2 ^ 16 = 0 := by decide
  have hL : (L x).toNat = x.toNat % 2 ^ 16 := toNat_and_lowMask x _ 16 rfl
  have hv : (L x).toNat < 2 ^ 16 := by omega
  have himm : (L x).setWidth 16 = x.setWidth 16 := by
    apply BitVec.eq_of_toNat_eq
    rw [BitVec.toNat_setWidth, BitVec.toNat_setWidth, hL, Nat.mod_mod]
  unfold decode
  rw [field_or hop hv (by omega), field_or hop hv (by omega), field_or hop hv (by omega),
    immediate_or hop hv, himm]
  rfl

theorem toNat_HA (x : BitVec 32) : (HA x).toNat = (x.toNat + 0x8000) / 2 ^ 16 := by
  have hbit : ((x &&& 0x8000#32) >>> 15).toNat = x.toNat / 2 ^ 15 % 2 := by
    rw [BitVec.ushiftRight_and_distrib, show 0x8000#32 >>> 15 = 1#32 from rfl, BitVec.toNat_and,
      BitVec.toNat_ushiftRight, Nat.shiftRight_eq_div_pow]
    exact Nat.and_one_is_mod _
  have hx := x.isLt
  rw [HA, BitVec.toNat_add, hbit, BitVec.toNat_ushiftRight, Nat.shiftRight_eq_div_pow]
  omega

theorem decode_addis (x : BitVec 32) :
    decode (ADDIS_R11_R11 ||| HA x) = some (.addis 11 11 (((x + 0x8000#32) >>> 16).setWidth 16)) := by
  have hop : ADDIS_R11_R11.toNat % 2 ^ 16 = 0 := by decide
  have hx := x.isLt
  have hHA := toNat_HA x
  have himm : (HA x).setWidth 16 = ((x + 0x8000#32) >>> 16).setWidth 16 := by
    apply BitVec.eq_of_toNat_eq
    rw [BitVec.toNat_setWidth, BitVec.toNat_setWidth, hHA, BitVec.toNat_ushiftRight, BitVec.toNat_add,
      Nat.shiftRight_eq_div_pow, BitVec.toNat_ofNat]
    omega
  by_cases hv : (HA x).toNat < 2 ^ 16
  · unfold decode
    rw [field_or hop hv (by omega), field_or hop hv (by omega), field_or hop hv (by omega),
      immediate_or hop hv, himm]
    rfl
  · have hcarry : HA x = 0x10000#32 := by
      apply BitVec.eq_of_toNat_eq
      rw [BitVec.toNat_ofNat]
      omega
    rw [← himm, hcarry]
    rfl

/-- The two low bits of an aligned address are clear. -/
theorem and_not_three (ht : t.toNat % 4 = 0) : t &&& ~~~3#32 = t := by
  have hmask : t &&& ~~~3#32 = (t >>> 2) <<< 2 := by
    ext i hi
    simp only [BitVec.getElem_and, BitVec.getElem_shiftLeft, BitVec.getElem_ushiftRight]
    interval_cases i <;> simp
  have hlt := t.isLt
  apply BitVec.eq_of_toNat_eq
  rw [hmask, BitVec.toNat_shiftLeft, BitVec.toNat_ushiftRight, Nat.shiftLeft_eq, Nat.shiftRight_eq_div_pow]
  omega

end Encodings

/-! ### Executing a stub -/

section Exec

variable {m : Mem} {P : Addr} {c k i : ℕ} {t : Addr}

/-- The word at index `i` of the table. -/
def word (m : Mem) (P : Addr) (i : ℕ) : BitVec 32 := read32 .big m (wordAt P i)

/-- The stub at index 6, with `table` for the address of the table of addresses. -/
structure CallStub (m : Mem) (P table : Addr) : Prop where
  addis : word m P 6 = ADDIS_R11_R11 ||| HA table
  lwz : word m P 7 = LWZ_R11_R11 ||| L table
  mtctr : word m P 8 = MCTR_R11
  bctr : word m P 9 = BCTR

/-- What slot `k` of a table with `c` slots holds for the target `t`. -/
inductive Stub (m : Mem) (P : Addr) (c k : ℕ) (t : Addr) : Prop
  | near (range : b24ValidRange (t - wordAt P (18 + 2 * k)))
      (branch : word m P (18 + 2 * k) = BR (wordAt P (18 + 2 * k)) t)
  | far (li : word m P (18 + 2 * k) = LI_R11 ||| BitVec.ofNat 32 (4 * k))
      (branch : word m P (19 + 2 * k) = BR (wordAt P (19 + 2 * k)) (wordAt P 6))
      (entry : word m P (18 + 2 * c + k) = t)

theorem wordAt_succ : wordAt P i + 4#32 = wordAt P (i + 1) := by
  unfold wordAt
  rw [BitVec.add_assoc, Nat.mul_add, BitVec.ofNat_add]

theorem toNat_wordAt : (wordAt P i).toNat = (P.toNat + 4 * i) % 2 ^ 32 := by
  rw [wordAt, BitVec.toNat_add, BitVec.toNat_ofNat, Nat.add_mod_mod]

theorem run_BR {n : ℕ} {s : Cpu} (hw : read32 .big m s.pc = BR s.pc t)
    (ht : (t - s.pc).toNat % 4 = 0) (hnear : b24ValidRange (t - s.pc)) :
    run m (n + 1) s = run m n { s with pc := t } := by
  apply run_succ (hw.symm ▸ decode_BR ht)
  unfold exec Cpu.branch
  have hpc : s.pc + (BitVec.ofNat 26 (t - s.pc).toNat).signExtend 32 = t := by
    rw [signExtend_of_near (b24ValidRange_iff.1 hnear), BitVec.add_comm, BitVec.sub_add_cancel]
  simp only [Bool.false_eq_true, if_false, hpc]

theorem run_li {n : ℕ} {s : Cpu} (hpc : s.pc = wordAt P i) (hk : k < 8192)
    (hw : word m P i = LI_R11 ||| BitVec.ofNat 32 (4 * k)) :
    run m (n + 1) s = run m n (s.setGpr 11 (BitVec.ofNat 32 (4 * k))) := by
  have hv : (BitVec.ofNat 32 (4 * k)).toNat = 4 * k := by
    rw [BitVec.toNat_ofNat]
    omega
  have hext : ((BitVec.ofNat 32 (4 * k)).setWidth 16).signExtend 32 = BitVec.ofNat 32 (4 * k) := by
    apply BitVec.eq_of_toNat_eq
    rw [BitVec.toNat_signExtend, BitVec.msb_eq_decide, BitVec.toNat_setWidth, BitVec.toNat_setWidth, hv]
    have hmsb : ¬ 2 ^ (16 - 1) ≤ 4 * k % 2 ^ 16 := by omega
    rw [decide_eq_false hmsb]
    simp only [Bool.false_eq_true, if_false]
    omega
  have hdec : decode (read32 .big m s.pc) = some (.addi 11 0 ((BitVec.ofNat 32 (4 * k)).setWidth 16)) := by
    rw [hpc, ← word, hw]
    exact decode_li (by omega)
  refine run_succ hdec ?_
  simp only [exec, Cpu.base, if_true, hext, BitVec.zero_add]

/-- The first two instructions of the stub load the address in the table at the offset in `r11`. -/
theorem run_load {n : ℕ} {table : Addr} {s : Cpu} (h : CallStub m P table) (hpc : s.pc = wordAt P 6)
    (hload : read32 .big m (s.gpr 11 + table) = t) :
    ∃ s', run m (n + 2) s = run m n s' ∧ s'.pc = wordAt P 8 ∧ s'.gpr 11 = t ∧ s'.lr = s.lr ∧
      ∀ r ≠ 11, s'.gpr r = s.gpr r := by
  obtain ⟨hi, hhi⟩ : ∃ v, v = ((table + 0x8000#32) >>> 16).setWidth 16 := ⟨_, rfl⟩
  have haddis : decode (read32 .big m s.pc) = some (.addis 11 11 hi) := by
    rw [hpc, ← word, h.addis, decode_addis, hhi]
  have hpc₁ : (s.setGpr 11 (s.gpr 11 + (hi ++ 0#16))).pc = wordAt P 7 := by
    show s.pc + 4#32 = _
    rw [hpc, wordAt_succ]
  have hlwz : decode (read32 .big m (s.setGpr 11 (s.gpr 11 + (hi ++ 0#16))).pc) =
      some (.lwz 11 11 (table.setWidth 16)) := by
    rw [hpc₁, ← word, h.lwz, decode_lwz]
  have haddr : s.gpr 11 + (hi ++ 0#16) + (table.setWidth 16).signExtend 32 = s.gpr 11 + table := by
    rw [BitVec.add_assoc, hhi, high_add_low]
  refine ⟨_, (run_succ haddis rfl).trans (run_succ hlwz rfl), ?_, ?_, rfl, fun r hr => ?_⟩
  · show (s.setGpr 11 (s.gpr 11 + (hi ++ 0#16))).pc + 4#32 = _
    rw [hpc₁, wordAt_succ]
  · rw [← hload, ← haddr]
    rfl
  · exact (if_neg hr).trans (if_neg hr)

/-- The last two jump to the address in `r11`. -/
theorem run_jump {table : Addr} {s : Cpu} (h : CallStub m P table) (hpc : s.pc = wordAt P 8)
    (ht : t.toNat % 4 = 0) (hr : s.gpr 11 = t) : run m 2 s = some { s with pc := t, ctr := t } := by
  have hmtctr : decode (read32 .big m s.pc) = some (.mtctr 11) := by
    rw [hpc, ← word, h.mtctr]
    rfl
  have hbctr : decode (read32 .big m (s.pc + 4#32)) = some (.bctr false) := by
    rw [hpc, wordAt_succ, ← word, h.bctr]
    rfl
  have h₁ : run m 2 s = run m 1 { s with pc := s.pc + 4#32, ctr := t } :=
    run_succ hmtctr (by rw [← hr]; rfl)
  have h₂ : run m 1 { s with pc := s.pc + 4#32, ctr := t } = run m 0 { s with pc := t, ctr := t } := by
    refine run_succ hbctr ?_
    unfold exec Cpu.branch
    rw [and_not_three ht]
    rfl
  exact h₁.trans h₂

theorem stub_transfers (hcall : CallStub m P (wordAt P (18 + 2 * c))) (hs : Stub m P c k t) (hk : k < c)
    (hc : c ≤ 8192) (hP : P.toNat % 4 = 0) (ht : t.toNat % 4 = 0) :
    Transfers m (wordAt P (18 + 2 * k)) t := by
  intro s hpc
  cases hs with
  | near hrange hbranch =>
      have hal : (t - s.pc).toNat % 4 = 0 := by
        rw [hpc, BitVec.toNat_sub, toNat_wordAt]
        omega
      have hrun := run_BR (n := 0) (by rw [hpc]; exact hbranch) hal (by rw [hpc]; exact hrange)
      exact ⟨1, { s with pc := t }, Nat.one_pos, hrun, rfl, rfl, fun _ _ => rfl⟩
  | far hli hbranch hentry =>
      have h₁ := run_li (n := 5) hpc (by omega) hli
      have hpc₁ : (s.setGpr 11 (BitVec.ofNat 32 (4 * k))).pc = wordAt P (19 + 2 * k) := by
        show s.pc + 4#32 = _
        rw [hpc, wordAt_succ]
        congr 1
        omega
      have hoff : (wordAt P 6 - wordAt P (19 + 2 * k)).toNat = 2 ^ 32 - 4 * (13 + 2 * k) := by
        have hlt := P.isLt
        rw [BitVec.toNat_sub, toNat_wordAt, toNat_wordAt]
        omega
      have h₂ := run_BR (n := 4) (s := s.setGpr 11 (BitVec.ofNat 32 (4 * k)))
        (by rw [hpc₁]; exact hbranch) (by rw [hpc₁, hoff]; omega) (by rw [hpc₁, b24ValidRange_iff, hoff]; omega)
      have hload : read32 .big m (BitVec.ofNat 32 (4 * k) + wordAt P (18 + 2 * c)) = t := by
        rw [BitVec.add_comm, ← hentry, word]
        congr 1
        exact wordAt_wordAt
      have hstub := run_load (n := 2) (s := { s.setGpr 11 (BitVec.ofNat 32 (4 * k)) with pc := wordAt P 6 })
        hcall rfl hload
      obtain ⟨s', hrun, hpc', hr', hlr, hgpr⟩ := hstub
      refine ⟨6, { s' with pc := t, ctr := t }, by omega, ?_, rfl, hlr, fun r hr => ?_⟩
      · exact h₁.trans (h₂.trans (hrun.trans (run_jump hcall hpc' ht hr')))
      · exact (hgpr r hr).trans (if_neg hr)

end Exec

/-! ### Setting up the table -/

/-- The fields of the table at `P` with `c` slots. -/
structure Layout (P : Addr) (c : ℕ) (p : Plt) : Prop where
  pltresolve : p.pltresolve = P
  pltcall : p.pltcall = wordAt P 6
  firstRela : p.firstRela = wordAt P 18
  plttable : p.plttable = wordAt P (18 + 2 * c)

section Setup

variable {p : Plt} {m : Mem}

theorem word_write32 {P : Addr} {i j : ℕ} (v : BitVec 32) (hi : i < 2 ^ 30) (hj : j < 2 ^ 30) :
    word (write32 .big m (wordAt P j) v) P i = if i = j then v else word m P i :=
  read32_write32_wordAt v hi hj

/-- The table of addresses follows the slots. -/
theorem plttable_eq (hc : p.pltRelCount.toNat ≤ 8192) :
    (if 8192#32 ≤ p.pltRelCount then
        wordAt p.pltGot 18 + (2#32 * 8192#32 + 4#32 * (p.pltRelCount - 8192#32)) * 4#32
      else wordAt p.pltGot 18 + 2#32 * p.pltRelCount * 4#32) =
      wordAt p.pltGot (18 + 2 * p.pltRelCount.toNat) := by
  split
  · next h =>
    have h' : 8192 ≤ p.pltRelCount.toNat := h
    have he : p.pltRelCount = 8192#32 := BitVec.eq_of_toNat_eq (Nat.le_antisymm hc h')
    rw [he]
    unfold wordAt
    rw [BitVec.add_assoc]
    rfl
  · apply BitVec.eq_of_toNat_eq
    unfold wordAt
    simp only [BitVec.toNat_add, BitVec.toNat_mul, BitVec.toNat_ofNat]
    omega

theorem setupGot_layout (hgot : p.pltGot ≠ 0#32) (hc : p.pltRelCount.toNat ≤ 8192) :
    Layout p.pltGot p.pltRelCount.toNat (setupGot p m).1 ∧
      CallStub (setupGot p m).2 p.pltGot (wordAt p.pltGot (18 + 2 * p.pltRelCount.toNat)) := by
  unfold setupGot
  rw [if_neg hgot]
  dsimp only
  rw [plttable_eq hc]
  refine ⟨⟨rfl, rfl, rfl, rfl⟩, ?_⟩
  simp only [wordAt_wordAt]
  constructor <;> simp [word_write32]

end Setup

/-! ### Filling in the slots -/

section Slots

variable {E : Objects} {si : Ptr} {p : Plt} {P : Addr} {c k i : ℕ} {rela : Rela} {l l' : Loop}

/-- The words that belong to slot `k`. -/
def Touches (c k i : ℕ) : Prop := i = 18 + 2 * k ∨ i = 19 + 2 * k ∨ i = 18 + 2 * c + k

theorem slotIndex_eq (h : Layout P c p) (hk : k < 8192) :
    slotIndex p (wordAt P (18 + 2 * k)) = BitVec.ofNat 32 k := by
  have hlt := P.isLt
  have hdiff : (wordAt P (18 + 2 * k) - p.firstRela).toNat = 8 * k := by
    rw [h.firstRela, BitVec.toNat_sub, toNat_wordAt, toNat_wordAt]
    omega
  have hmsb : (wordAt P (18 + 2 * k) - p.firstRela).msb = false := by
    rw [BitVec.msb_eq_decide, hdiff, decide_eq_false_iff_not]
    omega
  have hmsb' : ((wordAt P (18 + 2 * k) - p.firstRela) >>> 2).msb = false := by
    rw [BitVec.msb_eq_decide, BitVec.toNat_ushiftRight, hdiff, Nat.shiftRight_eq_div_pow,
      decide_eq_false_iff_not]
    omega
  unfold slotIndex
  rw [BitVec.sshiftRight_eq_of_msb_false hmsb, BitVec.sshiftRight_eq_of_msb_false hmsb']
  apply BitVec.eq_of_toNat_eq
  rw [BitVec.toNat_ushiftRight, BitVec.toNat_ushiftRight, hdiff, Nat.shiftRight_eq_div_pow,
    Nat.shiftRight_eq_div_pow, BitVec.toNat_ofNat]
  omega

/-- What a slot holds after its entry, and that all other words stay. -/
theorem jmpSlot_stub {m m' : Mem} {t : Addr} (h : Layout P c p) (hk : k < c) (hc : c ≤ 8192)
    (hrun : jmpSlot p (wordAt P (18 + 2 * k)) t m = .ok m') :
    Stub m' P c k t ∧ ∀ i < 2 ^ 30, ¬ Touches c k i → word m' P i = word m P i := by
  have hidx := slotIndex_eq h (show k < 8192 by omega)
  have htoNat : (BitVec.ofNat 32 k).toNat = k := by
    rw [BitVec.toNat_ofNat]
    omega
  have hsmall : ¬ 8192#32 ≤ BitVec.ofNat 32 k := by
    rw [BitVec.le_def, htoNat, BitVec.toNat_ofNat]
    omega
  have hmul : BitVec.ofNat 32 k * 4#32 = BitVec.ofNat 32 (4 * k) := by
    rw [Nat.mul_comm, BitVec.ofNat_mul]
  have hnext : wordAt (wordAt P (18 + 2 * k)) 1 = wordAt P (19 + 2 * k) := by
    rw [wordAt_wordAt]
    congr 1
    omega
  unfold jmpSlot at hrun
  split at hrun
  · cases hrun
  · split at hrun
    · next hnear =>
      cases hrun
      refine ⟨.near hnear ?_, fun i hi ht => ?_⟩
      · rw [word_write32 _ (by omega) (by omega), if_pos rfl]
      · rw [word_write32 _ hi (by omega), if_neg fun h => ht (Or.inl h)]
    · next hfar =>
      rw [hidx] at hrun
      dsimp only at hrun
      rw [if_neg hsmall, hmul, htoNat, hnext, h.pltcall, h.plttable, wordAt_wordAt] at hrun
      cases hrun
      refine ⟨.far ?_ ?_ ?_, fun i hi ht => ?_⟩
      · rw [word_write32 _ (by omega) (by omega), if_neg (by omega), word_write32 _ (by omega) (by omega),
          if_neg (by omega), word_write32 _ (by omega) (by omega), if_pos rfl]
      · rw [word_write32 _ (by omega) (by omega), if_neg (by omega), word_write32 _ (by omega) (by omega),
          if_pos rfl]
      · rw [word_write32 _ (by omega) (by omega), if_pos rfl]
      · unfold Touches at ht
        rw [word_write32 _ hi (by omega), if_neg (by omega), word_write32 _ hi (by omega),
          if_neg (by omega), word_write32 _ hi (by omega), if_neg (by omega)]

/-- The address that an entry is about. -/
def target (E : Objects) (rela : Rela) (f : Found) : Addr := (locatedAt E f).addr + rela.rAddend

theorem relocEntry_jmpSlot (hkind : kind (rType rela.rInfo) = .jmpSlot)
    (hsym : rSym rela.rInfo ≠ 0xffffff#32) (hrun : relocEntry E si p l rela = .ok l') :
    ∃ f, doLookup E (some si) (symName E si rela) = .ok (some f) ∧
      jmpSlot p (rAddr E si rela) (target E rela f) l.mem = .ok l'.mem := by
  rcases relocEntry_eq_ok hrun with ⟨h, -⟩ | ⟨-, st, hst, happly⟩
  · exact absurd h hsym
  · unfold apply at happly
    simp only [hkind] at happly
    obtain ⟨t, ht, happly⟩ := bind_eq_ok.1 happly
    obtain ⟨m, hm, happly⟩ := bind_eq_ok.1 happly
    obtain rfl := deref_eq_ok.1 ht
    unfold resolve at hst
    split at hst
    · obtain ⟨t', ht', he⟩ := map_eq_ok.1 hst
      obtain ⟨f, hf, rfl⟩ := located_eq_ok.1 ht'
      cases he
      refine ⟨f, hf, ?_⟩
      rw [← pure_eq_ok.1 happly]
      exact hm
    · cases hst

/-- An entry for slot `k`. -/
structure SlotEntry (E : Objects) (si : Ptr) (P : Addr) (c : ℕ) (rela : Rela) (k : ℕ) : Prop where
  kind : kind (rType rela.rInfo) = .jmpSlot
  addr : rAddr E si rela = wordAt P (18 + 2 * k)
  lt : k < c

theorem relocEntry_words (h : Layout P c p) (hc : c ≤ 8192) (hs : SlotEntry E si P c rela k)
    (hrun : relocEntry E si p l rela = .ok l') (hi : i < 2 ^ 30) (ht : ¬ Touches c k i) :
    word l'.mem P i = word l.mem P i := by
  by_cases hsym : rSym rela.rInfo = 0xffffff#32
  · rcases relocEntry_eq_ok hrun with ⟨-, rfl⟩ | ⟨hne, -⟩
    · rfl
    · exact absurd hsym hne
  · obtain ⟨f, -, hslot⟩ := relocEntry_jmpSlot hs.kind hsym hrun
    rw [hs.addr] at hslot
    exact (jmpSlot_stub h hs.lt hc hslot).2 i hi ht

theorem relocEntries_words {relas : List Rela} (h : Layout P c p) (hc : c ≤ 8192)
    (hs : ∀ rela ∈ relas, ∃ k, SlotEntry E si P c rela k ∧ ¬ Touches c k i)
    (hrun : relas.foldlM (relocEntry E si p) l = .ok l') (hi : i < 2 ^ 30) :
    word l'.mem P i = word l.mem P i := by
  refine foldlM_invariant (I := fun t => word t.mem P i = word l.mem P i) hrun rfl ?_
  intro rela hrela t t' ht hstep
  obtain ⟨k, hk, hti⟩ := hs rela hrela
  exact (relocEntry_words h hc hk hstep hi hti).trans ht

theorem Stub.congr {m m' : Mem} {t : Addr} (h : Stub m P c k t) (hk : k < c) (hc : c ≤ 8192)
    (hm : ∀ i < 2 ^ 30, Touches c k i → word m' P i = word m P i) : Stub m' P c k t := by
  cases h with
  | near hrange hbranch => exact .near hrange ((hm _ (by omega) (Or.inl rfl)).trans hbranch)
  | far hli hbranch hentry =>
      refine .far ((hm _ (by omega) (Or.inl rfl)).trans hli) ?_ ?_
      · exact (hm _ (by omega) (Or.inr (Or.inl rfl))).trans hbranch
      · exact (hm _ (by omega) (Or.inr (Or.inr rfl))).trans hentry

theorem CallStub.congr {m m' : Mem} {table : Addr} (h : CallStub m P table)
    (hm : ∀ i < 10, word m' P i = word m P i) : CallStub m' P table where
  addis := (hm 6 (by omega)).trans h.addis
  lwz := (hm 7 (by omega)).trans h.lwz
  mtctr := (hm 8 (by omega)).trans h.mtctr
  bctr := (hm 9 (by omega)).trans h.bctr

/-- After a run each slot that was filled in holds its words: those of a later entry are elsewhere. -/
theorem relocEntries_stub {relas : List Rela} (h : Layout P c p) (hc : c ≤ 8192)
    (hs : ∀ rela ∈ relas, ∃ k, SlotEntry E si P c rela k) (hnd : (relas.map (rAddr E si)).Nodup)
    (hrun : relas.foldlM (relocEntry E si p) l = .ok l') :
    ∀ rela ∈ relas, rSym rela.rInfo ≠ 0xffffff#32 → ∃ k f, SlotEntry E si P c rela k ∧
      doLookup E (some si) (symName E si rela) = .ok (some f) ∧ Stub l'.mem P c k (target E rela f) := by
  induction relas generalizing l with
  | nil => simp
  | cons r relas ih =>
      rw [List.foldlM_cons, bind_eq_ok] at hrun
      obtain ⟨l₁, hhead, htail⟩ := hrun
      rw [List.map_cons, List.nodup_cons] at hnd
      have hs' : ∀ rela ∈ relas, ∃ k, SlotEntry E si P c rela k :=
        fun rela hrela => hs rela (List.mem_cons_of_mem _ hrela)
      intro rela hrela hsym
      rcases List.mem_cons.1 hrela with rfl | hrela
      · obtain ⟨k, hk⟩ := hs rela List.mem_cons_self
        obtain ⟨f, hf, hslot⟩ := relocEntry_jmpSlot hk.kind hsym hhead
        rw [hk.addr] at hslot
        have hstub := (jmpSlot_stub h hk.lt hc hslot).1
        refine ⟨k, f, hk, hf, hstub.congr hk.lt hc fun i hi hti => ?_⟩
        refine relocEntries_words h hc (fun r hr => ?_) htail hi
        obtain ⟨j, hj⟩ := hs' r hr
        refine ⟨j, hj, fun htj => hnd.1 ?_⟩
        have hjk : j = k := by
          have hjc := hj.lt
          have hkc := hk.lt
          unfold Touches at hti htj
          omega
        exact List.mem_map.2 ⟨r, hr, by rw [hj.addr, hk.addr, hjk]⟩
      · exact ih hs' hnd.2 htail rela hrela hsym

end Slots

/-! ### The whole table -/

/-- The entries are for different slots of a table with at most 8192 of them. -/
structure JmpSlots (E : Objects) (si : Ptr) (p : Plt) (m : Mem) (relas : List Rela) : Prop where
  /-- A new `soinfo` is cleared. -/
  fresh : p.pltresolve = 0#32
  /-- `plt_got` points to words. -/
  aligned : p.pltGot.toNat % 4 = 0
  count : p.pltRelCount.toNat ≤ 8192
  entries : ∀ rela ∈ relas, kind (rType rela.rInfo) = .jmpSlot ∧
    ∃ k < p.pltRelCount.toNat, rAddr E si rela = wordAt (setupGot p m).1.firstRela (2 * k)
  distinct : (relas.map (rAddr E si)).Nodup

section Table

variable {E : Objects} {si : Ptr} {p : Plt} {m m' : Mem} {relas : List Rela} {reltype base : BitVec 32}

/-- Without a table there is no entry that succeeds. -/
theorem pltGot_ne_zero {rela : Rela} {l : Loop} (h : JmpSlots E si p m relas)
    (hrun : relas.foldlM (relocEntry E si (setupGot p m).1) ⟨(setupGot p m).2, base⟩ = .ok l)
    (hrela : rela ∈ relas) (hsym : rSym rela.rInfo ≠ 0xffffff#32) : p.pltGot ≠ 0#32 := by
  intro hgot
  have hsetup : setupGot p m = (p, m) := if_pos hgot
  rw [hsetup] at hrun
  obtain ⟨l₁, l₂, rfl⟩ := List.append_of_mem hrela
  obtain ⟨t, t', -, hstep, -⟩ := foldlM_append_cons hrun
  obtain ⟨f, -, hslot⟩ := relocEntry_jmpSlot (h.entries rela hrela).1 hsym hstep
  rw [jmpSlot, if_pos h.fresh] at hslot
  cases hslot

/-- After `setup_got` and a successful run of `reloc_library` over the entries of the table, calling
through a slot leads to the symbol that the slot is for, if the address of the symbol is aligned. -/
theorem plt_transfers (h : JmpSlots E si p m relas)
    (hrun : relocLibrary E si (setupGot p m).1 reltype relas base (setupGot p m).2 = .ok m') :
    ∀ rela ∈ relas, rSym rela.rInfo ≠ 0xffffff#32 → ∃ f,
      doLookup E (some si) (symName E si rela) = .ok (some f) ∧
      ((target E rela f).toNat % 4 = 0 → Transfers m' (rAddr E si rela) (target E rela f)) := by
  intro rela hrela hsym
  obtain ⟨l, hl, rfl⟩ := relocLibrary_eq_ok hrun
  have hgot := pltGot_ne_zero h hl hrela hsym
  obtain ⟨hlayout, hcall⟩ := setupGot_layout (m := m) hgot h.count
  have hentries : ∀ r ∈ relas, ∃ k, SlotEntry E si p.pltGot p.pltRelCount.toNat r k := by
    intro r hr
    obtain ⟨hkind, k, hk, haddr⟩ := h.entries r hr
    rw [hlayout.firstRela, wordAt_wordAt] at haddr
    exact ⟨k, hkind, haddr, hk⟩
  obtain ⟨k, f, hk, hf, hstub⟩ :=
    relocEntries_stub hlayout h.count hentries h.distinct hl rela hrela hsym
  refine ⟨f, hf, fun ht => ?_⟩
  have hwords : ∀ i < 10, word l.mem p.pltGot i = word (setupGot p m).2 p.pltGot i := by
    intro i hi
    have hout : ∀ r ∈ relas, ∃ j, SlotEntry E si p.pltGot p.pltRelCount.toNat r j ∧
        ¬ Touches p.pltRelCount.toNat j i := by
      intro r hr
      obtain ⟨j, hj⟩ := hentries r hr
      refine ⟨j, hj, fun htj => ?_⟩
      unfold Touches at htj
      omega
    have hlt : i < 2 ^ 30 := Nat.lt_trans hi (by decide)
    rw [relocEntries_words hlayout h.count hout hl hlt]
  have hcall' : CallStub l.mem p.pltGot (wordAt p.pltGot (18 + 2 * p.pltRelCount.toNat)) :=
    hcall.congr hwords
  rw [hk.addr]
  exact stub_transfers hcall' hstub hk.lt h.count h.aligned ht

/-- A table at `0x10000` with two slots, the second of which is for a library far away. -/
theorem transfers_to_library :
    ∃ m', relocLibrary (referenceAndLibrary 0x12) (.pool 0)
        (setupGot ⟨0x10000, 2, 0, 0, 0, 0, 0⟩ fun _ => 0).1 DT_RELA [⟨0x8050, 0x115, 0⟩] 0
        (setupGot ⟨0x10000, 2, 0, 0, 0, 0, 0⟩ fun _ => 0).2 = .ok m' ∧
      Transfers m' 0x10050 0x40000100 := by
  obtain ⟨m', hm'⟩ := exists_ok_of_isOk (x := relocLibrary (referenceAndLibrary 0x12) (.pool 0)
        (setupGot ⟨0x10000, 2, 0, 0, 0, 0, 0⟩ fun _ => 0).1 DT_RELA [⟨0x8050, 0x115, 0⟩] 0
        (setupGot ⟨0x10000, 2, 0, 0, 0, 0, 0⟩ fun _ => 0).2) (by decide)
  have hslots : JmpSlots (referenceAndLibrary 0x12) (.pool 0) ⟨0x10000, 2, 0, 0, 0, 0, 0⟩ (fun _ => 0)
      [⟨0x8050, 0x115, 0⟩] :=
    { fresh := rfl
      aligned := by decide
      count := by decide
      entries := by
        intro rela hrela
        obtain rfl := List.mem_singleton.1 hrela
        exact ⟨by decide, 1, by decide, by decide⟩
      distinct := List.nodup_singleton _ }
  obtain ⟨f, hf, htransfers⟩ := plt_transfers hslots hm' _ (List.mem_singleton_self _) (by decide)
  have hlookup : doLookup (referenceAndLibrary 0x12) (some (.pool 0))
      (symName (referenceAndLibrary 0x12) (.pool 0) ⟨0x8050, 0x115, 0⟩) =
      .ok (some ⟨.pool 1, 1, 0x40000000⟩) := by decide
  obtain rfl : f = ⟨.pool 1, 1, 0x40000000⟩ := Option.some.inj (Except.ok.inj (hf.symm.trans hlookup))
  exact ⟨m', hm', htransfers (by decide)⟩

end Table

end Bionic.Plt
