import Bionic.Plt
import Bionic.RelocOrder

/-! # Far calls through a large procedure linkage table

From slot 8192 on a slot has four words instead of two.  `reloc_library` still takes half the distance from the
first slot, in words, for the index of a far slot in the table of addresses.  `tableIndex` says which index that
is, and `farIndices_iff` for which slots it lies in the table. -/

namespace Bionic.PltFar

open ByteMemory ElfLookup PowerPc Plt Reloc Reloc.Ppc RelocOrder StateExcept
open Linker (CStr Ptr Fault)

/-! ### The layout of the slots -/

/-- The number of words before slot `k`. -/
def slotWord (k : ℕ) : ℕ := if k < 8192 then 2 * k else 2 * 8192 + 4 * (k - 8192)

/-- The number of words of slot `k`. -/
def slotSize (k : ℕ) : ℕ := if k < 8192 then 2 else 4

/-- The address of slot `k` of the linkage table at `P`. -/
def slotAt (P : Addr) (k : ℕ) : Addr := wordAt P (18 + slotWord k)

theorem slotWord_of_small {k : ℕ} (h : k < 8192) : slotWord k = 2 * k := if_pos h

theorem slotWord_of_large {k : ℕ} (h : 8192 ≤ k) : slotWord k = 2 * 8192 + 4 * (k - 8192) := if_neg (by omega)

theorem slotWord_lt {j k : ℕ} (h : j < k) : slotWord j + slotSize j ≤ slotWord k := by
  unfold slotWord slotSize
  split <;> split <;> omega

/-- The linkage table at `P` with `n` slots and the `n` addresses behind it do not wrap around. -/
def Fits (P : Addr) (n : ℕ) : Prop := P.toNat + 4 * (18 + slotWord n + n) ≤ 2 ^ 32

section Setup

variable {p : Plt} {m : Mem}

/-- The table of addresses follows the slots. -/
theorem plttable_eq_slotWord (P : Addr) (c : BitVec 32) :
    (if 8192#32 ≤ c then wordAt P 18 + (2#32 * 8192#32 + 4#32 * (c - 8192#32)) * 4#32
      else wordAt P 18 + 2#32 * c * 4#32) = wordAt P (18 + slotWord c.toNat) := by
  have first : 2#32 * 8192#32 = 16384#32 := by decide
  rw [first]
  apply BitVec.eq_of_toNat_eq
  split
  · next h =>
    rw [BitVec.le_def, BitVec.toNat_ofNat] at h
    have words := slotWord_of_large (k := c.toNat) (by omega)
    unfold wordAt
    simp only [BitVec.toNat_add, BitVec.toNat_mul, BitVec.toNat_sub, BitVec.toNat_ofNat]
    omega
  · next h =>
    rw [BitVec.le_def, BitVec.toNat_ofNat] at h
    have words := slotWord_of_small (k := c.toNat) (by omega)
    unfold wordAt
    simp only [BitVec.toNat_add, BitVec.toNat_mul, BitVec.toNat_ofNat]
    omega

theorem setupGot_fields (hgot : p.pltGot ≠ 0#32) : (setupGot p m).1.pltresolve = p.pltGot ∧
    (setupGot p m).1.pltcall = wordAt p.pltGot 6 ∧ (setupGot p m).1.firstRela = wordAt p.pltGot 18 ∧
    (setupGot p m).1.plttable = wordAt p.pltGot (18 + slotWord p.pltRelCount.toNat) := by
  unfold setupGot
  rw [if_neg hgot]
  dsimp only
  rw [plttable_eq_slotWord]
  exact ⟨rfl, rfl, rfl, rfl⟩

end Setup

/-! ### The index of a slot -/

/-- A distance of `d` bytes, shifted twice as a signed number. -/
theorem toNat_sshiftRight (d : BitVec 32) : ((d.sshiftRight 2).sshiftRight 1).toNat =
    if d.toNat < 2 ^ 31 then d.toNat / 8 else d.toNat / 8 + (2 ^ 32 - 2 ^ 29) := by
  have shift : ((d.sshiftRight 2).sshiftRight 1).toInt = d.toInt / 8 := by
    rw [BitVec.toInt_sshiftRight, BitVec.toInt_sshiftRight, ← Int.shiftRight_add, Int.shiftRight_eq_div_pow]
    norm_num
  have hd := d.isLt
  have hs := ((d.sshiftRight 2).sshiftRight 1).isLt
  rw [BitVec.toInt_eq_toNat_cond, BitVec.toInt_eq_toNat_cond] at shift
  split at shift <;> split at shift <;> split <;> omega

/-- The index that `reloc_library` computes for slot `k`, as a number. -/
def tableIndex (k : ℕ) : ℕ :=
  if 4 * slotWord k < 2 ^ 31 then slotWord k / 2 else slotWord k / 2 + (2 ^ 32 - 2 ^ 29)

section Index

variable {p : Plt} {P : Addr} {n j k : ℕ}

theorem toNat_slotIndex (hfirst : p.firstRela = wordAt P 18) (hfits : Fits P n) (hk : k < n) :
    (slotIndex p (slotAt P k)).toNat = tableIndex k := by
  have hP := P.isLt
  have before := slotWord_lt hk
  have distance : (slotAt P k - p.firstRela).toNat = 4 * slotWord k := by
    rw [hfirst, slotAt, BitVec.toNat_sub, toNat_wordAt, toNat_wordAt]
    unfold Fits at hfits
    omega
  unfold slotIndex tableIndex
  rw [toNat_sshiftRight, distance]
  split <;> omega

theorem tableIndex_of_small (h : k < 8192) : tableIndex k = k := by
  unfold tableIndex
  rw [slotWord_of_small h, if_pos (by omega)]
  omega

theorem tableIndex_of_large (h : 8192 ≤ k) : tableIndex k =
    if k < 2 ^ 27 + 2 ^ 12 then 2 * k - 8192 else 2 * k - 8192 + (2 ^ 32 - 2 ^ 29) := by
  unfold tableIndex
  rw [slotWord_of_large h]
  split <;> split <;> omega

/-- Five words for each slot but the first ones leave room for less than `2 ^ 28` slots. -/
theorem Fits.lt (h : Fits P n) : n < 2 ^ 28 := by
  unfold Fits slotWord at h
  split at h <;> omega

/-- Different slots have different indices, also where the distance is taken for a negative number. -/
theorem tableIndex_injective (h : tableIndex j = tableIndex k) : j = k := by
  rcases Nat.lt_or_ge j 8192 with hj | hj <;> rcases Nat.lt_or_ge k 8192 with hk | hk
  · rwa [tableIndex_of_small hj, tableIndex_of_small hk] at h
  · rw [tableIndex_of_small hj, tableIndex_of_large hk] at h
    split at h <;> omega
  · rw [tableIndex_of_large hj, tableIndex_of_small hk] at h
    split at h <;> omega
  · rw [tableIndex_of_large hj, tableIndex_of_large hk] at h
    split at h <;> split at h <;> omega

/-- Which slots have an index in the table. -/
theorem tableIndex_lt_iff (hfits : Fits P n) (hk : k < n) :
    tableIndex k < n ↔ k < 8192 ∨ 2 * k < n + 8192 := by
  have hn := hfits.lt
  rcases Nat.lt_or_ge k 8192 with h | h
  · rw [tableIndex_of_small h]
    omega
  · rw [tableIndex_of_large h]
    split <;> omega

end Index

/-! ### The far slots of a table -/

section

variable (E : Objects) (si : Ptr) (p : Plt) (relas : List Rela)

/-- The relocation entries of a linkage table: each is for one of the slots. -/
structure PltEntries : Prop where
  got : p.pltGot ≠ 0#32
  fits : Fits p.pltGot p.pltRelCount.toNat
  entries : ∀ rela ∈ relas, kind (rType rela.rInfo) = .jmpSlot ∧
    ∃ k < p.pltRelCount.toNat, rAddr E si rela = slotAt p.pltGot k

/-- An entry for slot `k` whose target is too far away for a branch. -/
structure FarEntry (rela : Rela) (k : ℕ) : Prop where
  mem : rela ∈ relas
  taken : rSym rela.rInfo ≠ 0xffffff#32
  slot : rAddr E si rela = slotAt p.pltGot k
  lt : k < p.pltRelCount.toNat
  far : ∃ f, doLookup E (some si) (symName E si rela) = .ok (some f) ∧
    ¬ b24ValidRange (target E rela f - rAddr E si rela)

def FarSlot (k : ℕ) : Prop := ∃ rela, FarEntry E si p relas rela k

/-- The far slots have different words of the table behind the linkage table, and an entry writes to its slot and
to this word only. -/
structure FarIndices (m : Mem) : Prop where
  distinct : ∀ rela k rela' k', FarEntry E si p relas rela k → FarEntry E si p relas rela' k' → k ≠ k' →
    slotIndex (setupGot p m).1 (rAddr E si rela) ≠ slotIndex (setupGot p m).1 (rAddr E si rela')
  inTable : ∀ rela k, FarEntry E si p relas rela k →
    (slotIndex (setupGot p m).1 (rAddr E si rela)).toNat < p.pltRelCount.toNat
  writes : ∀ rela k, FarEntry E si p relas rela k →
    ∀ l l', relocEntry E si (setupGot p m).1 l rela = .ok l' → ∀ x,
      x ∉ range (slotAt p.pltGot k) (4 * slotSize k) →
      x ∉ range (wordAt p.pltGot (18 + slotWord p.pltRelCount.toNat)) (4 * p.pltRelCount.toNat) → l'.mem x = l.mem x

end

section Table

variable {E : Objects} {si : Ptr} {p : Plt} {m : Mem} {relas : List Rela} {rela : Rela} {k : ℕ}

theorem FarEntry.toNat_slotIndex (h : FarEntry E si p relas rela k) (hplt : PltEntries E si p relas) :
    (slotIndex (setupGot p m).1 (rAddr E si rela)).toNat = tableIndex k := by
  obtain ⟨-, -, hfirst, -⟩ := setupGot_fields (m := m) hplt.got
  rw [h.slot]
  exact PltFar.toNat_slotIndex hfirst hplt.fits h.lt

/-- The words that a far entry writes. -/
theorem FarEntry.writes (h : FarEntry E si p relas rela k) (hplt : PltEntries E si p relas)
    (hk : tableIndex k < p.pltRelCount.toNat) {l l' : Loop}
    (hrun : relocEntry E si (setupGot p m).1 l rela = .ok l') {x : Addr}
    (hslot : x ∉ range (slotAt p.pltGot k) (4 * slotSize k))
    (htable : x ∉ range (wordAt p.pltGot (18 + slotWord p.pltRelCount.toNat)) (4 * p.pltRelCount.toNat)) :
    l'.mem x = l.mem x := by
  obtain ⟨-, -, -, htab⟩ := setupGot_fields (m := m) hplt.got
  have index := h.toNat_slotIndex (m := m) hplt
  have slots := hplt.fits.lt
  have outside (i : ℕ) (hi : i < slotSize k) : x ∉ range (wordAt (rAddr E si rela) i) 4 := fun hx => by
    rw [h.slot] at hx
    have size : slotSize k ≤ 4 := by
      unfold slotSize
      split <;> omega
    exact hslot (range_wordAt_subset (by omega) (by omega) hx)
  have first : x ∉ range (rAddr E si rela) 4 := by
    have hfirst := outside 0 (by unfold slotSize; split <;> omega)
    rwa [show wordAt (rAddr E si rela) 0 = rAddr E si rela by simp [wordAt]] at hfirst
  have second : x ∉ range (wordAt (rAddr E si rela) 1) 4 := outside 1 (by unfold slotSize; split <;> omega)
  have entry : x ∉ range (wordAt (setupGot p m).1.plttable (slotIndex (setupGot p m).1 (rAddr E si rela)).toNat) 4 := by
    rw [index, htab]
    exact fun hx => htable (range_wordAt_subset (by omega) (by omega) hx)
  apply relocEntry_outside hrun
  unfold targets
  rw [if_neg h.taken, (hplt.entries rela h.mem).1]
  dsimp only
  split
  · unfold slotTargets
    split
    · exact first
    · split
      · next large =>
        have hlarge : 8192 ≤ k := by
          rw [BitVec.le_def, index, BitVec.toNat_ofNat] at large
          by_contra hsmall
          rw [tableIndex_of_small (by omega)] at large
          omega
        have third : x ∉ range (wordAt (rAddr E si rela) 2) 4 := outside 2 (by unfold slotSize; split <;> omega)
        simp only [Set.mem_union, not_or]
        exact ⟨⟨⟨first, second⟩, third⟩, entry⟩
      · simp only [Set.mem_union, not_or]
        exact ⟨⟨first, second⟩, entry⟩
  · exact Set.notMem_empty x

/-- The indices of the far slots are distinct and lie in the table if and only if no far slot from 8192 on has a
number as large as the mean of 8192 and the number of slots. -/
theorem farIndices_iff (hplt : PltEntries E si p relas) (m : Mem) : FarIndices E si p relas m ↔
    ∀ k, FarSlot E si p relas k → k < 8192 ∨ 2 * k < p.pltRelCount.toNat + 8192 := by
  constructor
  · rintro h k ⟨rela, far⟩
    have lt := h.inTable rela k far
    rw [far.toNat_slotIndex hplt] at lt
    exact (tableIndex_lt_iff hplt.fits far.lt).1 lt
  · intro h
    have lt {rela : Rela} {k : ℕ} (far : FarEntry E si p relas rela k) : tableIndex k < p.pltRelCount.toNat :=
      (tableIndex_lt_iff hplt.fits far.lt).2 (h k ⟨rela, far⟩)
    refine ⟨fun rela k rela' k' far far' ne he => ne ?_, fun rela k far => ?_, fun rela k far l l' hrun x => ?_⟩
    · have same := congrArg BitVec.toNat he
      rw [far.toNat_slotIndex hplt, far'.toNat_slotIndex hplt] at same
      exact tableIndex_injective same
    · rw [far.toNat_slotIndex hplt]
      exact lt far
    · exact far.writes hplt (lt far) hrun

end Table

/-! ### A linkage table with a call to the library from every slot -/

/-- A table at `0x10000` with `n` slots. -/
def tableOf (n : ℕ) : Plt := ⟨0x10000#32, BitVec.ofNat 32 n, 0, 0, 0, 0, 0⟩

/-- `R_PPC_JMP_SLOT` on `foo` for slot `k`, in a program at `0x8000`. -/
def slotEntry (k : ℕ) : Rela := ⟨slotAt 0x10000#32 k - 0x8000#32, 0x115#32, 0#32⟩

def slotEntries (n : ℕ) : List Rela := (List.range n).map slotEntry

section Library

variable {n k : ℕ}

theorem rAddr_slotEntry (k : ℕ) : rAddr (referenceAndLibrary 0x12) (.pool 0) (slotEntry k) = slotAt 0x10000#32 k :=
  BitVec.sub_add_cancel _ _

theorem toNat_tableOf (hn : n < 2 ^ 16) : (tableOf n).pltRelCount.toNat = n := by
  show (BitVec.ofNat 32 n).toNat = n
  rw [BitVec.toNat_ofNat]
  omega

theorem pltEntries_tableOf (hn : n < 2 ^ 16) :
    PltEntries (referenceAndLibrary 0x12) (.pool 0) (tableOf n) (slotEntries n) where
  got := by
    show 0x10000#32 ≠ 0#32
    decide
  fits := by
    rw [toNat_tableOf hn]
    show 0x10000 + 4 * (18 + slotWord n + n) ≤ 2 ^ 32
    unfold slotWord
    split <;> omega
  entries rela hrela := by
    obtain ⟨k, hk, rfl⟩ := List.mem_map.1 hrela
    rw [toNat_tableOf hn]
    have hkind : kind (rType 0x115#32) = .jmpSlot := by decide
    exact ⟨hkind, k, List.mem_range.1 hk, rAddr_slotEntry k⟩

theorem lookup_slotEntry (k : ℕ) : doLookup (referenceAndLibrary 0x12) (some (.pool 0))
    (symName (referenceAndLibrary 0x12) (.pool 0) (slotEntry k)) = .ok (some ⟨.pool 1, 1, 0x40000000⟩) := by
  show doLookup (referenceAndLibrary 0x12) (some (.pool 0)) "foo".toList = _
  decide

theorem farEntry_tableOf (hn : n < 2 ^ 16) (hk : k < n) :
    FarEntry (referenceAndLibrary 0x12) (.pool 0) (tableOf n) (slotEntries n) (slotEntry k) k where
  mem := List.mem_map_of_mem (List.mem_range.2 hk)
  taken := by
    show rSym 0x115#32 ≠ 0xffffff#32
    decide
  slot := rAddr_slotEntry k
  lt := by rwa [toNat_tableOf hn]
  far := by
    refine ⟨_, lookup_slotEntry k, ?_⟩
    have htarget : target (referenceAndLibrary 0x12) (slotEntry k) ⟨.pool 1, 1, 0x40000000⟩ = 0x40000100#32 := by
      show 0x40000000#32 + 0x100#32 + 0#32 = 0x40000100#32
      decide
    have hslot : (slotAt 0x10000#32 k).toNat = 0x10000 + 4 * (18 + slotWord k) := by
      rw [slotAt, toNat_wordAt]
      unfold slotWord
      split <;> simp <;> omega
    rw [b24ValidRange_iff, htarget, rAddr_slotEntry, BitVec.toNat_sub, hslot]
    unfold slotWord
    split <;> simp <;> omega

theorem farSlot_lt (hn : n < 2 ^ 16)
    (h : FarSlot (referenceAndLibrary 0x12) (.pool 0) (tableOf n) (slotEntries n) k) : k < n := by
  obtain ⟨rela, far⟩ := h
  have lt := far.lt
  rwa [toNat_tableOf hn] at lt

theorem jmpSlot_ok {p : Plt} (hgot : p.pltresolve ≠ 0#32) (a t : Addr) (m : Mem) : ∃ m', jmpSlot p a t m = .ok m' := by
  unfold jmpSlot
  rw [if_neg hgot]
  split
  · exact ⟨_, rfl⟩
  · exact ⟨_, rfl⟩

theorem resolve_slotEntry (k : ℕ) : resolve (referenceAndLibrary 0x12) (.pool 0) (slotEntry k) =
    .ok (some (locatedAt (referenceAndLibrary 0x12) ⟨.pool 1, 1, 0x40000000⟩)) := by
  have looked : rSym (slotEntry k).rInfo ≠ 0 ∧
      ¬ sectionSym (sym (referenceAndLibrary 0x12) (.pool 0) (slotEntry k)) := by
    show rSym 0x115#32 ≠ 0#32 ∧ ¬ sectionSym ⟨1, 0x100, 4, 0x12, 0⟩
    decide
  unfold resolve
  rw [if_pos looked, lookup_slotEntry]
  rfl

/-- All entries of the table are processed. -/
theorem exists_run (n : ℕ) (m : Mem) : ∃ m', relocLibrary (referenceAndLibrary 0x12) (.pool 0)
    (setupGot (tableOf n) m).1 DT_RELA (slotEntries n) 0 (setupGot (tableOf n) m).2 = .ok m' := by
  have got : (tableOf n).pltGot ≠ 0#32 := by
    show 0x10000#32 ≠ 0#32
    decide
  obtain ⟨hresolve, -⟩ := setupGot_fields (m := m) got
  have step : ∀ rela ∈ slotEntries n, ∀ l,
      ∃ l', relocEntry (referenceAndLibrary 0x12) (.pool 0) (setupGot (tableOf n) m).1 l rela = .ok l' := by
    intro rela hrela l
    obtain ⟨k, -, rfl⟩ := List.mem_map.1 hrela
    have taken : rSym (slotEntry k).rInfo ≠ 0xffffff#32 := by
      show rSym 0x115#32 ≠ 0xffffff#32
      decide
    have hkind : kind (rType (slotEntry k).rInfo) = .jmpSlot := by
      show kind (rType 0x115#32) = .jmpSlot
      decide
    rw [relocEntry_of_resolve taken (resolve_slotEntry k)]
    unfold apply
    rw [hkind]
    obtain ⟨m', hm'⟩ := jmpSlot_ok (hresolve ▸ got) (rAddr (referenceAndLibrary 0x12) (.pool 0) (slotEntry k))
      (0x40000000 + 0x100 + (slotEntry k).rAddend) l.mem
    exact ⟨⟨m', 0x40000000⟩, bind_eq_ok.2 ⟨_, rfl, bind_eq_ok.2 ⟨m', hm', rfl⟩⟩⟩
  obtain ⟨l, hl⟩ := exists_foldlM_ok step ⟨(setupGot (tableOf n) m).2, 0⟩
  exact ⟨l.mem, relocLibrary_of_foldlM hl⟩

end Library

/-- In a table with 8193 slots the one large slot has the index 8192. -/
theorem farIndices_of_8193 :
    FarIndices (referenceAndLibrary 0x12) (.pool 0) (tableOf 8193) (slotEntries 8193) fun _ => 0 := by
  refine (farIndices_iff (pltEntries_tableOf (by decide)) fun _ => 0).2 fun k hk => ?_
  have lt := farSlot_lt (by decide) hk
  rw [toNat_tableOf (by decide)]
  omega

/-- In a table with 8194 slots the last one has the index 8194. -/
theorem not_farIndices_of_8194 :
    PltEntries (referenceAndLibrary 0x12) (.pool 0) (tableOf 8194) (slotEntries 8194) ∧
    FarEntry (referenceAndLibrary 0x12) (.pool 0) (tableOf 8194) (slotEntries 8194) (slotEntry 8193) 8193 ∧
    (∃ m', relocLibrary (referenceAndLibrary 0x12) (.pool 0) (setupGot (tableOf 8194) fun _ => 0).1 DT_RELA
      (slotEntries 8194) 0 (setupGot (tableOf 8194) fun _ => 0).2 = .ok m') ∧
    (slotIndex (setupGot (tableOf 8194) fun _ => 0).1 (slotAt 0x10000#32 8193)).toNat = 8194 ∧
    ¬ FarIndices (referenceAndLibrary 0x12) (.pool 0) (tableOf 8194) (slotEntries 8194) fun _ => 0 := by
  have entries := pltEntries_tableOf (n := 8194) (by decide)
  have far := farEntry_tableOf (n := 8194) (k := 8193) (by decide) (by omega)
  have index := far.toNat_slotIndex (m := fun _ => 0) entries
  have value : tableIndex 8193 = 8194 := by
    rw [tableIndex_of_large (by omega), if_pos (by norm_num)]
  rw [value] at index
  have outside : ¬ FarIndices (referenceAndLibrary 0x12) (.pool 0) (tableOf 8194) (slotEntries 8194)
      fun _ => 0 := fun h => by
    have lt := h.inTable _ _ far
    rw [index, toNat_tableOf (by decide)] at lt
    omega
  rw [rAddr_slotEntry] at index
  exact ⟨entries, far, exists_run 8194 _, index, outside⟩

end Bionic.PltFar
