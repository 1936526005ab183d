import Mathlib
import Bionic.PowerPc
import Bionic.RelocOrder

/-! # Addresses in two halves (`linker/arch/ppc/reloc_library.c`)

An address that two instructions put together from two half-words is relocated by two entries, one for each
half.  `split_iff` says which address the halves of a whole run add up to: the code adds the base of the object
that is relocated, and not the address of the symbol. -/

namespace Bionic.RelocSplit

open ByteMemory ElfLookup StateExcept Reloc Reloc.Ppc RelocOrder
open Linker (CStr Ptr Fault)

/-! ### Halves of a word -/

/-- The low half, the high half, and the high half that makes up for the sign of the low one. -/
inductive Half where
  | lo
  | hi
  | ha
deriving DecidableEq, Repr

/-- The relocation that writes a half. -/
def Half.kind : Half → Kind
  | .lo => .addr16Lo
  | .hi => .addr16Hi
  | .ha => .addr16Ha

def Half.of : Half → BitVec 32 → BitVec 16
  | .lo, x => x.setWidth 16
  | .hi, x => (x >>> 16).setWidth 16
  | .ha, x => ((x + 0x8000#32) >>> 16).setWidth 16

/-- What `lis` and `addi` make of two halves. -/
def addHalves (ha lo : BitVec 16) : BitVec 32 := (ha ++ 0#16) + lo.signExtend 32

/-- What `lis` and `ori` make of two halves. -/
def orHalves (hi lo : BitVec 16) : BitVec 32 := (hi ++ 0#16) ||| lo.setWidth 32

theorem addHalves_of (x : BitVec 32) : addHalves (Half.ha.of x) (Half.lo.of x) = x := PowerPc.high_add_low x

theorem orHalves_of (x : BitVec 32) : orHalves (Half.hi.of x) (Half.lo.of x) = x := by
  have hx := x.isLt
  have low : ((x.setWidth 16).setWidth 32).toNat = x.toNat % 2 ^ 16 := by
    rw [BitVec.toNat_setWidth, BitVec.toNat_setWidth]
    omega
  have high : ((x >>> 16).setWidth 16 ++ 0#16).toNat = 2 ^ 16 * (x.toNat / 2 ^ 16) := by
    rw [BitVec.toNat_append, BitVec.toNat_setWidth, BitVec.toNat_ushiftRight, Nat.shiftRight_eq_div_pow,
      Nat.shiftLeft_eq]
    simp
    omega
  apply BitVec.eq_of_toNat_eq
  rw [orHalves, Half.of, Half.of, WordBits.toNat_or_of_lt 16 (by omega) (by omega), high, low]
  omega

/-! ### The entries of a run -/

section

variable (E : Objects) (si : Ptr) (p : Plt)

/-- A half-word that a run leaves behind: an entry of the run writes it, and no other entry does. -/
structure Writes (relas : List Rela) (half : Half) (rela : Rela) : Prop where
  mem : rela ∈ relas
  kind : kind (rType rela.rInfo) = half.kind
  taken : rSym rela.rInfo ≠ 0xffffff#32
  kept : ∀ other ∈ relas, other ≠ rela → Disjoint (targets E si p other) (range (rAddr E si rela) 2)

/-- The entries have the same symbol and addend. -/
def SameOperand (rela rela' : Rela) : Prop :=
  rSym rela.rInfo = rSym rela'.rInfo ∧ rela.rAddend = rela'.rAddend

/-- The half-word at the address of an entry. -/
def halfAt (m : Mem) (rela : Rela) : BitVec 16 := read16 .big m (rAddr E si rela)

end

section

variable {E : Objects} {si : Ptr} {p : Plt} {rela : Rela} {half : Half} {l l' : Loop}

theorem halfAt_relocEntry (h : relocEntry E si p l rela = .ok l') (hk : kind (rType rela.rInfo) = half.kind)
    (taken : rSym rela.rInfo ≠ 0xffffff#32) :
    halfAt E si l'.mem rela = half.of ((E.so si).base + rela.rAddend) := by
  obtain ⟨h0, -⟩ | ⟨-, st, -, h⟩ := relocEntry_eq_ok h
  · exact absurd h0 taken
  · unfold apply at h
    rw [hk] at h
    cases half with
    | lo =>
        obtain rfl := Except.ok.inj h
        exact read16_write16 _
    | hi =>
        obtain rfl := Except.ok.inj h
        exact read16_write16 _
    | ha =>
        obtain rfl := Except.ok.inj h
        exact read16_write16 _

theorem targets_half (hk : kind (rType rela.rInfo) = half.kind) (taken : rSym rela.rInfo ≠ 0xffffff#32) :
    targets E si p rela = range (rAddr E si rela) 2 := by
  unfold targets
  rw [if_neg taken, hk]
  cases half <;> rfl

theorem halfAt_of_outside {other : Rela} (h : relocEntry E si p l other = .ok l')
    (kept : Disjoint (targets E si p other) (range (rAddr E si rela) 2)) :
    halfAt E si l'.mem rela = halfAt E si l.mem rela :=
  read16_congr fun _ hx => relocEntry_outside h (Set.disjoint_right.1 kept hx)

variable {relas : List Rela}

/-- After a run every half-word is cut from the base of the object and the addend. -/
theorem Writes.halfAt_run (h : Writes E si p relas half rela)
    (hrun : relas.foldlM (relocEntry E si p) l = .ok l') :
    halfAt E si l'.mem rela = half.of ((E.so si).base + rela.rAddend) := by
  obtain ⟨l₁, l₂, rfl⟩ := List.append_of_mem h.mem
  obtain ⟨t, t', -, hentry, hrest⟩ := foldlM_append_cons hrun
  have written := halfAt_relocEntry hentry h.kind h.taken
  refine foldlM_invariant (I := fun u => halfAt E si u.mem rela = half.of ((E.so si).base + rela.rAddend))
    hrest written fun other hother u u' hu hstep => ?_
  by_cases same : other = rela
  · subst same
    exact halfAt_relocEntry hstep h.kind h.taken
  · rw [halfAt_of_outside hstep (h.kept other (by simp [hother]) same), hu]

/-- The halves of a symbol's address, relocated by entries with the same symbol and addend, make up this address if
and only if it is the base of the object itself. -/
theorem split_iff {reltype base : BitVec 32} {m m' : Mem} {lo : Rela} {t : Located}
    (hrun : relocLibrary E si p reltype relas base m = .ok m') (hlo : Writes E si p relas .lo lo)
    (_hsym : resolve E si lo = .ok (some t)) :
    (∀ ha, Writes E si p relas .ha ha → SameOperand ha lo →
      (addHalves (halfAt E si m' ha) (halfAt E si m' lo) = t.addr + lo.rAddend ↔ t.addr = (E.so si).base)) ∧
    (∀ hi, Writes E si p relas .hi hi → SameOperand hi lo →
      (orHalves (halfAt E si m' hi) (halfAt E si m' lo) = t.addr + lo.rAddend ↔ t.addr = (E.so si).base)) := by
  obtain ⟨l, hl, rfl⟩ := relocLibrary_eq_ok hrun
  have base_iff : (E.so si).base + lo.rAddend = t.addr + lo.rAddend ↔ t.addr = (E.so si).base := by
    rw [BitVec.add_left_inj, eq_comm]
  refine ⟨fun ha hha same => ?_, fun hi hhi same => ?_⟩
  · rw [hha.halfAt_run hl, hlo.halfAt_run hl, same.2, addHalves_of]
    exact base_iff
  · rw [hhi.halfAt_run hl, hlo.halfAt_run hl, same.2, orHalves_of]
    exact base_iff

end

/-! ### The halves of `foo` -/

/-- A program at `0x8000` that defines `foo` at an offset. -/
def programWith (value : BitVec 32) : Objects where
  so _ := { oneSymbol "foo".toList 0x11 5 0x8000 with symtab _ := ⟨1, value, 4, 0x11, 5⟩ }
  solist := [.pool 0]

/-- `R_PPC_ADDR16_HA` on `foo`. -/
def haFoo : Rela := ⟨0x200, 0x106, 0x9000⟩

/-- `R_PPC_ADDR16_HI` on `foo`. -/
def hiFoo : Rela := ⟨0x204, 0x105, 0x9000⟩

/-- `R_PPC_ADDR16_LO` on `foo`. -/
def loFoo : Rela := ⟨0x208, 0x104, 0x9000⟩

def entriesFoo : List Rela := [haFoo, hiFoo, loFoo]

/-- The three half-words do not overlap. -/
theorem writes_entriesFoo (value : BitVec 32) (p : Plt) :
    Writes (programWith value) (.pool 0) p entriesFoo .ha haFoo ∧
    Writes (programWith value) (.pool 0) p entriesFoo .hi hiFoo ∧
    Writes (programWith value) (.pool 0) p entriesFoo .lo loFoo := by
  have ha : rAddr (programWith value) (.pool 0) haFoo = 0x8200#32 := by
    show 0x200#32 + 0x8000#32 = 0x8200#32
    decide
  have hi : rAddr (programWith value) (.pool 0) hiFoo = 0x8204#32 := by
    show 0x204#32 + 0x8000#32 = 0x8204#32
    decide
  have lo : rAddr (programWith value) (.pool 0) loFoo = 0x8208#32 := by
    show 0x208#32 + 0x8000#32 = 0x8208#32
    decide
  have tha := @targets_half (programWith value) (.pool 0) p haFoo .ha (by decide) (by decide)
  have thi := @targets_half (programWith value) (.pool 0) p hiFoo .hi (by decide) (by decide)
  have tlo := @targets_half (programWith value) (.pool 0) p loFoo .lo (by decide) (by decide)
  have ha_hi : Disjoint (range 0x8200#32 2) (range 0x8204#32 2) :=
    disjoint_range (a := 0x8200#32) (d := 4) (by decide) (by decide)
  have hi_lo : Disjoint (range 0x8204#32 2) (range 0x8208#32 2) :=
    disjoint_range (a := 0x8204#32) (d := 4) (by decide) (by decide)
  have ha_lo : Disjoint (range 0x8200#32 2) (range 0x8208#32 2) :=
    disjoint_range (a := 0x8200#32) (d := 8) (by decide) (by decide)
  have all {other : Rela} (h : other ∈ entriesFoo) : other = haFoo ∨ other = hiFoo ∨ other = loFoo := by
    simpa only [entriesFoo, List.mem_cons, List.not_mem_nil, or_false] using h
  refine ⟨⟨by decide, by decide, by decide, fun other hother ne => ?_⟩,
    ⟨by decide, by decide, by decide, fun other hother ne => ?_⟩,
    ⟨by decide, by decide, by decide, fun other hother ne => ?_⟩⟩
  · rcases all hother with rfl | rfl | rfl
    · exact absurd rfl ne
    · rw [thi, hi, ha]
      exact ha_hi.symm
    · rw [tlo, lo, ha]
      exact ha_lo.symm
  · rcases all hother with rfl | rfl | rfl
    · rw [tha, ha, hi]
      exact ha_hi
    · exact absurd rfl ne
    · rw [tlo, lo, hi]
      exact hi_lo.symm
  · rcases all hother with rfl | rfl | rfl
    · rw [tha, ha, lo]
      exact ha_lo
    · rw [thi, hi, lo]
      exact hi_lo
    · exact absurd rfl ne

theorem resolve_programWith {value : BitVec 32}
    (found : doLookup (programWith value) (some (.pool 0)) "foo".toList = .ok (some ⟨.pool 0, 1, 0x8000⟩)) :
    resolve (programWith value) (.pool 0) loFoo = .ok (some ⟨⟨1, value, 4, 0x11, 5⟩, 0x8000⟩) := by
  have lookup : doLookup (programWith value) (some (.pool 0)) (symName (programWith value) (.pool 0) loFoo) =
      .ok (some ⟨.pool 0, 1, 0x8000⟩) := found
  have global : ¬ sectionSym (sym (programWith value) (.pool 0) loFoo) := by
    rintro ⟨hbind, -⟩
    exact absurd (show (0x11#8 >>> 4) = STB_LOCAL from hbind) (by decide)
  unfold resolve
  rw [if_pos ⟨by decide, global⟩, lookup]
  rfl

def noPlt : Plt := ⟨0, 0, 0, 0, 0, 0, 0⟩

/-- A symbol at the start of the program has its address in the halves. -/
theorem split_start : ∃ m', relocLibrary (programWith 0) (.pool 0) noPlt DT_RELA entriesFoo 0 (fun _ => 0) = .ok m' ∧
    addHalves (halfAt (programWith 0) (.pool 0) m' haFoo) (halfAt (programWith 0) (.pool 0) m' loFoo) =
      0x8000#32 + 0x9000#32 ∧
    orHalves (halfAt (programWith 0) (.pool 0) m' hiFoo) (halfAt (programWith 0) (.pool 0) m' loFoo) =
      0x8000#32 + 0x9000#32 := by
  obtain ⟨m', hm'⟩ := exists_ok_of_isOk
    (x := relocLibrary (programWith 0) (.pool 0) noPlt DT_RELA entriesFoo 0 (fun _ => 0)) (by decide)
  obtain ⟨ha, hi, lo⟩ := writes_entriesFoo 0 noPlt
  have addr : (⟨⟨1, 0, 4, 0x11, 5⟩, 0x8000⟩ : Located).addr = 0x8000#32 := by decide
  have sums := split_iff hm' lo (resolve_programWith (by decide))
  rw [addr] at sums
  exact ⟨m', hm', (sums.1 haFoo ha ⟨by decide, by decide⟩).2 rfl, (sums.2 hiFoo hi ⟨by decide, by decide⟩).2 rfl⟩

/-- The symbol stands at `0x8100`, and the halves make up `0x8000` and the addend. -/
theorem split_offset : resolve (programWith 0x100) (.pool 0) loFoo =
      .ok (some ⟨⟨1, 0x100, 4, 0x11, 5⟩, 0x8000⟩) ∧
    ∃ m', relocLibrary (programWith 0x100) (.pool 0) noPlt DT_RELA entriesFoo 0 (fun _ => 0) = .ok m' ∧
      addHalves (halfAt (programWith 0x100) (.pool 0) m' haFoo) (halfAt (programWith 0x100) (.pool 0) m' loFoo) ≠
        (⟨⟨1, 0x100, 4, 0x11, 5⟩, 0x8000⟩ : Located).addr + 0x9000#32 ∧
      orHalves (halfAt (programWith 0x100) (.pool 0) m' hiFoo) (halfAt (programWith 0x100) (.pool 0) m' loFoo) ≠
        (⟨⟨1, 0x100, 4, 0x11, 5⟩, 0x8000⟩ : Located).addr + 0x9000#32 := by
  obtain ⟨m', hm', hp⟩ := exists_ok_of_any
    (x := relocLibrary (programWith 0x100) (.pool 0) noPlt DT_RELA entriesFoo 0 (fun _ => 0))
    (p := fun m => addHalves (halfAt (programWith 0x100) (.pool 0) m haFoo) (halfAt (programWith 0x100) (.pool 0) m loFoo) ==
        0x8000#32 + 0x9000#32 &&
      orHalves (halfAt (programWith 0x100) (.pool 0) m hiFoo) (halfAt (programWith 0x100) (.pool 0) m loFoo) ==
        0x8000#32 + 0x9000#32) (by decide)
  rw [Bool.and_eq_true, beq_iff_eq, beq_iff_eq] at hp
  refine ⟨resolve_programWith (by decide), m', hm', ?_, ?_⟩
  · rw [hp.1]
    decide
  · rw [hp.2]
    decide

end Bionic.RelocSplit
