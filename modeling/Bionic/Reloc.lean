import Bionic.ByteMemory
import Bionic.ElfLookup
import Bionic.StateExcept

/-! # Relocation (`linker/arch/arm/reloc_library.c` and `linker/arch/ppc/reloc_library.c`)

`reloc_library` walks over a table of relocation entries and patches the memory of one object.  The
symbol tables, string tables and hash tables are those of `ElfLookup`; they are not part of the memory
that is patched.  What one entry writes is its `footprint`, and a whole run leaves every other byte as it
was (`Arm.relocEntries_frame`, `Ppc.relocEntries_frame`). -/

namespace Bionic.Reloc

open ByteMemory ElfLookup StateExcept
open Linker (CStr Ptr Fault)

/-! ### Data -/

def DT_RELA : BitVec 32 := 7

def DT_REL : BitVec 32 := 17

def STB_LOCAL : BitVec 8 := 0

def STT_NOTYPE : BitVec 8 := 0

def STT_SECTION : BitVec 8 := 3

/-- The ways in which `reloc_library` fails: it returns `-1` after a message, or follows a null pointer. -/
inductive RelocError where
  | wrongRelType
  | cannotLocate (name : CStr)
  | undefinedValue (name : CStr)
  | oddRelative
  | unknownType (type : BitVec 32)
  | noPltGot
  | rel24Invalid
  | rel14Invalid
  | sizesDiffer (name : CStr)
  | nullSymbol
  | lookup (fault : Fault)
deriving DecidableEq, Repr

/-- `ELF32_R_SYM`. -/
def rSym (info : BitVec 32) : BitVec 32 := info >>> 8

/-- `ELF32_R_TYPE`. -/
def rType (info : BitVec 32) : BitVec 32 := info &&& 0xff#32

/-- A symbol and the base of its object. -/
structure Located where
  sym : Sym
  base : BitVec 32

def Located.addr (s : Located) : Addr := s.base + s.sym.stValue

def locatedAt (E : Objects) (f : Found) : Located := ⟨(E.so f.obj).symtab f.sym, f.base⟩

/-- The result of a lookup, which must not be null. -/
def located (E : Objects) (name : CStr) : Except Fault (Option Found) → Except RelocError Located
  | .error e => .error (.lookup e)
  | .ok none => .error (.cannotLocate name)
  | .ok (some f) => .ok (locatedAt E f)

/-- The symbol behind a pointer that may be null. -/
def deref : Option Located → Except RelocError Located
  | none => .error .nullSymbol
  | some s => .ok s

theorem located_eq_ok {E : Objects} {name : CStr} {r : Except Fault (Option Found)} {s : Located} :
    located E name r = .ok s ↔ ∃ f, r = .ok (some f) ∧ locatedAt E f = s := by
  unfold located
  split <;> simp

theorem deref_eq_ok {o : Option Located} {s : Located} : deref o = .ok s ↔ o = some s := by
  cases o <;> simp [deref]

/-! ### ARM -/

namespace Arm

/-- `Elf32_Rel`. -/
structure Rel where
  rOffset : BitVec 32
  rInfo : BitVec 32
deriving DecidableEq, Repr

inductive Kind where
  | jumpSlot
  | globDat
  | abs32
  | relative
  | copy
  | none
  | unknown
deriving DecidableEq, Repr

/-- The case of the `switch` that a relocation type selects. -/
def kind (type : BitVec 32) : Kind :=
  match type.toNat with
  | 22 => .jumpSlot
  | 21 => .globDat
  | 2 => .abs32
  | 23 => .relative
  | 20 => .copy
  | 0 => .none
  | _ => .unknown

variable (E : Objects) (si : Ptr)

def symName (rel : Rel) : CStr := (E.so si).strtab ((E.so si).symtab (rSym rel.rInfo).toNat).stName

def reloc (rel : Rel) : Addr := rel.rOffset + (E.so si).base

/-- The symbol `s` of an entry, null for symbol 0. -/
def resolve (rel : Rel) : Except RelocError (Option Located) := do
  if rSym rel.rInfo ≠ 0 then
    let s ← located E (symName E si rel) (doLookup E (some si) (symName E si rel))
    if s.sym.bind ≠ STB_WEAK ∧ s.sym.stShndx = 0#16 ∧ s.sym.stValue ≠ 0#32 then
      throw (.undefinedValue (symName E si rel))
    return some s
  else return none

/-- `sym_addr`. -/
def symAddr : Option Located → BitVec 32
  | none => 0
  | some s => s.sym.stValue + s.base

/-- The `switch` of `reloc_library`. -/
def apply (rel : Rel) (s : Option Located) (m : Mem) : Except RelocError Mem :=
  let a := reloc E si rel
  match kind (rType rel.rInfo) with
  | .jumpSlot => .ok (write32 .little m a (symAddr s))
  | .globDat => .ok (write32 .little m a (symAddr s))
  | .abs32 => .ok (write32 .little m a (read32 .little m a + symAddr s))
  | .relative =>
      if rSym rel.rInfo ≠ 0 then .error .oddRelative
      else .ok (write32 .little m a (read32 .little m a + (E.so si).base))
  | .copy => do
      let t ← deref s
      return memcpy m a (symAddr s) t.sym.stSize.toNat
  | .none => .ok m
  | .unknown => .error (.unknownType (rType rel.rInfo))

/-- The body of the loop. -/
def relocEntry (m : Mem) (rel : Rel) : Except RelocError Mem := do
  apply E si rel (← resolve E si rel) m

def relocLibrary (reltype : BitVec 32) (rels : List Rel) (m : Mem) : Except RelocError Mem :=
  if reltype ≠ DT_REL then .error .wrongRelType else rels.foldlM (relocEntry E si) m

/-- The bytes that an entry writes. -/
def footprint (rel : Rel) : Set Addr :=
  match kind (rType rel.rInfo) with
  | .copy =>
      match resolve E si rel with
      | .ok (some s) => range (reloc E si rel) s.sym.stSize.toNat
      | _ => ∅
  | .none => ∅
  | .unknown => ∅
  | _ => range (reloc E si rel) 4

variable {E si}

theorem relocEntry_frame {rel : Rel} {m m' : Mem} {x : Addr} (h : relocEntry E si m rel = .ok m')
    (hx : x ∉ footprint E si rel) : m' x = m x := by
  unfold relocEntry at h
  obtain ⟨s, hs, h⟩ := bind_eq_ok.1 h
  unfold apply at h
  unfold footprint at hx
  cases hk : kind (rType rel.rInfo) with
  | jumpSlot =>
      simp only [hk, Except.ok.injEq] at h hx
      rw [← h, write32_of_notMem hx]
  | globDat =>
      simp only [hk, Except.ok.injEq] at h hx
      rw [← h, write32_of_notMem hx]
  | abs32 =>
      simp only [hk, Except.ok.injEq] at h hx
      rw [← h, write32_of_notMem hx]
  | relative =>
      simp only [hk] at h hx
      split at h
      · cases h
      · rw [← Except.ok.inj h, write32_of_notMem hx]
  | copy =>
      simp only [hk, hs] at h hx
      obtain ⟨t, ht, h⟩ := bind_eq_ok.1 h
      obtain rfl := deref_eq_ok.1 ht
      rw [← pure_eq_ok.1 h, memcpy_of_notMem hx]
  | none =>
      simp only [hk, Except.ok.injEq] at h
      rw [h]
  | unknown =>
      simp only [hk] at h
      cases h

theorem relocEntries_frame {rels : List Rel} {m m' : Mem} {x : Addr}
    (h : rels.foldlM (relocEntry E si) m = .ok m') (hx : ∀ rel ∈ rels, x ∉ footprint E si rel) :
    m' x = m x :=
  foldlM_invariant (I := fun t => t x = m x) h rfl fun rel hrel _ _ ht hstep =>
    (relocEntry_frame hstep (hx rel hrel)).trans ht

theorem relocLibrary_eq_ok {rels : List Rel} {reltype : BitVec 32} {m m' : Mem}
    (h : relocLibrary E si reltype rels m = .ok m') : rels.foldlM (relocEntry E si) m = .ok m' := by
  unfold relocLibrary at h
  split at h
  · cases h
  · exact h

end Arm

/-! ### PowerPC -/

namespace Ppc

/-- `Elf32_Rela`. -/
structure Rela where
  rOffset : BitVec 32
  rInfo : BitVec 32
  rAddend : BitVec 32
deriving DecidableEq, Repr

inductive Kind where
  | relative
  | jmpSlot
  | addr32
  | rel24
  | addr16Lo
  | addr16Hi
  | addr16Ha
  | rel14
  | globDat
  | copy
  | none
  | unknown
deriving DecidableEq, Repr

/-- The case of the `switch` that a relocation type selects. -/
def kind (type : BitVec 32) : Kind :=
  match type.toNat with
  | 22 => .relative
  | 21 => .jmpSlot
  | 1 => .addr32
  | 10 => .rel24
  | 4 => .addr16Lo
  | 5 => .addr16Hi
  | 6 => .addr16Ha
  | 11 => .rel14
  | 12 => .rel14
  | 13 => .rel14
  | 20 => .globDat
  | 19 => .copy
  | 0 => .none
  | _ => .unknown

/-- The fields of a `soinfo` that describe the procedure linkage table. -/
structure Plt where
  pltGot : Addr
  pltRelCount : BitVec 32
  pltresolve : Addr := 0
  pltcall : Addr := 0
  pltinfo : Addr := 0
  firstRela : Addr := 0
  plttable : Addr := 0
deriving DecidableEq, Repr

/-- The macro `HA`. -/
def HA (x : BitVec 32) : BitVec 32 := (x >>> 16) + ((x &&& 0x8000#32) >>> 15)

/-- The macro `L`. -/
def L (x : BitVec 32) : BitVec 32 := x &&& 0xffff#32

def ADDIS_R11_R11 : BitVec 32 := 0x3d6b0000

def ADDIS_R11_R0 : BitVec 32 := 0x3d600000

def ADDI_R11_R11 : BitVec 32 := 0x396b0000

def LWZ_R11_R11 : BitVec 32 := 0x816b0000

def LI_R11 : BitVec 32 := 0x39600000

def MCTR_R11 : BitVec 32 := 0x7d6903a6

def BCTR : BitVec 32 := 0x4e800420

/-- The word that the macro `BR` stores at `source`. -/
def BR (source target : BitVec 32) : BitVec 32 :=
  0x48000000#32 ||| ((target - source) &&& ~~~0xfc000000#32)

/-- The macro `B24_VALID_RANGE`. -/
def b24ValidRange (x : BitVec 32) : Prop :=
  x &&& 0xfe000000#32 = 0#32 ∨ x &&& 0xfe000000#32 = 0xfe000000#32

instance : DecidablePred b24ValidRange := fun _ => inferInstanceAs (Decidable (_ ∨ _))

/-- `setup_got`. -/
def setupGot (p : Plt) (m : Mem) : Plt × Mem :=
  if p.pltGot = 0#32 then (p, m)
  else
    let pltcall := wordAt p.pltGot 6
    let pltinfo := wordAt p.pltGot 10
    let firstRela := wordAt p.pltGot 18
    let plttable :=
      if 8192#32 ≤ p.pltRelCount then firstRela + (2#32 * 8192#32 + 4#32 * (p.pltRelCount - 8192#32)) * 4#32
      else firstRela + 2#32 * p.pltRelCount * 4#32
    let m := write32 .big m pltinfo plttable
    let m := write32 .big m pltcall (ADDIS_R11_R11 ||| HA plttable)
    let m := write32 .big m (wordAt pltcall 1) (LWZ_R11_R11 ||| L plttable)
    let m := write32 .big m (wordAt pltcall 2) MCTR_R11
    let m := write32 .big m (wordAt pltcall 3) BCTR
    ({ p with pltresolve := p.pltGot, pltcall, pltinfo, firstRela, plttable }, m)

/-- What the loop of `reloc_library` carries from one entry to the next: the memory, and the variable
`base`, which keeps its value where an entry has no lookup. -/
structure Loop where
  mem : Mem
  base : BitVec 32

section Entry

variable (E : Objects) (si : Ptr) (p : Plt)

def sym (rela : Rela) : Sym := (E.so si).symtab (rSym rela.rInfo).toNat

def symName (rela : Rela) : CStr := (E.so si).strtab (sym E si rela).stName

def rAddr (rela : Rela) : Addr := rela.rOffset + (E.so si).base

/-- A symbol that stands for a section. -/
def sectionSym (s : Sym) : Prop := s.bind = STB_LOCAL ∧ (s.type = STT_NOTYPE ∨ s.type = STT_SECTION)

instance : DecidablePred sectionSym := fun _ => inferInstanceAs (Decidable (_ ∧ _))

/-- The symbol `st` of an entry, null where there is no lookup. -/
def resolve (rela : Rela) : Except RelocError (Option Located) :=
  if rSym rela.rInfo ≠ 0 ∧ ¬ sectionSym (sym E si rela) then
    some <$> located E (symName E si rela) (doLookup E (some si) (symName E si rela))
  else .ok none

/-- The index of a slot: the difference of two pointers to words, shifted as a signed number. -/
def slotIndex (a : Addr) : BitVec 32 := ((a - p.firstRela).sshiftRight 2).sshiftRight 1

/-- The case `R_PPC_JMP_SLOT`. -/
def jmpSlot (a target : Addr) (m : Mem) : Except RelocError Mem :=
  if p.pltresolve = 0#32 then .error .noPltGot
  else if b24ValidRange (target - a) then .ok (write32 .big m a (BR a target))
  else
    let idx := slotIndex p a
    let m :=
      if 8192#32 ≤ idx then
        let m := write32 .big m a (ADDIS_R11_R0 ||| HA (idx * 4#32))
        let m := write32 .big m (wordAt a 1) (ADDI_R11_R11 ||| L (idx * 4#32))
        write32 .big m (wordAt a 2) (BR (wordAt a 2) p.pltcall)
      else
        let m := write32 .big m a (LI_R11 ||| idx * 4#32)
        write32 .big m (wordAt a 1) (BR (wordAt a 1) p.pltcall)
    .ok (write32 .big m (wordAt p.plttable idx.toNat) target)

/-- The case `R_PPC_COPY`, whose lookup sets `base` once more. -/
def copy (rela : Rela) (st : Option Located) (m : Mem) : Except RelocError Loop := do
  let name := symName E si rela
  let scpy ← located E name (doLookupNonLocal E (some si) name)
  let t ← deref st
  if t.sym.stSize ≠ scpy.sym.stSize then throw (.sizesDiffer name)
  return ⟨memcpy m (rAddr E si rela) scpy.addr scpy.sym.stSize.toNat, scpy.base⟩

/-- The `switch` of `reloc_library`. -/
def apply (rela : Rela) (st : Option Located) (base : BitVec 32) (m : Mem) : Except RelocError Loop :=
  let a := rAddr E si rela
  let s := sym E si rela
  match kind (rType rela.rInfo) with
  | .relative => do
      if sectionSym s then return ⟨write32 .big m a ((E.so si).base + rela.rAddend), base⟩
      let t ← deref st
      return ⟨write32 .big m a ((E.so si).base + t.sym.stValue + rela.rAddend), base⟩
  | .jmpSlot => do
      let t ← deref st
      return ⟨← jmpSlot p a (base + t.sym.stValue + rela.rAddend) m, base⟩
  | .addr32 => do
      if sectionSym s then return ⟨write32 .big m a (base + rela.rAddend), base⟩
      let t ← deref st
      return ⟨write32 .big m a (base + t.sym.stValue + rela.rAddend), base⟩
  | .rel24 => do
      let t ← deref st
      let val := base + t.sym.stValue + rela.rAddend - a
      if ¬ b24ValidRange val then throw .rel24Invalid
      return ⟨write32 .big m a (val &&& ~~~0xfc000003#32 ||| (read32 .big m a &&& 0xfc000003#32)), base⟩
  | .addr16Lo => .ok ⟨write16 .big m a (((E.so si).base + rela.rAddend).setWidth 16), base⟩
  | .addr16Hi => .ok ⟨write16 .big m a ((((E.so si).base + rela.rAddend) >>> 16).setWidth 16), base⟩
  | .addr16Ha =>
      .ok ⟨write16 .big m a ((((E.so si).base + rela.rAddend + 0x8000#32) >>> 16).setWidth 16), base⟩
  | .rel14 => do
      let t ← deref st
      let val := base + t.sym.stValue + rela.rAddend - a
      if val &&& 0xffff8000#32 ≠ 0#32 ∧ val &&& 0xffff8000#32 ≠ 0xffff8000#32 then throw .rel14Invalid
      return ⟨write32 .big m a (val &&& ~~~0xffff0003#32 ||| (read32 .big m a &&& 0xffff0003#32)), base⟩
  | .globDat => do
      let t ← deref st
      return ⟨write32 .big m a (base + t.sym.stValue + rela.rAddend), base⟩
  | .copy => copy E si rela st m
  | .none => .ok ⟨m, base⟩
  | .unknown => .error (.unknownType (rType rela.rInfo))

/-- The value of `base` after the first lookup of an entry. -/
def baseAfter (base : BitVec 32) : Option Located → BitVec 32
  | none => base
  | some t => t.base

/-- The body of the loop. -/
def relocEntry (l : Loop) (rela : Rela) : Except RelocError Loop := do
  if rSym rela.rInfo = 0xffffff#32 then return l
  let st ← resolve E si rela
  apply E si p rela st (baseAfter l.base st) l.mem

/-- `reloc_library`; `base` is the value of the uninitialised variable. -/
def relocLibrary (reltype : BitVec 32) (relas : List Rela) (base : BitVec 32) (m : Mem) :
    Except RelocError Mem := do
  if reltype ≠ DT_RELA then throw .wrongRelType
  return (← relas.foldlM (relocEntry E si p) ⟨m, base⟩).mem

/-- The bytes that an entry writes. -/
def footprint (rela : Rela) : Set Addr :=
  let a := rAddr E si rela
  match kind (rType rela.rInfo) with
  | .jmpSlot => range a 4 ∪ range (wordAt a 1) 4 ∪ range (wordAt a 2) 4 ∪
      range (wordAt p.plttable (slotIndex p a).toNat) 4
  | .addr16Lo => range a 2
  | .addr16Hi => range a 2
  | .addr16Ha => range a 2
  | .copy =>
      match doLookupNonLocal E (some si) (symName E si rela) with
      | .ok (some f) => range a (locatedAt E f).sym.stSize.toNat
      | _ => ∅
  | .none => ∅
  | .unknown => ∅
  | _ => range a 4

variable {E si p}

theorem relocEntry_eq_ok {rela : Rela} {l l' : Loop} (h : relocEntry E si p l rela = .ok l') :
    (rSym rela.rInfo = 0xffffff#32 ∧ l' = l) ∨ (rSym rela.rInfo ≠ 0xffffff#32 ∧ ∃ st,
      resolve E si rela = .ok st ∧ apply E si p rela st (baseAfter l.base st) l.mem = .ok l') := by
  unfold relocEntry at h
  split at h
  · next h0 => exact Or.inl ⟨h0, (pure_eq_ok.1 h).symm⟩
  · next h0 => exact Or.inr ⟨h0, bind_eq_ok.1 h⟩

theorem jmpSlot_frame {a target x : Addr} {m m' : Mem} (h : jmpSlot p a target m = .ok m')
    (h₀ : x ∉ range a 4) (h₁ : x ∉ range (wordAt a 1) 4) (h₂ : x ∉ range (wordAt a 2) 4)
    (ht : x ∉ range (wordAt p.plttable (slotIndex p a).toNat) 4) : m' x = m x := by
  unfold jmpSlot at h
  split at h
  · cases h
  · split at h
    · rw [← Except.ok.inj h, write32_of_notMem h₀]
    · rw [← Except.ok.inj h, write32_of_notMem ht]
      split
      · rw [write32_of_notMem h₂, write32_of_notMem h₁, write32_of_notMem h₀]
      · rw [write32_of_notMem h₁, write32_of_notMem h₀]

theorem copy_eq_ok {rela : Rela} {st : Option Located} {m : Mem} {l' : Loop}
    (h : copy E si rela st m = .ok l') :
    ∃ f t, doLookupNonLocal E (some si) (symName E si rela) = .ok (some f) ∧ st = some t ∧
      t.sym.stSize = (locatedAt E f).sym.stSize ∧
      l' = ⟨memcpy m (rAddr E si rela) (locatedAt E f).addr (locatedAt E f).sym.stSize.toNat,
        (locatedAt E f).base⟩ := by
  unfold copy at h
  obtain ⟨scpy, hs, h⟩ := bind_eq_ok.1 h
  obtain ⟨f, hf, rfl⟩ := located_eq_ok.1 hs
  obtain ⟨t, ht, h⟩ := bind_eq_ok.1 h
  obtain ⟨he, h⟩ := guard_eq_ok.1 h
  exact ⟨f, t, hf, deref_eq_ok.1 ht, not_not.1 he, (pure_eq_ok.1 h).symm⟩

/-- An entry writes inside its footprint. -/
theorem relocEntry_frame {rela : Rela} {l l' : Loop} {x : Addr} (h : relocEntry E si p l rela = .ok l')
    (hx : x ∉ footprint E si p rela) : l'.mem x = l.mem x := by
  rcases relocEntry_eq_ok h with ⟨-, rfl⟩ | ⟨-, st, -, h⟩
  · rfl
  · unfold apply at h
    unfold footprint at hx
    cases hk : kind (rType rela.rInfo) with
    | relative =>
        simp only [hk] at h hx
        split at h
        · rw [← pure_eq_ok.1 h]
          exact write32_of_notMem hx
        · obtain ⟨t, -, h⟩ := bind_eq_ok.1 h
          rw [← pure_eq_ok.1 h]
          exact write32_of_notMem hx
    | jmpSlot =>
        simp only [hk, Set.mem_union, not_or] at h hx
        obtain ⟨⟨⟨h₀, h₁⟩, h₂⟩, ht⟩ := hx
        obtain ⟨t, -, h⟩ := bind_eq_ok.1 h
        obtain ⟨m, hm, h⟩ := bind_eq_ok.1 h
        rw [← pure_eq_ok.1 h]
        exact jmpSlot_frame hm h₀ h₁ h₂ ht
    | addr32 =>
        simp only [hk] at h hx
        split at h
        · rw [← pure_eq_ok.1 h]
          exact write32_of_notMem hx
        · obtain ⟨t, -, h⟩ := bind_eq_ok.1 h
          rw [← pure_eq_ok.1 h]
          exact write32_of_notMem hx
    | rel24 =>
        simp only [hk] at h hx
        obtain ⟨t, -, h⟩ := bind_eq_ok.1 h
        obtain ⟨-, h⟩ := guard_eq_ok.1 h
        rw [← pure_eq_ok.1 h]
        exact write32_of_notMem hx
    | addr16Lo =>
        simp only [hk, Except.ok.injEq] at h hx
        rw [← h]
        exact write16_of_notMem hx
    | addr16Hi =>
        simp only [hk, Except.ok.injEq] at h hx
        rw [← h]
        exact write16_of_notMem hx
    | addr16Ha =>
        simp only [hk, Except.ok.injEq] at h hx
        rw [← h]
        exact write16_of_notMem hx
    | rel14 =>
        simp only [hk] at h hx
        obtain ⟨t, -, h⟩ := bind_eq_ok.1 h
        obtain ⟨-, h⟩ := guard_eq_ok.1 h
        rw [← pure_eq_ok.1 h]
        exact write32_of_notMem hx
    | globDat =>
        simp only [hk] at h hx
        obtain ⟨t, -, h⟩ := bind_eq_ok.1 h
        rw [← pure_eq_ok.1 h]
        exact write32_of_notMem hx
    | copy =>
        simp only [hk] at h hx
        obtain ⟨f, t, hf, -, -, rfl⟩ := copy_eq_ok h
        rw [hf] at hx
        exact memcpy_of_notMem hx
    | none =>
        simp only [hk, Except.ok.injEq] at h
        rw [← h]
    | unknown =>
        simp only [hk] at h
        cases h

theorem relocEntries_frame {relas : List Rela} {l l' : Loop} {x : Addr}
    (h : relas.foldlM (relocEntry E si p) l = .ok l') (hx : ∀ rela ∈ relas, x ∉ footprint E si p rela) :
    l'.mem x = l.mem x :=
  foldlM_invariant (I := fun t => t.mem x = l.mem x) h rfl fun rela hrela _ _ ht hstep =>
    (relocEntry_frame hstep (hx rela hrela)).trans ht

theorem relocLibrary_eq_ok {relas : List Rela} {reltype base : BitVec 32} {m m' : Mem}
    (h : relocLibrary E si p reltype relas base m = .ok m') :
    ∃ l, relas.foldlM (relocEntry E si p) ⟨m, base⟩ = .ok l ∧ l.mem = m' := by
  unfold relocLibrary at h
  obtain ⟨-, h⟩ := guard_eq_ok.1 h
  obtain ⟨l, hl, h⟩ := bind_eq_ok.1 h
  exact ⟨l, hl, pure_eq_ok.1 h⟩

end Entry

end Ppc

end Bionic.Reloc
