import Mathlib
import Bionic.Reloc

/-! # Copy relocations

An executable that refers to data of a library reserves room for it in its own `.bss` section, defines
the symbol there, and asks for the initial value by a copy relocation.  The PowerPC linker looks for the
symbol in the other objects only; the ARM linker finds the definition in the executable first and copies
the room onto itself.  `copied_iff` says when the bytes of the library arrive. -/

namespace Bionic.CopyReloc

open ByteMemory ElfLookup Reloc StateExcept
open Linker (CStr Ptr Fault)

/-! ### What should be copied -/

/-- Symbol `n` of the object `q` is the first definition in the objects that are searched but `si`. -/
def LibraryDefinition (E : Objects) (si : Ptr) (name : CStr) (q : Ptr) (n : ℕ) : Prop :=
  (∃ a b, searched E (some si) E.solist = a ++ q :: b ∧ ∀ p ∈ a, ¬ (E.so p).Defines name) ∧
  ∃ c d, (E.so q).chainOf name = c ++ n :: d ∧ (∀ k ∈ c, ¬ (E.so q).Defining name k) ∧
    (E.so q).Defining name n

/-- The address of symbol `n` of the object `q`. -/
def symbolAddr (E : Objects) (q : Ptr) (n : ℕ) : Addr := (E.so q).base + ((E.so q).symtab n).stValue

def symbolSize (E : Objects) (q : Ptr) (n : ℕ) : ℕ := ((E.so q).symtab n).stSize.toNat

def symbolName (E : Objects) (q : Ptr) (n : ℕ) : CStr := (E.so q).strtab ((E.so q).symtab n).stName

/-- Symbol `k` of the executable `si` is defined in `.bss`, where the copy relocation points to, and
symbol `n` of the library `q` is the definition to copy. -/
structure Setting (E : Objects) (si : Ptr) (m : Mem) (k : ℕ) (target : Addr) (q : Ptr) (n : ℕ) : Prop where
  wellFormed : ∀ p ∈ searchOrder E (some si), WellFormed (E.so p)
  index : k ≠ 0 ∧ k < (E.so si).nchain
  own : (E.so si).Defining (symbolName E si k) k
  /-- A symbol table has one entry for a name. -/
  unique : ∀ j ∈ (E.so si).chainOf (symbolName E si k), (E.so si).Accepts (symbolName E si k) j → j = k
  target_eq : target = symbolAddr E si k
  bss : ∀ i < symbolSize E si k, m (target + BitVec.ofNat 32 i) = 0
  library : LibraryDefinition E si (symbolName E si k) q n

/-- The room at the target holds what the library had at first. -/
def Copied (E : Objects) (si : Ptr) (m m' : Mem) (k : ℕ) (target : Addr) (q : Ptr) (n : ℕ) : Prop :=
  ∀ i < symbolSize E si k, m' (target + BitVec.ofNat 32 i) = m (symbolAddr E q n + BitVec.ofNat 32 i)

section Lookup

variable {E : Objects} {si q : Ptr} {m : Mem} {k n : ℕ} {target : Addr}

/-- The lookup of the symbol finds the definition in the executable itself. -/
theorem Setting.doLookup_eq (h : Setting E si m k target q n) :
    doLookup E (some si) (symbolName E si k) = .ok (some ⟨si, k, (E.so si).base⟩) := by
  have hmem : si ∈ searchOrder E (some si) := by simp [searchOrder]
  have hchain := (h.wellFormed si hmem).complete _ k h.index.2 h.index.1 h.own
  have hfound : foundIn E (symbolName E si k) si = some ⟨si, k, (E.so si).base⟩ := by
    cases hf : foundIn E (symbolName E si k) si with
    | none => exact absurd (Or.inl h.own) (foundIn_eq_none hf k hchain)
    | some f =>
        obtain ⟨hobj, hbase, hacc, c, d, hcd, -⟩ := foundIn_eq_some hf
        have hk := h.unique f.sym (by simp [hcd]) hacc
        cases f
        simp_all
  rw [doLookup_ok h.wellFormed, searchOrder, Option.toList_some, List.singleton_append,
    List.findSome?_cons, hfound]

end Lookup

/-! ### ARM -/

section Arm

open Arm

variable {E : Objects} {si q : Ptr} {m m' : Mem} {n : ℕ} {rel : Rel} {l₁ l₂ : List Rel}

theorem arm_resolve_eq (h : Setting E si m (rSym rel.rInfo).toNat (reloc E si rel) q n) :
    resolve E si rel =
      .ok (some ⟨(E.so si).symtab (rSym rel.rInfo).toNat, (E.so si).base⟩) := by
  have hsym : rSym rel.rInfo ≠ 0 := fun h0 => h.index.1 (by rw [h0]; rfl)
  have hname : symName E si rel = symbolName E si (rSym rel.rInfo).toNat := rfl
  unfold resolve
  rw [if_pos hsym, hname, h.doLookup_eq]
  have hdef := h.own.2
  simp [located, locatedAt, hdef, bind, Except.bind, pure, Except.pure]

/-- The executable's own bytes are copied onto themselves. -/
theorem arm_copy_self (h : Setting E si m (rSym rel.rInfo).toNat (reloc E si rel) q n)
    (hkind : kind (rType rel.rInfo) = .copy) {t t' : Mem} (hrun : relocEntry E si t rel = .ok t') :
    ∀ i < symbolSize E si (rSym rel.rInfo).toNat,
      t' (reloc E si rel + BitVec.ofNat 32 i) = t (reloc E si rel + BitVec.ofNat 32 i) := by
  have haddr : symAddr (some ⟨(E.so si).symtab (rSym rel.rInfo).toNat, (E.so si).base⟩) = reloc E si rel := by
    rw [h.target_eq]
    exact BitVec.add_comm _ _
  unfold relocEntry at hrun
  rw [arm_resolve_eq h] at hrun
  obtain ⟨s, hs, hrun⟩ := bind_eq_ok.1 hrun
  cases hs
  unfold apply at hrun
  rw [hkind, haddr] at hrun
  obtain ⟨s, hs, hrun⟩ := bind_eq_ok.1 hrun
  cases hs
  intro i hi
  rw [← pure_eq_ok.1 hrun]
  exact memcpy_add hi (Nat.le_of_lt (BitVec.isLt _))

/-- The room at the target stays as it was. -/
theorem arm_target_eq (h : Setting E si m (rSym rel.rInfo).toNat (reloc E si rel) q n)
    (hkind : kind (rType rel.rInfo) = .copy)
    (hsep : ∀ r ∈ l₁ ++ l₂, Disjoint (footprint E si r)
      (range (reloc E si rel) (symbolSize E si (rSym rel.rInfo).toNat)))
    (hrun : (l₁ ++ rel :: l₂).foldlM (relocEntry E si) m = .ok m') :
    ∀ i < symbolSize E si (rSym rel.rInfo).toNat,
      m' (reloc E si rel + BitVec.ofNat 32 i) = m (reloc E si rel + BitVec.ofNat 32 i) := by
  intro i hi
  obtain ⟨t, t', h₁, hstep, h₂⟩ := foldlM_append_cons hrun
  have hmem : reloc E si rel + BitVec.ofNat 32 i ∈
      range (reloc E si rel) (symbolSize E si (rSym rel.rInfo).toNat) :=
    add_mem_range hi (Nat.le_of_lt (BitVec.isLt _))
  have hout : ∀ r ∈ l₁ ++ l₂, reloc E si rel + BitVec.ofNat 32 i ∉ footprint E si r :=
    fun r hr => Set.disjoint_right.1 (hsep r hr) hmem
  rw [relocEntries_frame h₂ fun r hr => hout r (List.mem_append_right _ hr),
    arm_copy_self h hkind hstep i hi,
    relocEntries_frame h₁ fun r hr => hout r (List.mem_append_left _ hr)]

end Arm

/-! ### PowerPC -/

/-- Symbol `n` of the object `q` is a weak reference that the search of the objects but `si` meets before
all definitions. -/
def MeetsWeak (E : Objects) (si : Ptr) (name : CStr) (q : Ptr) (n : ℕ) : Prop :=
  (∃ a b, searched E (some si) E.solist = a ++ q :: b ∧ ∀ p ∈ a, foundIn E name p = none) ∧
  (∃ c d, (E.so q).chainOf name = c ++ n :: d ∧ ∀ k ∈ c, ¬ (E.so q).Accepts name k) ∧
    (E.so q).WeakUndefined name n

section Ppc

open Ppc

variable {E : Objects} {si q : Ptr} {p : Plt} {m m' : Mem} {n : ℕ} {name : CStr} {rela : Rela}
  {l₁ l₂ : List Rela} {l l' : Loop} {f : Found}

theorem library_eq (hlib : LibraryDefinition E si name q n)
    (hw : ∀ p ∈ searched E (some si) E.solist, WellFormed (E.so p))
    (hf : (searched E (some si) E.solist).findSome? (foundIn E name) = some f)
    (hdef : (E.so f.obj).Defining name f.sym) : f.obj = q ∧ f.sym = n := by
  obtain ⟨l₁, o, l₂, hl, hfo, -⟩ := List.findSome?_eq_some_iff.1 hf
  obtain ⟨rfl, -, -, c, d, hcd, -⟩ := foundIn_eq_some hfo
  obtain ⟨⟨a, b, hab, ha⟩, c', d', hcd', hc', hn⟩ := hlib
  have hmem := (hw f.obj (by simp [hl])).mem_chainOf (show f.sym ∈ (E.so f.obj).chainOf name by simp [hcd])
  have hfirst : f.obj ∉ a := fun hfa => ha f.obj hfa ⟨f.sym, hmem.1, hmem.2, hdef⟩
  exact found_eq hf hab hcd' (Or.inl hn) hfirst fun e hfc => hc' f.sym hfc (e ▸ hdef)

theorem MeetsWeak.eq (h : MeetsWeak E si name q n)
    (hf : (searched E (some si) E.solist).findSome? (foundIn E name) = some f) :
    f.obj = q ∧ f.sym = n := by
  obtain ⟨l₁, o, l₂, hl, hfo, -⟩ := List.findSome?_eq_some_iff.1 hf
  obtain ⟨rfl, -, hacc, c, d, hcd, -⟩ := foundIn_eq_some hfo
  obtain ⟨⟨a, b, hab, ha⟩, ⟨c', d', hcd', hc'⟩, hn⟩ := h
  have hfirst : f.obj ∉ a := fun hfa => foundIn_eq_none (ha f.obj hfa) f.sym (by simp [hcd]) hacc
  exact found_eq hf hab hcd' (Or.inr hn) hfirst fun e hfc => hc' f.sym hfc (e ▸ hacc)

theorem meetsWeak_of_found (hf : (searched E (some si) E.solist).findSome? (foundIn E name) = some f)
    (hweak : (E.so f.obj).WeakUndefined name f.sym) : MeetsWeak E si name f.obj f.sym := by
  obtain ⟨l₁, o, l₂, hl, hfo, hl₁⟩ := List.findSome?_eq_some_iff.1 hf
  obtain ⟨rfl, -, -, c, d, hcd, hc⟩ := foundIn_eq_some hfo
  exact ⟨⟨l₁, l₂, hl, hl₁⟩, ⟨c, d, hcd, hc⟩, hweak⟩

theorem ppc_resolve_eq (h : Setting E si m (rSym rela.rInfo).toNat (rAddr E si rela) q n) :
    resolve E si rela =
      .ok (some ⟨(E.so si).symtab (rSym rela.rInfo).toNat, (E.so si).base⟩) := by
  have hsym : rSym rela.rInfo ≠ 0 := fun h0 => h.index.1 (by rw [h0]; rfl)
  have hsec : ¬ sectionSym (sym E si rela) := by
    rintro ⟨hlocal, -⟩
    rcases h.own.1.2 with hb | hb
    · exact absurd (hlocal.symm.trans hb) (by decide)
    · exact absurd (hlocal.symm.trans hb) (by decide)
  have hname : symName E si rela = symbolName E si (rSym rela.rInfo).toNat := rfl
  unfold resolve
  rw [if_pos ⟨hsym, hsec⟩, hname, h.doLookup_eq]
  rfl

/-- The bytes of the first symbol that the search of the other objects accepts are copied; it has the
size of the executable's symbol. -/
theorem ppc_copy_found (h : Setting E si m (rSym rela.rInfo).toNat (rAddr E si rela) q n)
    (hkind : kind (rType rela.rInfo) = .copy) (hskip : rSym rela.rInfo ≠ 0xffffff#32)
    (hrun : relocEntry E si p l rela = .ok l') :
    ∃ f, (searched E (some si) E.solist).findSome? (foundIn E (symName E si rela)) = some f ∧
      symbolSize E f.obj f.sym = symbolSize E si (rSym rela.rInfo).toNat ∧
      ∀ i < symbolSize E si (rSym rela.rInfo).toNat,
        l'.mem (rAddr E si rela + BitVec.ofNat 32 i) =
          l.mem (symbolAddr E f.obj f.sym + BitVec.ofNat 32 i) := by
  have hw : ∀ p ∈ searched E (some si) E.solist, WellFormed (E.so p) :=
    fun p hp => h.wellFormed p (List.mem_append_right _ hp)
  rcases relocEntry_eq_ok hrun with ⟨h0, -⟩ | ⟨-, st, hst, happly⟩
  · exact absurd h0 hskip
  · obtain rfl := Except.ok.inj ((ppc_resolve_eq h).symm.trans hst)
    unfold apply at happly
    simp only [hkind] at happly
    obtain ⟨f, t, hf, ht, hsize, rfl⟩ := copy_eq_ok happly
    rw [doLookupNonLocal_ok hw] at hf
    have hf := Except.ok.inj hf
    obtain ⟨-, o, -, -, hfo, -⟩ := List.findSome?_eq_some_iff.1 hf
    obtain ⟨rfl, hbase, -⟩ := foundIn_eq_some hfo
    cases ht
    have hsize' : symbolSize E f.obj f.sym = symbolSize E si (rSym rela.rInfo).toNat :=
      congrArg BitVec.toNat hsize.symm
    have haddr : (locatedAt E f).addr = symbolAddr E f.obj f.sym := by
      show f.base + _ = _
      rw [hbase]
      rfl
    refine ⟨f, hf, hsize', fun i hi => ?_⟩
    rw [← haddr]
    exact memcpy_add (show i < symbolSize E f.obj f.sym by omega) (Nat.le_of_lt (BitVec.isLt _))

/-- The bytes at the target are those that the symbol found in the other objects had at first. -/
theorem ppc_target_eq (h : Setting E si m (rSym rela.rInfo).toNat (rAddr E si rela) q n)
    (hkind : kind (rType rela.rInfo) = .copy) (hskip : rSym rela.rInfo ≠ 0xffffff#32)
    (hsep : ∀ r ∈ l₂, Disjoint (footprint E si p r)
      (range (rAddr E si rela) (symbolSize E si (rSym rela.rInfo).toNat)))
    (hother : ∀ r ∈ l₁, ∀ o ∈ searched E (some si) E.solist, ∀ j,
      Disjoint (footprint E si p r) (range (symbolAddr E o j) (symbolSize E o j)))
    {base : BitVec 32} (hrun : (l₁ ++ rela :: l₂).foldlM (relocEntry E si p) ⟨m, base⟩ = .ok l') :
    ∃ f, (searched E (some si) E.solist).findSome? (foundIn E (symName E si rela)) = some f ∧
      ∀ i < symbolSize E si (rSym rela.rInfo).toNat,
        l'.mem (rAddr E si rela + BitVec.ofNat 32 i) =
          m (symbolAddr E f.obj f.sym + BitVec.ofNat 32 i) := by
  obtain ⟨t, t', h₁, hstep, h₂⟩ := foldlM_append_cons hrun
  obtain ⟨f, hf, hsize, hcopy⟩ := ppc_copy_found h hkind hskip hstep
  refine ⟨f, hf, fun i hi => ?_⟩
  have hobj : f.obj ∈ searched E (some si) E.solist := by
    obtain ⟨l₁, o, l₂, hl, hfo, -⟩ := List.findSome?_eq_some_iff.1 hf
    obtain ⟨rfl, -⟩ := foundIn_eq_some hfo
    simp [hl]
  have hsource : symbolAddr E f.obj f.sym + BitVec.ofNat 32 i ∈
      range (symbolAddr E f.obj f.sym) (symbolSize E f.obj f.sym) :=
    add_mem_range (hsize.symm ▸ hi) (Nat.le_of_lt (BitVec.isLt _))
  have htarget : rAddr E si rela + BitVec.ofNat 32 i ∈
      range (rAddr E si rela) (symbolSize E si (rSym rela.rInfo).toNat) :=
    add_mem_range hi (Nat.le_of_lt (BitVec.isLt _))
  calc l'.mem (rAddr E si rela + BitVec.ofNat 32 i)
      = t'.mem (rAddr E si rela + BitVec.ofNat 32 i) :=
        relocEntries_frame h₂ fun r hr => Set.disjoint_right.1 (hsep r hr) htarget
    _ = t.mem (symbolAddr E f.obj f.sym + BitVec.ofNat 32 i) := hcopy i hi
    _ = m (symbolAddr E f.obj f.sym + BitVec.ofNat 32 i) :=
        relocEntries_frame h₁ fun r hr => Set.disjoint_right.1 (hother r hr f.obj hobj f.sym) hsource

end Ppc

/-! ### When the bytes arrive -/

/-- A weak reference that the search of the other objects meets before all definitions stands for the
same bytes as the definition. -/
def WeakBytesAgree (E : Objects) (si : Ptr) (m : Mem) (k : ℕ) (q : Ptr) (n : ℕ) : Prop :=
  ∀ q' n', MeetsWeak E si (symbolName E si k) q' n' → ∀ i < symbolSize E si k,
    m (symbolAddr E q' n' + BitVec.ofNat 32 i) = m (symbolAddr E q n + BitVec.ofNat 32 i)

section Copied

variable {E : Objects} {si q : Ptr} {m m' : Mem} {n : ℕ}

theorem arm_copied_iff {rel : Arm.Rel} {l₁ l₂ : List Arm.Rel} {reltype : BitVec 32}
    (h : Setting E si m (rSym rel.rInfo).toNat (Arm.reloc E si rel) q n)
    (hkind : Arm.kind (rType rel.rInfo) = .copy)
    (hsep : ∀ r ∈ l₁ ++ l₂, Disjoint (Arm.footprint E si r)
      (range (Arm.reloc E si rel) (symbolSize E si (rSym rel.rInfo).toNat)))
    (hrun : Arm.relocLibrary E si reltype (l₁ ++ rel :: l₂) m = .ok m') :
    Copied E si m m' (rSym rel.rInfo).toNat (Arm.reloc E si rel) q n ↔
      ∀ i < symbolSize E si (rSym rel.rInfo).toNat, m (symbolAddr E q n + BitVec.ofNat 32 i) = 0 := by
  have htarget := arm_target_eq h hkind hsep (Arm.relocLibrary_eq_ok hrun)
  constructor
  · intro hcopied i hi
    rw [← hcopied i hi, htarget i hi, h.bss i hi]
  · intro hzero i hi
    rw [htarget i hi, h.bss i hi, hzero i hi]

theorem ppc_copied_iff {p : Ppc.Plt} {rela : Ppc.Rela} {l₁ l₂ : List Ppc.Rela} {reltype base : BitVec 32}
    (h : Setting E si m (rSym rela.rInfo).toNat (Ppc.rAddr E si rela) q n)
    (hkind : Ppc.kind (rType rela.rInfo) = .copy) (hskip : rSym rela.rInfo ≠ 0xffffff#32)
    (hsep : ∀ r ∈ l₂, Disjoint (Ppc.footprint E si p r)
      (range (Ppc.rAddr E si rela) (symbolSize E si (rSym rela.rInfo).toNat)))
    (hother : ∀ r ∈ l₁, ∀ o ∈ searched E (some si) E.solist, ∀ j,
      Disjoint (Ppc.footprint E si p r) (range (symbolAddr E o j) (symbolSize E o j)))
    (hrun : Ppc.relocLibrary E si p reltype (l₁ ++ rela :: l₂) base m = .ok m') :
    Copied E si m m' (rSym rela.rInfo).toNat (Ppc.rAddr E si rela) q n ↔
      WeakBytesAgree E si m (rSym rela.rInfo).toNat q n := by
  obtain ⟨l, hl, rfl⟩ := Ppc.relocLibrary_eq_ok hrun
  obtain ⟨f, hf, htarget⟩ := ppc_target_eq h hkind hskip hsep hother hl
  have hw : ∀ p ∈ searched E (some si) E.solist, WellFormed (E.so p) :=
    fun p hp => h.wellFormed p (List.mem_append_right _ hp)
  constructor
  · intro hcopied q' n' hweak i hi
    obtain ⟨rfl, rfl⟩ := hweak.eq hf
    rw [← htarget i hi, hcopied i hi]
  · intro hagree i hi
    rw [htarget i hi]
    obtain ⟨-, o, -, -, hfo, -⟩ := List.findSome?_eq_some_iff.1 hf
    obtain ⟨rfl, -, hacc, -⟩ := foundIn_eq_some hfo
    rcases hacc with hdef | hweak
    · obtain ⟨rfl, rfl⟩ := library_eq h.library hw hf hdef
      rfl
    · exact hagree f.obj f.sym (meetsWeak_of_found hf hweak) i hi

/-- The bytes of the library arrive on ARM if and only if they are zero, as the room for them was.  On
PowerPC they arrive if and only if the search for them is not led astray by a weak reference.  The other
entries must not write to the room, nor those before it to the other objects. -/
theorem copied_iff (E : Objects) (si q : Ptr) (m m' : Mem) (n : ℕ) :
    (∀ (rel : Arm.Rel) (l₁ l₂ : List Arm.Rel) (reltype : BitVec 32),
      Setting E si m (rSym rel.rInfo).toNat (Arm.reloc E si rel) q n →
      Arm.kind (rType rel.rInfo) = .copy →
      (∀ r ∈ l₁ ++ l₂, Disjoint (Arm.footprint E si r)
        (range (Arm.reloc E si rel) (symbolSize E si (rSym rel.rInfo).toNat))) →
      Arm.relocLibrary E si reltype (l₁ ++ rel :: l₂) m = .ok m' →
      (Copied E si m m' (rSym rel.rInfo).toNat (Arm.reloc E si rel) q n ↔
        ∀ i < symbolSize E si (rSym rel.rInfo).toNat,
          m (symbolAddr E q n + BitVec.ofNat 32 i) = 0)) ∧
    (∀ (p : Ppc.Plt) (rela : Ppc.Rela) (l₁ l₂ : List Ppc.Rela) (reltype base : BitVec 32),
      Setting E si m (rSym rela.rInfo).toNat (Ppc.rAddr E si rela) q n →
      Ppc.kind (rType rela.rInfo) = .copy → rSym rela.rInfo ≠ 0xffffff#32 →
      (∀ r ∈ l₂, Disjoint (Ppc.footprint E si p r)
        (range (Ppc.rAddr E si rela) (symbolSize E si (rSym rela.rInfo).toNat))) →
      (∀ r ∈ l₁, ∀ o ∈ searched E (some si) E.solist, ∀ j,
        Disjoint (Ppc.footprint E si p r) (range (symbolAddr E o j) (symbolSize E o j))) →
      Ppc.relocLibrary E si p reltype (l₁ ++ rela :: l₂) base m = .ok m' →
      (Copied E si m m' (rSym rela.rInfo).toNat (Ppc.rAddr E si rela) q n ↔
        WeakBytesAgree E si m (rSym rela.rInfo).toNat q n)) :=
  ⟨fun _ _ _ _ h hkind hsep hrun => arm_copied_iff h hkind hsep hrun,
    fun _ _ _ _ _ _ h hkind hskip hsep hother hrun => ppc_copied_iff h hkind hskip hsep hother hrun⟩

end Copied

/-! ### An executable and a library -/

/-- An executable with room for `foo`, and a library that defines `foo`. -/
def roomAndLibrary : Objects where
  so p := if p = .pool 0 then oneSymbol "foo".toList 0x11 5 0x8000
    else oneSymbol "foo".toList 0x11 5 0x40000000
  solist := [.pool 0, .pool 1]

/-- The four bytes of the library's `foo` have the value `b`, all others are zero. -/
def libraryBytes (b : BitVec 8) : Mem := fill (fun _ => 0) 0x40000100 4 fun _ => b

theorem setting_roomAndLibrary (b : BitVec 8) :
    Setting roomAndLibrary (.pool 0) (libraryBytes b) 1 0x8100 (.pool 1) 1 where
  wellFormed p _ := by
    unfold roomAndLibrary
    dsimp only
    split
    · exact wellFormed_oneSymbol _ _ _ _
    · exact wellFormed_oneSymbol _ _ _ _
  index := by decide
  own := by decide
  unique := by decide
  target_eq := by decide
  bss i hi := by
    have hi : i < 4 := hi
    interval_cases i <;> rfl
  library := ⟨⟨[], [], by decide, by simp⟩, [], [], by decide, by simp, by decide⟩

theorem not_meetsWeak_roomAndLibrary (q : Ptr) (n : ℕ) :
    ¬ MeetsWeak roomAndLibrary (.pool 0) (symbolName roomAndLibrary (.pool 0) 1) q n := by
  rintro ⟨-, -, -, -, hundef⟩
  have hshndx : (((roomAndLibrary).so q).symtab n).stShndx = 5#16 := by
    unfold roomAndLibrary
    dsimp only
    split <;> rfl
  exact absurd (hshndx.symm.trans hundef) (by decide)

/-- On ARM the value 0 of the library arrives, on PowerPC any value. -/
theorem copied_roomAndLibrary :
    (∃ m', Arm.relocLibrary roomAndLibrary (.pool 0) DT_REL [⟨0x100, 0x114⟩] (libraryBytes 0) = .ok m' ∧
      Copied roomAndLibrary (.pool 0) (libraryBytes 0) m' 1 0x8100 (.pool 1) 1) ∧
    ∃ m', Ppc.relocLibrary roomAndLibrary (.pool 0) ⟨0, 0, 0, 0, 0, 0, 0⟩ DT_RELA [⟨0x100, 0x113, 0⟩] 0
        (libraryBytes 7) = .ok m' ∧
      Copied roomAndLibrary (.pool 0) (libraryBytes 7) m' 1 0x8100 (.pool 1) 1 := by
  constructor
  · obtain ⟨m', hm'⟩ := exists_ok_of_isOk (x := Arm.relocLibrary roomAndLibrary (.pool 0) DT_REL
      [⟨0x100, 0x114⟩] (libraryBytes 0)) (by decide)
    refine ⟨m', hm', ?_⟩
    have hiff := (copied_iff roomAndLibrary (.pool 0) (.pool 1) (libraryBytes 0) m' 1).1 ⟨0x100, 0x114⟩ [] []
      DT_REL (setting_roomAndLibrary 0) (by decide) (by simp) hm'
    exact hiff.2 (by decide)
  · obtain ⟨m', hm'⟩ := exists_ok_of_isOk (x := Ppc.relocLibrary roomAndLibrary (.pool 0)
      ⟨0, 0, 0, 0, 0, 0, 0⟩ DT_RELA [⟨0x100, 0x113, 0⟩] 0 (libraryBytes 7)) (by decide)
    refine ⟨m', hm', ?_⟩
    have hiff := (copied_iff roomAndLibrary (.pool 0) (.pool 1) (libraryBytes 7) m' 1).2
      ⟨0, 0, 0, 0, 0, 0, 0⟩ ⟨0x100, 0x113, 0⟩ [] [] DT_RELA 0 (setting_roomAndLibrary 7) (by decide)
      (by decide) (by simp) (by simp) hm'
    exact hiff.2 fun q n hweak => absurd hweak (not_meetsWeak_roomAndLibrary q n)

/-- On ARM the value 7 of the library does not arrive. -/
theorem arm_copies_room_onto_itself :
    Setting roomAndLibrary (.pool 0) (libraryBytes 7) 1 0x8100 (.pool 1) 1 ∧
    ∃ m', Arm.relocLibrary roomAndLibrary (.pool 0) DT_REL [⟨0x100, 0x114⟩] (libraryBytes 7) = .ok m' ∧
      ¬ Copied roomAndLibrary (.pool 0) (libraryBytes 7) m' 1 0x8100 (.pool 1) 1 := by
  refine ⟨setting_roomAndLibrary 7, ?_⟩
  obtain ⟨m', hm'⟩ := exists_ok_of_isOk (x := Arm.relocLibrary roomAndLibrary (.pool 0) DT_REL
    [⟨0x100, 0x114⟩] (libraryBytes 7)) (by decide)
  refine ⟨m', hm', fun hcopied => ?_⟩
  have hiff := @arm_copied_iff roomAndLibrary (.pool 0) (.pool 1) (libraryBytes 7) m' 1 ⟨0x100, 0x114⟩ [] []
    DT_REL (setting_roomAndLibrary 7) (by decide) (by simp) hm'
  exact absurd (hiff.1 hcopied 0 (by decide)) (by decide)

end Bionic.CopyReloc
