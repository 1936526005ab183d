import Bionic.ElfLookup
import Bionic.StateExcept

/-! # `dlsym` (`linker/dlfcn.c`)

`dlsym(RTLD_DEFAULT, name)` takes what `_do_lookup` finds in the first library that has a weak symbol or a global
definition of the name, and returns its address only if it is a global definition.  A weak symbol that is met first
therefore hides the global definitions behind it (`findsGlobal_iff`). -/

namespace Bionic.Dlsym

open ElfLookup StateExcept
open Linker (CStr Ptr Fault)

/-- The first argument of `dlsym`. -/
inductive Handle where
  | null
  /-- `RTLD_DEFAULT`. -/
  | default
  /-- `RTLD_NEXT`. -/
  | next
  | library (si : Ptr)
deriving DecidableEq, Repr

/-- The argument of `set_dlerror`. -/
inductive DlError where
  | invalidLibraryHandle
  | badSymbolName
  | symbolNotFound
  | symbolNotGlobal
deriving DecidableEq, Repr

/-! ### The code -/

section Code

variable (E : Objects)

/-- `lookup_in_library`, together with the base of the library. -/
def lookupInLibrary (si : Ptr) (name : CStr) : Except Fault (Option Found) := do
  let r ← doLookupInSo (E.so si) name 0
  return r.1.map fun n => ⟨si, n, (E.so si).base⟩

/-- `lookup`. -/
def lookup (name : CStr) : Except Fault (Option Found) := doLookup E none name

/-- The result for what a look-up has found: null and an error, or an address. -/
def symbolResult : Option Found → BitVec 32 × Option DlError
  | none => (0, some .symbolNotFound)
  | some f =>
      let sym := (E.so f.obj).symtab f.sym
      if sym.bind = STB_GLOBAL ∧ sym.stShndx ≠ 0#16 then (sym.stValue + f.base, none)
      else (0, some .symbolNotGlobal)

def dlsym (handle : Handle) (symbol : Option CStr) : Except Fault (BitVec 32 × Option DlError) :=
  match handle, symbol with
  | .null, _ => .ok (0, some .invalidLibraryHandle)
  | _, none => .ok (0, some .badSymbolName)
  | .default, some name => do return symbolResult E (← lookup E name)
  | .next, some name => do return symbolResult E (← lookup E name)
  | .library si, some name => do return symbolResult E (← lookupInLibrary E si name)

end Code

/-! ### Global definitions -/

section Global

variable {E : Objects} {name : CStr} {p : Ptr} {n : ℕ}

/-- Symbol `n` of `p` is a global definition of the name, with an address other than 0. -/
structure GlobalAt (E : Objects) (name : CStr) (p : Ptr) (n : ℕ) : Prop where
  named : (E.so p).strtab ((E.so p).symtab n).stName = name
  global : ((E.so p).symtab n).bind = STB_GLOBAL
  defined : ((E.so p).symtab n).stShndx ≠ 0#16
  address : ((E.so p).symtab n).stValue + (E.so p).base ≠ 0

/-- A library without `FLAG_ERROR` has one. -/
def HasGlobal (E : Objects) (name : CStr) : Prop :=
  ∃ p ∈ E.solist, (E.so p).error = false ∧ ∃ n < (E.so p).nchain, n ≠ 0 ∧ GlobalAt E name p n

/-- If there is a global definition, `dlsym(RTLD_DEFAULT, name)` returns a pointer other than null. -/
def FindsGlobal (E : Objects) (name : CStr) : Prop :=
  HasGlobal E name → ∃ addr e, dlsym E .default (some name) = .ok (addr, e) ∧ addr ≠ 0

/-- There is a global definition, but before all of them the search meets a weak symbol of the name, defined or not, or a
global definition with address 0. -/
def Hidden (E : Objects) (name : CStr) : Prop :=
  HasGlobal E name ∧ ∃ a p b, searched E none E.solist = a ++ p :: b ∧
    (∀ q ∈ a, ∀ m ∈ (E.so q).chainOf name, ¬ GlobalAt E name q m) ∧
    ∃ c n d, (E.so p).chainOf name = c ++ n :: d ∧ (E.so p).Accepts name n ∧ ¬ GlobalAt E name p n ∧
      ∀ m ∈ c, ¬ GlobalAt E name p m

theorem GlobalAt.defining (h : GlobalAt E name p n) : (E.so p).Defining name n :=
  ⟨⟨h.named, Or.inl h.global⟩, h.defined⟩

theorem GlobalAt.accepts (h : GlobalAt E name p n) : (E.so p).Accepts name n := Or.inl h.defining

theorem mem_searched : p ∈ searched E none E.solist ↔ p ∈ E.solist ∧ (E.so p).error = false := by
  simp [searched]

/-- The address is not null exactly if the symbol that was found is a global definition with one. -/
theorem symbolResult_ne_zero {f : Found} (hbase : f.base = (E.so f.obj).base) (hacc : (E.so f.obj).Accepts name f.sym) :
    (symbolResult E (some f)).1 ≠ 0 ↔ GlobalAt E name f.obj f.sym := by
  have hname : (E.so f.obj).strtab ((E.so f.obj).symtab f.sym).stName = name := (accepts_iff.1 hacc).1
  unfold symbolResult
  dsimp only
  rw [hbase]
  split
  · next hg =>
    exact ⟨fun haddr => ⟨hname, hg.1, hg.2, haddr⟩, fun h => h.address⟩
  · next hg =>
    exact iff_of_false (by simp) fun h => hg ⟨h.global, h.defined⟩

theorem dlsym_default (hw : ∀ p ∈ searched E none E.solist, WellFormed (E.so p)) (name : CStr) :
    dlsym E .default (some name) =
      .ok (symbolResult E ((searched E none E.solist).findSome? (foundIn E name))) := by
  have hlook : lookup E name = .ok ((searched E none E.solist).findSome? (foundIn E name)) := doLookup_ok hw
  unfold dlsym
  dsimp only
  rw [hlook]
  rfl

/-- A global definition is on the chain of its name. -/
theorem HasGlobal.exists_mem (hw : ∀ p ∈ searched E none E.solist, WellFormed (E.so p)) (h : HasGlobal E name) :
    ∃ p ∈ searched E none E.solist, ∃ n ∈ (E.so p).chainOf name, GlobalAt E name p n := by
  obtain ⟨p, hp, herr, n, hn, h0, hg⟩ := h
  have hp' := mem_searched.2 ⟨hp, herr⟩
  exact ⟨p, hp', n, (hw p hp').complete name n hn h0 hg.defining, hg⟩

/-- For every set of libraries with well-formed hash tables and every name, `dlsym(RTLD_DEFAULT, name)` finds a global
definition if there is one, unless a weak symbol or an address of 0 hides all of them. -/
theorem findsGlobal_iff (hw : ∀ p ∈ searched E none E.solist, WellFormed (E.so p)) (name : CStr) :
    FindsGlobal E name ↔ ¬ Hidden E name := by
  have hrun := dlsym_default hw name
  cases hr : (searched E none E.solist).findSome? (foundIn E name) with
  | none =>
      have hno : ¬ HasGlobal E name := by
        intro hg
        obtain ⟨p, hp, n, hn, hgn⟩ := hg.exists_mem hw
        exact foundIn_eq_none (List.findSome?_eq_none_iff.1 hr p hp) n hn hgn.accepts
      exact iff_of_true (fun hg => absurd hg hno) fun hh => hno hh.1
  | some f =>
      rw [hr] at hrun
      obtain ⟨l₁, p, l₂, hl, hf, hl₁⟩ := List.findSome?_eq_some_iff.1 hr
      obtain ⟨rfl, hbase, hacc, c, d, hcd, hc⟩ := foundIn_eq_some hf
      have hne := symbolResult_ne_zero hbase hacc
      constructor
      · rintro hfind ⟨hg, a, q, b, hab, ha, c', n, d', hcd', hn, hng, hc'⟩
        obtain ⟨addr, e, hres, haddr⟩ := hfind hg
        have heq : symbolResult E (some f) = (addr, e) := Except.ok.inj (hrun.symm.trans hres)
        have hfg : GlobalAt E name f.obj f.sym := by
          rw [← hne, heq]
          exact haddr
        have hfirst : f.obj ∉ a := fun hfa => ha f.obj hfa f.sym (by simp [hcd]) hfg
        obtain ⟨rfl, rfl⟩ := found_eq hr hab hcd' hn hfirst fun e hfc => hc' f.sym hfc (e ▸ hfg)
        exact hng hfg
      · intro hno hg
        refine ⟨_, _, hrun, hne.2 ?_⟩
        by_contra hng
        refine hno ⟨hg, l₁, f.obj, l₂, hl, fun q hq m hm hgm => ?_, c, f.sym, d, hcd, hacc, hng, fun m hm hgm => ?_⟩
        · exact foundIn_eq_none (hl₁ q hq) m hm hgm.accepts
        · exact hc m hm hgm.accepts

end Global

/-- Behind a global reference to `foo`, the definition of the library is found. -/
theorem findsGlobal_reference : FindsGlobal (referenceAndLibrary 0x12) "foo".toList := by
  apply (findsGlobal_iff (fun p _ => wellFormed_referenceAndLibrary _ p) _).2
  rintro ⟨-, -, p, -, -, -, -, n, -, -, hacc, hng, -⟩
  apply hng
  have hp : (((referenceAndLibrary 0x12).so p).symtab n).bind = STB_GLOBAL ∧
      (((referenceAndLibrary 0x12).so p).symtab n).stValue + ((referenceAndLibrary 0x12).so p).base ≠ 0 := by
    have hglobal : (0x12#8 >>> 4) = STB_GLOBAL := by decide
    have haddr : 0x100#32 + 0x8000#32 ≠ 0 ∧ 0x100#32 + 0x40000000#32 ≠ 0 := by decide
    unfold referenceAndLibrary
    dsimp only
    split
    · exact ⟨hglobal, haddr.1⟩
    · exact ⟨hglobal, haddr.2⟩
  obtain ⟨hname, ⟨-, hdef⟩ | hweak⟩ := accepts_iff.1 hacc
  · exact ⟨hname, hp.1, hdef, hp.2⟩
  · exact absurd (hp.1.symm.trans hweak) (by decide)

/-- Behind a weak reference to `foo`, the definition of the library is not found. -/
theorem not_findsGlobal_weak : (∀ p, WellFormed ((referenceAndLibrary 0x20).so p)) ∧
    HasGlobal (referenceAndLibrary 0x20) "foo".toList ∧
    dlsym (referenceAndLibrary 0x20) .default (some "foo".toList) = .ok (0, some .symbolNotGlobal) ∧
    ¬ FindsGlobal (referenceAndLibrary 0x20) "foo".toList := by
  have hrun : dlsym (referenceAndLibrary 0x20) .default (some "foo".toList) = .ok (0, some .symbolNotGlobal) := by
    decide
  have hhas : HasGlobal (referenceAndLibrary 0x20) "foo".toList :=
    ⟨.pool 1, by decide, by decide, 1, by decide, by decide, by decide, by decide, by decide, by decide⟩
  refine ⟨wellFormed_referenceAndLibrary _, hhas, hrun, fun h => ?_⟩
  obtain ⟨addr, e, hres, haddr⟩ := h hhas
  rw [hrun] at hres
  cases hres
  exact haddr rfl

end Bionic.Dlsym
