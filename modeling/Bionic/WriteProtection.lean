import Mathlib
import Bionic.LoadSegments

/-! # Write protection of the read-only segments

`load_segments` makes every segment writable for the relocations, and remembers one range from the lowest page of a
read-only segment to the highest one; `link_image` protects that range.

* **Inside of the range** there may be pages of a writable segment.
* **Behind it** there is the last page of the address space: a segment that reaches it has the end 0, which counts as
  none.

`writeProtects_iff` says that nothing else goes wrong. -/

namespace Bionic.Segments

open Pages
open ByteMemory (Mem)

/-- The last call of `mprotect` in `link_image`: its address and its length. -/
def writeProtect (si : Soinfo) : Option (Word × Word) :=
  if si.wrprotectStart ≠ 0xffffffff ∧ si.wrprotectEnd ≠ 0 then
    some (si.wrprotectStart, si.wrprotectEnd - si.wrprotectStart)
  else none

/-- The addresses that `mprotect` changes the access to: whole pages, and none when it fails. -/
def mprotected (addr len : Word) : Set Word :=
  {x | addr.toNat % 4096 = 0 ∧ addr.toNat + up len.toNat < 2 ^ 32 ∧
    addr.toNat ≤ x.toNat ∧ x.toNat < addr.toNat + up len.toNat}

/-- What is write protected in the end. -/
def protectedRange (si : Soinfo) : Set Word :=
  match writeProtect si with
  | none => ∅
  | some (addr, len) => mprotected addr len

/-! ### Segments -/

def ReadOnly (ph : Phdr) : Prop := ph.pType = PT_LOAD ∧ ph.pFlags &&& PF_W = 0

def Writable (ph : Phdr) : Prop := ph.pType = PT_LOAD ∧ ph.pFlags &&& PF_W ≠ 0

instance : DecidablePred ReadOnly := fun ph => inferInstanceAs (Decidable (ph.pType = PT_LOAD ∧ ph.pFlags &&& PF_W = 0))

instance : DecidablePred Writable := fun ph => inferInstanceAs (Decidable (ph.pType = PT_LOAD ∧ ph.pFlags &&& PF_W ≠ 0))

/-- The length of the pages of a segment. -/
def pagesLen (ph : Phdr) : ℕ := up (ph.pVaddr.toNat % 4096 + ph.pMemsz.toNat)

/-- The addresses in the pages of a segment, which may go around the end of the address space. -/
def pagesOf (base : Word) (ph : Phdr) : Set Word := {x | (x - pbase base ph).toNat < pagesLen ph}

/-- The end of the pages of a segment. -/
def pagesEnd (base : Word) (ph : Phdr) : ℕ := (pbase base ph).toNat + pagesLen ph

/-- Every page of a read-only segment is protected, and no page of a writable one. -/
structure WriteProtects (base : Word) (phdrs : List Phdr) (si : Soinfo) : Prop where
  readOnly : ∀ ph ∈ phdrs, ReadOnly ph → pagesOf base ph ⊆ protectedRange si
  writable : ∀ ph ∈ phdrs, Writable ph → Disjoint (pagesOf base ph) (protectedRange si)

/-- No read-only segment reaches the last page of the address space, and no page of a writable segment stands between
the first page of a read-only segment and the last one of a read-only segment. -/
structure Separable (base : Word) (phdrs : List Phdr) : Prop where
  below : ∀ ph ∈ phdrs, ReadOnly ph → pagesEnd base ph < 2 ^ 32
  apart : ∀ p ∈ phdrs, ∀ q ∈ phdrs, ∀ w ∈ phdrs, ReadOnly p → ReadOnly q → Writable w →
    ∀ x ∈ pagesOf base w, ¬ ((pbase base p).toNat ≤ x.toNat ∧ x.toNat < pagesEnd base q)

section Ends

variable {base x : Word} {ph : Phdr}

theorem mem_pagesOf (h : pagesEnd base ph < 2 ^ 32) :
    x ∈ pagesOf base ph ↔ (pbase base ph).toNat ≤ x.toNat ∧ x.toNat < pagesEnd base ph := by
  have hx := x.isLt
  rw [pagesOf, Set.mem_ofPred_eq, BitVec.toNat_sub]
  unfold pagesEnd at h ⊢
  omega

/-- A segment that does not end below the end of the address space has the last page. -/
theorem last_mem_pagesOf (h : ¬ pagesEnd base ph < 2 ^ 32) : (0xffffffff : Word) ∈ pagesOf base ph := by
  have h0 : (0xffffffff : Word).toNat = 2 ^ 32 - 1 := rfl
  have hp := (pbase base ph).isLt
  rw [pagesOf, Set.mem_ofPred_eq, BitVec.toNat_sub, h0]
  unfold pagesEnd at h
  omega

/-- The end that is noted. -/
theorem pbase_add_fullLen (base : Word) (ph : Phdr) : pbase base ph + fullLen base ph = round (segTop base ph) := by
  rw [fullLen, BitVec.add_comm, BitVec.sub_add_cancel]

theorem toNat_noted (ha : (pbase base ph).toNat % 4096 = 0) (h : pagesEnd base ph < 2 ^ 32) :
    (pbase base ph + fullLen base ph).toNat = pagesEnd base ph := by
  have hle := le_up (ph.pVaddr.toNat % 4096 + ph.pMemsz.toNat)
  have hv := down_add_mod ph.pVaddr.toNat
  have hb := toNat_pbase base ph
  unfold pagesEnd pagesLen at h ⊢
  have htop : (segTop base ph).toNat = (pbase base ph).toNat + (ph.pVaddr.toNat % 4096 + ph.pMemsz.toNat) := by
    rw [segTop, BitVec.toNat_add, BitVec.toNat_add]
    omega
  have hup : up (segTop base ph).toNat =
      (pbase base ph).toNat + up (ph.pVaddr.toNat % 4096 + ph.pMemsz.toNat) := by
    rw [htop, add_up ha]
  rw [pbase_add_fullLen, toNat_round (by omega), hup]

end Ends

/-! ### What is noted -/

/-- The range that the loop makes of the one before. -/
structure Noted (base : Word) (phdrs : List Phdr) (si si' : Soinfo) : Prop where
  aligned : ∀ ph ∈ phdrs, ReadOnly ph → (pbase base ph).toNat % 4096 = 0
  starts : ∀ ph ∈ phdrs, ReadOnly ph → si'.wrprotectStart.toNat ≤ (pbase base ph).toNat
  ends : ∀ ph ∈ phdrs, ReadOnly ph → (pbase base ph + fullLen base ph).toNat ≤ si'.wrprotectEnd.toNat
  falls : si'.wrprotectStart.toNat ≤ si.wrprotectStart.toNat
  grows : si.wrprotectEnd.toNat ≤ si'.wrprotectEnd.toNat
  first : si'.wrprotectStart = si.wrprotectStart ∨
    ∃ ph ∈ phdrs, ReadOnly ph ∧ si'.wrprotectStart = pbase base ph
  last : si'.wrprotectEnd = si.wrprotectEnd ∨
    ∃ ph ∈ phdrs, ReadOnly ph ∧ si'.wrprotectEnd = pbase base ph + fullLen base ph

section Loop

variable {K : Kernel} {arm : Bool} {file : ℕ → BitVec 8} {ph : Phdr} {phdrs : List Phdr} {L L' : Loading}
  {base : Word} {si si' : Soinfo}

theorem noted_noteReadOnly (ha : (pbase base ph).toNat % 4096 = 0) (hp : ReadOnly ph) :
    Noted base [ph] si (noteReadOnly base ph si) := by
  have hmem : ∀ {p : Phdr → Prop}, p ph → ∃ q ∈ [ph], ReadOnly q ∧ p q := fun h => ⟨ph, List.mem_singleton_self _, hp, h⟩
  unfold noteReadOnly
  simp only [BitVec.lt_def]
  refine ⟨?_, ?_, ?_, ?_, ?_, ?_, ?_⟩
  · rintro q hq -
    rwa [List.mem_singleton.mp hq]
  · rintro q hq -
    rw [List.mem_singleton.mp hq]
    dsimp only
    split <;> omega
  · rintro q hq -
    rw [List.mem_singleton.mp hq]
    dsimp only
    split <;> omega
  · dsimp only
    split <;> omega
  · dsimp only
    split <;> omega
  · dsimp only
    split
    · exact Or.inr (hmem rfl)
    · exact Or.inl rfl
  · dsimp only
    split
    · exact Or.inr (hmem rfl)
    · exact Or.inl rfl

/-- A program header that is not a read-only segment leaves the range as it is. -/
theorem noted_same (hp : ¬ ReadOnly ph) (h1 : si'.wrprotectStart = si.wrprotectStart)
    (h2 : si'.wrprotectEnd = si.wrprotectEnd) : Noted base [ph] si si' := by
  have hno : ∀ q ∈ [ph], ¬ ReadOnly q := fun q hq => by rwa [List.mem_singleton.mp hq]
  exact ⟨fun q hq hr => absurd hr (hno q hq), fun q hq hr => absurd hr (hno q hq), fun q hq hr => absurd hr (hno q hq),
    by rw [h1], by rw [h2], Or.inl h1, Or.inl h2⟩

theorem Noted.cons {si'' : Soinfo} (h : Noted base [ph] si si') (h' : Noted base phdrs si' si'') :
    Noted base (ph :: phdrs) si si'' := by
  have hsub : ∀ q ∈ [ph], q ∈ ph :: phdrs := fun q hq => List.mem_singleton.mp hq ▸ List.mem_cons_self
  have hhere := List.mem_singleton_self ph
  have h1 := h'.falls
  have h2 := h'.grows
  refine ⟨fun q hq hr => ?_, fun q hq hr => ?_, fun q hq hr => ?_, h1.trans h.falls, h.grows.trans h2, ?_, ?_⟩
  · rcases List.mem_cons.mp hq with rfl | hq
    · exact h.aligned q hhere hr
    · exact h'.aligned q hq hr
  · rcases List.mem_cons.mp hq with rfl | hq
    · exact h1.trans (h.starts q hhere hr)
    · exact h'.starts q hq hr
  · rcases List.mem_cons.mp hq with rfl | hq
    · exact (h.ends q hhere hr).trans h2
    · exact h'.ends q hq hr
  · rcases h'.first with h3 | ⟨q, hq, hr, h3⟩
    · exact h.first.imp h3.trans fun ⟨q, hq, hr, h4⟩ => ⟨q, hsub q hq, hr, h3.trans h4⟩
    · exact Or.inr ⟨q, List.mem_cons_of_mem _ hq, hr, h3⟩
  · rcases h'.last with h3 | ⟨q, hq, hr, h3⟩
    · exact h.last.imp h3.trans fun ⟨q, hq, hr, h4⟩ => ⟨q, hsub q hq, hr, h3.trans h4⟩
    · exact Or.inr ⟨q, List.mem_cons_of_mem _ hq, hr, h3⟩

theorem noted_loadPhdr (h : loadPhdr K arm file ph L = .ok L') : Noted L.si.base [ph] L.si L'.si := by
  by_cases hp : ph.pType = PT_LOAD
  · rw [loadPhdr_load hp] at h
    obtain ⟨s, -, hf, -, -, hsi, -⟩ := loadSegment_ok h
    by_cases hw : ph.pFlags &&& PF_W = 0
    · rw [hsi, if_pos hw]
      exact noted_noteReadOnly (mapFile_some hf).1.1 ⟨hp, hw⟩
    · rw [hsi, if_neg hw]
      exact noted_same (fun hr => hw hr.2) rfl rfl
  · obtain ⟨L₁, hl, -, -, h1, h2⟩ := loadPhdr_other K arm file L hp
    obtain rfl := Except.ok.inj (h.symm.trans hl)
    exact noted_same (fun hr => hp hr.1) h1 h2

theorem noted_loadPhdrs (h : loadPhdrs K arm file phdrs L = .ok L') : Noted L.si.base phdrs L.si L'.si := by
  induction phdrs generalizing L with
  | nil =>
    obtain rfl := Except.ok.inj h
    exact ⟨by simp, by simp, by simp, le_rfl, le_rfl, Or.inl rfl, Or.inl rfl⟩
  | cons ph phdrs ih =>
    obtain ⟨L₁, hstep, hrest⟩ := loadPhdrs_cons_eq_ok h
    have htail := ih hrest
    rw [loadPhdr_base hstep] at htail
    exact (noted_loadPhdr hstep).cons htail

theorem protectedRange_of_none (h : si.wrprotectStart = 0xffffffff ∨ si.wrprotectEnd = 0) :
    protectedRange si = ∅ := by
  have hn : writeProtect si = none := if_neg fun hc => h.elim hc.1 hc.2
  rw [protectedRange, hn]

theorem mem_protectedRange_of_le (h1 : si.wrprotectStart.toNat % 4096 = 0) (h2 : si.wrprotectEnd.toNat % 4096 = 0)
    (hle : si.wrprotectStart.toNat ≤ si.wrprotectEnd.toNat) (x : Word) :
    x ∈ protectedRange si ↔ si.wrprotectStart.toNat ≤ x.toNat ∧ x.toNat < si.wrprotectEnd.toNat := by
  have hlt := si.wrprotectEnd.isLt
  have hs : si.wrprotectStart ≠ 0xffffffff := fun hc => by
    rw [hc] at h1
    exact absurd h1 (by decide)
  by_cases he : si.wrprotectEnd = 0
  · rw [protectedRange_of_none (Or.inr he), he]
    exact iff_of_false (Set.notMem_empty x) fun hx => absurd hx.2 (Nat.not_lt_zero _)
  · have hw : writeProtect si = some _ := if_pos ⟨hs, he⟩
    have hlen : (si.wrprotectEnd - si.wrprotectStart).toNat = si.wrprotectEnd.toNat - si.wrprotectStart.toNat :=
      BitVec.toNat_sub_of_le (BitVec.le_def.mpr hle)
    have hup : up (si.wrprotectEnd - si.wrprotectStart).toNat = si.wrprotectEnd.toNat - si.wrprotectStart.toNat := by
      rw [hlen]
      unfold up
      omega
    rw [protectedRange, hw]
    simp only [mprotected, Set.mem_ofPred_eq, hup]
    omega

theorem last_notMem_protectedRange (si : Soinfo) : (0xffffffff : Word) ∉ protectedRange si := by
  have h0 : (0xffffffff : Word).toNat = 2 ^ 32 - 1 := rfl
  unfold protectedRange
  cases writeProtect si with
  | none => exact Set.notMem_empty _
  | some r =>
    rintro ⟨-, h1, -, h2⟩
    omega

/-- While no read-only segment reaches the last page, the range is protected as it has been noted. -/
theorem Noted.mem_protectedRange (h : Noted base phdrs si si') (h1 : si.wrprotectStart = 0xffffffff)
    (h2 : si.wrprotectEnd = 0) (hb : ∀ ph ∈ phdrs, ReadOnly ph → pagesEnd base ph < 2 ^ 32) (x : Word) :
    x ∈ protectedRange si' ↔ si'.wrprotectStart.toNat ≤ x.toNat ∧ x.toNat < si'.wrprotectEnd.toNat := by
  rcases h.last with hl | ⟨q, hq, hqr, hl⟩
  · rw [h2] at hl
    rw [protectedRange_of_none (Or.inr hl), hl]
    exact iff_of_false (Set.notMem_empty x) fun hx => absurd hx.2 (Nat.not_lt_zero _)
  · have hqa := h.aligned q hq hqr
    have hend := toNat_noted hqa (hb q hq hqr)
    have hqs := h.starts q hq hqr
    have hmod := up_mod (q.pVaddr.toNat % 4096 + q.pMemsz.toNat)
    rw [← hl] at hend
    rcases h.first with hf | ⟨p, hp, hpr, hf⟩
    · rw [hf, h1] at hqs
      have h0 : (0xffffffff : Word).toNat = 2 ^ 32 - 1 := rfl
      have hlt := (pbase base q).isLt
      omega
    · have hpa := h.aligned p hp hpr
      rw [← hf] at hpa
      unfold pagesEnd pagesLen at hend
      exact mem_protectedRange_of_le hpa (by omega) (by omega) x

/-- The range goes from the first page of one read-only segment to the last page of another. -/
theorem Noted.mem_protectedRange_iff (h : Noted base phdrs si si') (h1 : si.wrprotectStart = 0xffffffff)
    (h2 : si.wrprotectEnd = 0) (hb : ∀ ph ∈ phdrs, ReadOnly ph → pagesEnd base ph < 2 ^ 32) (x : Word) :
    x ∈ protectedRange si' ↔ ∃ p ∈ phdrs, ∃ q ∈ phdrs, ReadOnly p ∧ ReadOnly q ∧
      (pbase base p).toNat ≤ x.toNat ∧ x.toNat < pagesEnd base q := by
  rw [h.mem_protectedRange h1 h2 hb]
  constructor
  · rintro ⟨hs, he⟩
    rcases h.last with hl | ⟨q, hq, hqr, hl⟩
    · rw [hl, h2] at he
      exact absurd he (Nat.not_lt_zero _)
    · rcases h.first with hf | ⟨p, hp, hpr, hf⟩
      · have h0 : (0xffffffff : Word).toNat = 2 ^ 32 - 1 := rfl
        have hlt := si'.wrprotectEnd.isLt
        rw [hf, h1, h0] at hs
        omega
      · rw [hf] at hs
        rw [hl, toNat_noted (h.aligned q hq hqr) (hb q hq hqr)] at he
        exact ⟨p, hp, q, hq, hpr, hqr, hs, he⟩
  · rintro ⟨p, hp, q, hq, hpr, hqr, hs, he⟩
    have hends := h.ends q hq hqr
    rw [toNat_noted (h.aligned q hq hqr) (hb q hq hqr)] at hends
    exact ⟨(h.starts p hp hpr).trans hs, lt_of_lt_of_le he hends⟩

end Loop

/-! ### The theorem -/

/-- When a library has been loaded, `link_image` protects exactly its read-only segments if none of them reaches the last
page of the address space and no writable segment stands between them; and not if not. -/
theorem writeProtects_iff (K : Kernel) (arm : Bool) (file : ℕ → BitVec 8) (phdrs : List Phdr) (si : Soinfo) (s : Space)
    (h : (loadSegments K arm file phdrs si s).1 = 0) :
    WriteProtects si.base phdrs (loadSegments K arm file phdrs si s).2.1 ↔ Separable si.base phdrs := by
  obtain ⟨L, hl, heq⟩ := loadSegments_ok h
  rw [heq]
  have hmem := (noted_loadPhdrs hl).mem_protectedRange_iff rfl rfl
  dsimp only [initial] at hmem
  constructor
  · intro hp
    have hbelow : ∀ ph ∈ phdrs, ReadOnly ph → pagesEnd si.base ph < 2 ^ 32 := by
      intro ph hph hr
      by_contra hge
      apply last_notMem_protectedRange L.si
      exact hp.readOnly ph hph hr (last_mem_pagesOf hge)
    refine ⟨hbelow, fun p hp' q hq w hw hpr hqr hww x hx hc => ?_⟩
    apply Set.disjoint_left.mp (hp.writable w hw hww) hx
    exact (hmem hbelow x).mpr ⟨p, hp', q, hq, hpr, hqr, hc⟩
  · intro hsep
    have hrange := hmem hsep.below
    constructor
    · intro ph hph hr x hx
      rw [mem_pagesOf (hsep.below ph hph hr)] at hx
      exact (hrange x).mpr ⟨ph, hph, ph, hph, hr, hr, hx⟩
    · intro w hw hww
      refine Set.disjoint_left.mpr fun x hx hxp => ?_
      obtain ⟨p, hp, q, hq, hpr, hqr, hc⟩ := (hrange x).mp hxp
      exact hsep.apart p hp q hq w hw hpr hqr hww x hx hc

/-! Libraries with a read-only segment, a writable one, and perhaps another read-only one. -/

def textPage : Phdr := ⟨PT_LOAD, 0, 0, 0x1000, 0x1000, PF_R ||| PF_X⟩

def dataPage : Phdr := ⟨PT_LOAD, 0x1000, 0x1000, 0x1000, 0x1000, PF_R ||| PF_W⟩

def rodataPage : Phdr := ⟨PT_LOAD, 0x2000, 0x2000, 0x1000, 0x1000, PF_R⟩

def reserved (pages : Word) : Soinfo := ⟨0x80000000, 0x1000 * pages, 0, 0, 0, 0, 0, 0⟩

theorem mem_textPage (x : Word) : x ∈ pagesOf 0x80000000 textPage ↔ 0x80000000 ≤ x.toNat ∧ x.toNat < 0x80001000 :=
  mem_pagesOf (by decide)

theorem mem_dataPage (x : Word) : x ∈ pagesOf 0x80000000 dataPage ↔ 0x80001000 ≤ x.toNat ∧ x.toNat < 0x80002000 :=
  mem_pagesOf (by decide)

theorem mem_rodataPage (x : Word) : x ∈ pagesOf 0x80000000 rodataPage ↔ 0x80002000 ≤ x.toNat ∧ x.toNat < 0x80003000 :=
  mem_pagesOf (by decide)

theorem writeProtects_textData : WriteProtects 0x80000000 [textPage, dataPage]
    (loadSegments (fun _ => true) true (fun _ => 0) [textPage, dataPage] (reserved 2) ⟨fun _ => 0, []⟩).2.1 := by
  refine (writeProtects_iff _ _ _ _ (reserved 2) _ (by decide)).mpr ⟨fun ph hph _ => ?_, ?_⟩
  · obtain rfl | rfl : ph = textPage ∨ ph = dataPage := by simpa using hph
    · decide
    · decide
  · intro p _ q hq w hw _ hqr hww x hx hc
    obtain rfl | rfl : q = textPage ∨ q = dataPage := by simpa using hq
    · obtain rfl | rfl : w = textPage ∨ w = dataPage := by simpa using hw
      · exact absurd hww (by decide)
      · exact absurd hc.2 (Nat.not_lt.mpr ((mem_dataPage x).mp hx).1)
    · exact absurd hqr (by decide)

/-- The page of the data is made read-only. -/
theorem not_writeProtects_between : ¬ ∀ (K : Kernel) (arm : Bool) (file : ℕ → BitVec 8) (phdrs : List Phdr) (si : Soinfo)
    (s : Space), phdrs.Pairwise (fun p q => Disjoint (pagesOf si.base p) (pagesOf si.base q)) →
      (loadSegments K arm file phdrs si s).1 = 0 →
        WriteProtects si.base phdrs (loadSegments K arm file phdrs si s).2.1 := by
  intro h
  have hdisj : [textPage, dataPage, rodataPage].Pairwise
      (fun p q => Disjoint (pagesOf 0x80000000 p) (pagesOf 0x80000000 q)) := by
    simp only [List.pairwise_cons, List.mem_cons, List.not_mem_nil, or_false, forall_eq_or_imp, forall_eq,
      Set.disjoint_left, mem_textPage, mem_dataPage, mem_rodataPage]
    exact ⟨⟨fun x h1 h2 => by omega, fun x h1 h2 => by omega⟩, fun x h1 h2 => by omega, by simp⟩
  have hp := h (fun _ => true) true (fun _ => 0) [textPage, dataPage, rodataPage] (reserved 3) ⟨fun _ => 0, []⟩ hdisj
    (by decide)
  have hstart : (loadSegments (fun _ => true) true (fun _ => 0) [textPage, dataPage, rodataPage] (reserved 3)
      ⟨fun _ => 0, []⟩).2.1.wrprotectStart = 0x80000000 := by decide
  have hend : (loadSegments (fun _ => true) true (fun _ => 0) [textPage, dataPage, rodataPage] (reserved 3)
      ⟨fun _ => 0, []⟩).2.1.wrprotectEnd = 0x80003000 := by decide
  have hdata : (0x80001000 : Word) ∈ pagesOf 0x80000000 dataPage := (mem_dataPage _).mpr (by decide)
  apply Set.disjoint_left.mp (hp.writable dataPage (by simp) (by decide)) hdata
  have hrange := mem_protectedRange_of_le (by rw [hstart]; rfl) (by rw [hend]; rfl)
    (by rw [hstart, hend]; decide) 0x80001000
  rw [hrange, hstart, hend]
  decide

end Bionic.Segments
