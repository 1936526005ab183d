import Mathlib
import Bionic.LoadSegments

/-! # What the segments of a library hold

Each segment of a library that is loaded holds its part of the file, and zeros behind it if it may be written to.  The
bytes behind the file part come from two places: `memset` clears the rest of the last page of the file, and the pages
after it are fresh ones.  What one segment writes stays in its own pages (`loadSegment_frame`), so segments without a
common page do not disturb each other, in whichever order they come (`loadSegments_contents`). -/

namespace Bionic.Segments

open Pages
open ByteMemory (Mem fill)

/-! ### Writes -/

section Fill

variable {m : Mem} {a x : Word} {n : ℕ} {f : ℕ → BitVec 8}

theorem fill_inside (h1 : a.toNat ≤ x.toNat) (h2 : x.toNat < a.toNat + n) : fill m a n f x = f (x.toNat - a.toNat) := by
  have hsub : (x - a).toNat = x.toNat - a.toNat := BitVec.toNat_sub_of_le (BitVec.le_def.mpr h1)
  rw [fill, hsub, if_pos (by omega)]

theorem fill_outside (hn : a.toNat + n ≤ 2 ^ 32) (h : x.toNat < a.toNat ∨ a.toNat + n ≤ x.toNat) :
    fill m a n f x = m x := by
  have hx := x.isLt
  refine ByteMemory.fill_of_notMem fun hmem => ?_
  rw [ByteMemory.mem_range, BitVec.toNat_sub] at hmem
  omega

end Fill

/-! ### One segment -/

/-- The sums of a segment do not wrap, and its bytes stand at the same place of a page in the file as in memory. -/
structure Regular (base : Word) (ph : Phdr) : Prop where
  congruent : ph.pOffset.toNat % 4096 = ph.pVaddr.toNat % 4096
  sizes : ph.pFilesz.toNat ≤ ph.pMemsz.toNat
  no_wrap : base.toNat + ph.pVaddr.toNat + ph.pMemsz.toNat + 4095 < 2 ^ 32

/-- The pages of a segment, from the base on. -/
def pages (ph : Phdr) : Set ℕ := Set.Ico (down ph.pVaddr.toNat) (up (ph.pVaddr.toNat + ph.pMemsz.toNat))

/-- The byte `i` of the segment. -/
def byteAt (base : Word) (ph : Phdr) (i : ℕ) : Word := base + ph.pVaddr + BitVec.ofNat 32 i

/-- The contents of a segment. -/
structure Holds (base : Word) (file : ℕ → BitVec 8) (m : Mem) (ph : Phdr) : Prop where
  fromFile : ∀ i < ph.pFilesz.toNat, m (byteAt base ph i) = file (ph.pOffset.toNat + i)
  zeros : ph.pFlags &&& PF_W ≠ 0 → ∀ i, ph.pFilesz.toNat ≤ i → i < ph.pMemsz.toNat → m (byteAt base ph i) = 0

section OneSegment

variable {K : Kernel} {arm : Bool} {file : ℕ → BitVec 8} {ph : Phdr} {L L' : Loading} {base : Word}

theorem Regular.toNat_byteAt (h : Regular base ph) {i : ℕ} (hi : i < ph.pMemsz.toNat) :
    (byteAt base ph i).toNat = base.toNat + ph.pVaddr.toNat + i := by
  have := h.no_wrap
  rw [byteAt, BitVec.toNat_add, BitVec.toNat_add, BitVec.toNat_ofNat]
  omega

/-- The addresses that the step computes, when the file can be mapped. -/
structure Layout (base : Word) (ph : Phdr) : Prop where
  aligned : base.toNat % 4096 = 0
  start : (pbase base ph).toNat = base.toNat + down ph.pVaddr.toNat
  len : (fileLen ph).toNat = ph.pFilesz.toNat + ph.pVaddr.toNat % 4096
  extra : (extraBase base ph).toNat = base.toNat + up (ph.pVaddr.toNat + ph.pFilesz.toNat)
  top : (segTop base ph).toNat = base.toNat + ph.pVaddr.toNat + ph.pMemsz.toNat

theorem Regular.layout (h : Regular base ph) (hc : canMap (pbase base ph) (fileLen ph)) : Layout base ph := by
  have h1 := h.no_wrap
  have h2 := h.sizes
  have hd := down_le ph.pVaddr.toNat
  have hm := down_mod ph.pVaddr.toNat
  have hv := down_add_mod ph.pVaddr.toNat
  have hstart : (pbase base ph).toNat = base.toNat + down ph.pVaddr.toNat := by
    rw [toNat_pbase]
    omega
  have hlen : (fileLen ph).toNat = ph.pFilesz.toNat + ph.pVaddr.toNat % 4096 := by
    rw [toNat_fileLen]
    omega
  have halign : base.toNat % 4096 = 0 := by
    have := hc.1
    omega
  refine ⟨halign, hstart, hlen, ?_, ?_⟩
  · have hlt := hc.2.2
    rw [toNat_extraBase halign (by omega), Nat.add_assoc, down_add_up_fileLen hlen]
  · rw [segTop, BitVec.toNat_add, BitVec.toNat_add]
    omega

variable {s s' : Space} {x : Word}

/-- What is cleared ends where the extra pages start. -/
theorem Layout.rest (hl : Layout base ph) (h0 : (fileLen ph).toNat % 4096 ≠ 0) :
    base.toNat + ph.pVaddr.toNat + ph.pFilesz.toNat + (4096 - (fileLen ph).toNat % 4096) =
      (extraBase base ph).toNat := by
  have hv := down_add_mod ph.pVaddr.toNat
  have hlen := hl.len
  have hup := add_page_sub h0
  rw [hl.extra, ← down_add_up_fileLen hlen]
  omega

/-- The rest of the last page of the file part is cleared. -/
theorem zeroTail_mem (hl : Layout base ph) (hc : canMap (pbase base ph) (fileLen ph)) :
    (x.toNat < base.toNat + ph.pVaddr.toNat + ph.pFilesz.toNat ∨ (extraBase base ph).toNat ≤ x.toNat →
      (zeroTail base ph s).mem x = s.mem x) ∧
    (ph.pFlags &&& PF_W ≠ 0 → base.toNat + ph.pVaddr.toNat + ph.pFilesz.toNat ≤ x.toNat →
      x.toNat < (extraBase base ph).toNat → (zeroTail base ph s).mem x = 0) := by
  have hlen := hl.len
  have hv := down_add_mod ph.pVaddr.toNat
  have hx := x.isLt
  have hstop : (pbase base ph + fileLen ph).toNat = base.toNat + ph.pVaddr.toNat + ph.pFilesz.toNat := by
    have hlt := hc.2.2
    have hle := le_up (fileLen ph).toNat
    rw [hl.start] at hlt
    rw [toNat_fileStop (by omega), hlen]
    omega
  unfold zeroTail
  by_cases h : fileLen ph &&& PAGE_MASK ≠ 0 ∧ ph.pFlags &&& PF_W ≠ 0
  · rw [if_pos h]
    have hrest := hl.rest ((mask_ne_zero _).mp h.1)
    have hextra := (extraBase base ph).isLt
    constructor
    · intro hout
      simp only [memset0, toNat_page_sub]
      rw [fill_outside (by omega) (by omega)]
    · intro _ h1 h2
      simp only [memset0, toNat_page_sub]
      rw [fill_inside (by omega) (by omega)]
  · rw [if_neg h]
    refine ⟨fun _ => rfl, fun hw h1 h2 => ?_⟩
    have h0 : (fileLen ph).toNat % 4096 = 0 := by
      by_contra h0
      exact h ⟨(mask_ne_zero _).mpr h0, hw⟩
    rw [hl.extra, ← down_add_up_fileLen hlen, up_eq_self h0, hlen] at h2
    omega

/-- The extra pages are fresh. -/
theorem mapExtra_mem (hl : Layout base ph) (h : mapExtra base ph K s = some s') :
    (x.toNat < (extraBase base ph).toNat ∨ up (segTop base ph).toNat ≤ x.toNat → s'.mem x = s.mem x) ∧
      ((extraBase base ph).toNat ≤ x.toNat → x.toNat < (segTop base ph).toNat → s'.mem x = 0) := by
  have ha := hl.aligned
  have hu := up_mod (ph.pVaddr.toNat + ph.pFilesz.toNat)
  rcases mapExtra_some h with ⟨hlt, hcan, rfl⟩ | ⟨hlt, rfl⟩
  · have hend := (extra_end hlt (by rw [hl.extra]; omega)).2
    have hle := le_up (segTop base ph).toNat
    have hbound := hcan.2.2
    dsimp only
    refine ⟨fun hout => ?_, fun h1 h2 => ?_⟩
    · rw [fill_outside (by omega) (by omega)]
    · rw [fill_inside h1 (by omega)]
  · rw [BitVec.lt_def] at hlt
    exact ⟨fun _ => rfl, fun h1 h2 => absurd h2 (by omega)⟩

/-- After its step, a segment holds what it has to. -/
theorem loadSegment_holds (hr : Regular L.si.base ph) (h : loadSegment K file ph L = .ok L') :
    Holds L.si.base file L'.space.mem ph := by
  obtain ⟨s, s', hf, he, hmem, -⟩ := loadSegment_ok h
  obtain ⟨hcan, rfl⟩ := mapFile_some hf
  have hl := hr.layout hcan
  have hsizes := hr.sizes
  have hv := down_add_mod ph.pVaddr.toNat
  have hle := le_up (fileLen ph).toNat
  have hextra := hl.extra
  have htop := hl.top
  have hup := le_up (ph.pVaddr.toNat + ph.pFilesz.toNat)
  rw [hmem]
  constructor
  · intro i hi
    have hx := hr.toNat_byteAt (by omega : i < ph.pMemsz.toNat)
    rw [(mapExtra_mem hl he).1 (by omega), (zeroTail_mem hl hcan).1 (by omega)]
    simp only [fileMem]
    rw [fill_inside (by rw [hl.start]; omega) (by rw [hl.start, hl.len] at *; omega), toNat_trunc, hx, hl.start]
    have hoff := down_add_mod ph.pOffset.toNat
    have hcong := hr.congruent
    exact congrArg file (by omega)
  · intro hw i h1 h2
    have hx := hr.toNat_byteAt h2
    rcases Nat.lt_or_ge (byteAt L.si.base ph i).toNat (extraBase L.si.base ph).toNat with hlt | hge
    · rw [(mapExtra_mem hl he).1 (Or.inl hlt)]
      exact (zeroTail_mem hl hcan).2 hw (by omega) hlt
    · exact (mapExtra_mem hl he).2 hge (by omega)

/-- A step changes no byte outside of the pages of its segment. -/
theorem loadSegment_frame (hr : Regular L.si.base ph) (h : loadSegment K file ph L = .ok L') {n : ℕ}
    (hn : n ∉ pages ph) (hx : x.toNat = L.si.base.toNat + n) : L'.space.mem x = L.space.mem x := by
  obtain ⟨s, s', hf, he, hmem, -⟩ := loadSegment_ok h
  obtain ⟨hcan, rfl⟩ := mapFile_some hf
  have hl := hr.layout hcan
  have hsizes := hr.sizes
  have hlt := hcan.2.2
  have hv := down_add_mod ph.pVaddr.toNat
  have hextra := hl.extra
  have hstart := hl.start
  have hup := le_up (ph.pVaddr.toNat + ph.pFilesz.toNat)
  have hmono := up_mono (Nat.add_le_add_left hsizes ph.pVaddr.toNat)
  have htop : up (segTop L.si.base ph).toNat = L.si.base.toNat + up (ph.pVaddr.toNat + ph.pMemsz.toNat) := by
    rw [hl.top, Nat.add_assoc, add_up hl.aligned]
  have hend := down_add_up_fileLen hl.len
  have hout : n < down ph.pVaddr.toNat ∨ up (ph.pVaddr.toNat + ph.pMemsz.toNat) ≤ n := by
    rw [pages, Set.mem_Ico, not_and_or, Nat.not_le, Nat.not_lt] at hn
    exact hn
  have hdown := down_le ph.pVaddr.toNat
  rw [hmem, (mapExtra_mem hl he).1 (by omega), (zeroTail_mem hl hcan).1 (by omega)]
  dsimp only [fileMem]
  rw [fill_outside (by omega) (by omega)]

end OneSegment

/-! ### The whole library -/

section Library

variable {K : Kernel} {arm : Bool} {file : ℕ → BitVec 8} {phdrs : List Phdr} {L L' : Loading} {x : Word} {n : ℕ}

theorem loadPhdr_frame {ph : Phdr} (hr : ph.pType = PT_LOAD → Regular L.si.base ph)
    (h : loadPhdr K arm file ph L = .ok L') (hn : ph.pType = PT_LOAD → n ∉ pages ph)
    (hx : x.toNat = L.si.base.toNat + n) : L'.space.mem x = L.space.mem x := by
  by_cases hp : ph.pType = PT_LOAD
  · rw [loadPhdr_load hp] at h
    exact loadSegment_frame (hr hp) h (hn hp) hx
  · obtain ⟨L₁, hl, hs, -⟩ := loadPhdr_other K arm file L hp
    obtain rfl := Except.ok.inj (h.symm.trans hl)
    rw [hs]

theorem loadPhdrs_frame (hr : ∀ ph ∈ phdrs, ph.pType = PT_LOAD → Regular L.si.base ph)
    (h : loadPhdrs K arm file phdrs L = .ok L') (hn : ∀ ph ∈ phdrs, ph.pType = PT_LOAD → n ∉ pages ph)
    (hx : x.toNat = L.si.base.toNat + n) : L'.space.mem x = L.space.mem x := by
  induction phdrs generalizing L with
  | nil =>
    cases h
    rfl
  | cons ph phdrs ih =>
    rw [List.forall_mem_cons] at hr hn
    obtain ⟨L₁, hstep, hrest⟩ := loadPhdrs_cons_eq_ok h
    have hbase := loadPhdr_base hstep
    rw [← loadPhdr_frame hr.1 hstep hn.1 hx]
    apply ih _ hrest hn.2
    · rw [hbase]
      exact hx
    · rw [hbase]
      exact hr.2

/-- The contents stand as long as the pages of the segment are left alone. -/
theorem Holds.congr {base : Word} {m m' : Mem} {ph : Phdr} (hr : Regular base ph) (h : Holds base file m ph)
    (hm : ∀ (x : Word) (n : ℕ), n ∈ pages ph → x.toNat = base.toNat + n → m' x = m x) : Holds base file m' ph := by
  have hsame : ∀ i < ph.pMemsz.toNat, m' (byteAt base ph i) = m (byteAt base ph i) := fun i hi => by
    have hd := down_le ph.pVaddr.toNat
    have hu := le_up (ph.pVaddr.toNat + ph.pMemsz.toNat)
    refine hm _ (ph.pVaddr.toNat + i) (Set.mem_Ico.mpr ⟨by omega, by omega⟩) ?_
    rw [hr.toNat_byteAt hi, Nat.add_assoc]
  have hsizes := hr.sizes
  exact ⟨fun i hi => (hsame i (by omega)).trans (h.fromFile i hi),
    fun hw i h1 h2 => (hsame i h2).trans (h.zeros hw i h1 h2)⟩

theorem loadPhdrs_holds (hr : ∀ ph ∈ phdrs, ph.pType = PT_LOAD → Regular L.si.base ph)
    (hd : phdrs.Pairwise fun p q => p.pType = PT_LOAD → q.pType = PT_LOAD → Disjoint (pages p) (pages q))
    (h : loadPhdrs K arm file phdrs L = .ok L') :
    ∀ ph ∈ phdrs, ph.pType = PT_LOAD → Holds L.si.base file L'.space.mem ph := by
  induction phdrs generalizing L with
  | nil => exact fun ph hph => absurd hph (by simp)
  | cons ph phdrs ih =>
    rw [List.forall_mem_cons] at hr
    rw [List.pairwise_cons] at hd
    obtain ⟨L₁, hstep, hrest⟩ := loadPhdrs_cons_eq_ok h
    have hbase := loadPhdr_base hstep
    have hr' : ∀ q ∈ phdrs, q.pType = PT_LOAD → Regular L₁.si.base q := by
      rw [hbase]
      exact hr.2
    have htail := ih hr' hd.2 hrest
    rw [hbase] at htail
    refine List.forall_mem_cons.mpr ⟨fun hp => ?_, htail⟩
    rw [loadPhdr_load hp] at hstep
    refine (loadSegment_holds (hr.1 hp) hstep).congr (hr.1 hp) fun x n hn hx => ?_
    apply loadPhdrs_frame hr' hrest
    · exact fun q hq hqp hnq => Set.disjoint_left.mp (hd.1 q hq hp hqp) hn hnq
    · rw [hbase]
      exact hx

end Library

/-- **Contents.**  When `load_segments` has returned 0, each segment holds its part of the file, and zeros behind it if
it may be written to. -/
theorem loadSegments_contents (K : Kernel) (arm : Bool) (file : ℕ → BitVec 8) (phdrs : List Phdr) (si : Soinfo) (s : Space)
    (hr : ∀ ph ∈ phdrs, ph.pType = PT_LOAD → Regular si.base ph)
    (hd : phdrs.Pairwise fun p q => p.pType = PT_LOAD → q.pType = PT_LOAD → Disjoint (pages p) (pages q))
    (h : (loadSegments K arm file phdrs si s).1 = 0) :
    ∀ ph ∈ phdrs, ph.pType = PT_LOAD → Holds si.base file (loadSegments K arm file phdrs si s).2.2.mem ph := by
  obtain ⟨L, hl, heq⟩ := loadSegments_ok h
  rw [heq]
  exact loadPhdrs_holds hr hd hl

/-- A text segment, and a data segment whose zeros begin inside of a page and go on behind it. -/
def textSegment : Phdr := ⟨PT_LOAD, 0, 0, 0x1800, 0x1800, PF_R ||| PF_X⟩

def dataSegment : Phdr := ⟨PT_LOAD, 0x1800, 0x2800, 0x100, 0x2000, PF_R ||| PF_W⟩

/-- The two of them, loaded at 0x80000000 from a file whose bytes count upwards. -/
def loadTwo : ℤ × Soinfo × Space :=
  loadSegments (fun _ => true) true (fun i => BitVec.ofNat 8 i) [textSegment, dataSegment]
    ⟨0x80000000, 0x5000, 0, 0, 0, 0, 0, 0⟩ ⟨fun _ => 0, []⟩

theorem loadSegments_contents_two :
    Holds 0x80000000 (fun i => BitVec.ofNat 8 i) loadTwo.2.2.mem textSegment ∧
      Holds 0x80000000 (fun i => BitVec.ofNat 8 i) loadTwo.2.2.mem dataSegment := by
  have hpages : Disjoint (pages textSegment) (pages dataSegment) := by
    have htext : pages textSegment = Set.Ico 0 0x2000 := rfl
    have hdata : pages dataSegment = Set.Ico 0x2000 0x5000 := rfl
    rw [htext, hdata, Set.disjoint_left]
    simp only [Set.mem_Ico]
    omega
  have hregular : ∀ ph ∈ [textSegment, dataSegment], ph.pType = PT_LOAD → Regular 0x80000000 ph := by
    intro ph hph _
    obtain rfl | rfl : ph = textSegment ∨ ph = dataSegment := by simpa using hph
    · exact ⟨by decide, by decide, by decide⟩
    · exact ⟨by decide, by decide, by decide⟩
  have hload : loadTwo.1 = 0 := by decide
  have hall := loadSegments_contents _ _ _ _ ⟨0x80000000, 0x5000, 0, 0, 0, 0, 0, 0⟩ _ hregular
    (List.pairwise_pair.mpr fun _ _ => hpages) hload
  constructor
  · exact hall textSegment (by simp) rfl
  · exact hall dataSegment (by simp) rfl

end Bionic.Segments
