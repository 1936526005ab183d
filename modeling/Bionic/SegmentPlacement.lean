import Bionic.LoadSegments
import Bionic.BaSizing

/-! # Where the segments of a library are mapped

The room that is reserved for a library is as long as the way from the page of its lowest `p_vaddr` to the page end of
its highest `p_vaddr + p_memsz`, but `load_segments` maps each segment at its `p_vaddr` behind the base of that room,
and as far as `p_filesz` says.

* **In general**, the pages lie inside the room if and only if each segment that is reached ends inside, with its file
  part as well as with its `p_memsz` (`Confined`).
* **For well-formed headers**, they do if and only if the lowest segment starts in page 0 (`placed_iff`). -/

namespace Bionic.Segments

open Pages
open ByteMemory (Mem)

/-! ### Reserved ranges -/

/-- `alloc_mem_region` with the index that `ba_allocate` returns, in any state of the buddy allocator. -/
def Reserved (a : Ba.Arch) (base size : Word) : Prop :=
  ∃ s i ba, Ba.Inv s ∧ Ba.baAllocate size.toNat s.ba = (some i, ba) ∧ base.toNat = Ba.baStartAddr a i

/-- What is known of a reserved range. -/
structure Room (base size : Word) : Prop where
  aligned : base.toNat % 4096 = 0
  whole : size.toNat % 4096 = 0
  below : base.toNat + size.toNat < 2 ^ 32

theorem Reserved.bounds {a : Ba.Arch} {base size : Word} (h : Reserved a base size) :
    base.toNat % 4096 = 0 ∧ base.toNat + size.toNat ≤ Ba.LIBLAST a := by
  obtain ⟨⟨s, l⟩, i, ba, ⟨t, ht⟩, hr, hbase⟩ := h
  obtain ⟨r, ba', heq, -, -, ⟨rfl, -⟩ | ⟨j, t', rfl, hholds, -⟩⟩ := Ba.allocate_holds ht size.toNat
  · rw [hr] at heq
    cases heq
  · rw [hr] at heq
    cases heq
    obtain ⟨h8, ho⟩ := Ba.baAllocate_order ht.rep hr
    have hsized := Ba.sized_of_order size.isLt h8 ho
    obtain ⟨k, hk⟩ := hsized.power
    have hpos : 0 < Ba.baLen ba i := by
      rw [hk]
      exact Nat.mul_pos (Nat.two_pow_pos k) (by decide)
    have henough := hsized.enough
    obtain ⟨b, hb, -, rfl⟩ := (hholds.live i).mp List.mem_cons_self
    have hsub : Ba.addrRange a ba b.start ⊆ _ := hholds.rep.addrRange_subset a hb
    rw [Ba.addrRange, Set.Ico_subset_Ico_iff (by omega)] at hsub
    refine ⟨?_, by omega⟩
    rw [hbase, Ba.baStartAddr]
    unfold Ba.LIBINC
    cases a <;> simp only [Ba.LIBBASE] <;> omega

theorem getLibExtents_some {em : BitVec 16} {hdr : Header} {trailer : Option (Word × List Char)} {req size : Word}
    (h : getLibExtents em hdr trailer = some (req, size)) :
    size = round (hdr.phdrs.foldl extend (0, 0xffffffff)).1 - trunc (hdr.phdrs.foldl extend (0, 0xffffffff)).2 ∧
      ¬ ((hdr.phdrs.foldl extend (0, 0xffffffff)).2 = 0xffffffff ∧
        (hdr.phdrs.foldl extend (0, 0xffffffff)).1 = 0) := by
  unfold getLibExtents at h
  split at h
  · cases h
  · split at h
    · cases h
    · dsimp only at h
      split at h
      · cases h
      · cases h
        exact ⟨rfl, ‹_›⟩

theorem room_of_reserved {a : Ba.Arch} {em : BitVec 16} {hdr : Header} {trailer : Option (Word × List Char)}
    {req base size : Word} (h : getLibExtents em hdr trailer = some (req, size)) (hr : Reserved a base size) :
    Room base size := by
  obtain ⟨hb, hle⟩ := hr.bounds
  have hlast : Ba.LIBLAST a < 2 ^ 32 := by cases a <;> decide
  refine ⟨hb, ?_, by omega⟩
  rw [(getLibExtents_some h).1, BitVec.toNat_sub, toNat_trunc, toNat_round_mod]
  unfold down
  omega

/-! ### The mappings -/

/-- The pages of a mapping lie in the reserved range. -/
def Call.Inside (base size : Word) : Call → Prop
  | .mmap addr len _ => base.toNat ≤ addr.toNat ∧ addr.toNat + up len.toNat ≤ base.toNat + size.toNat
  | _ => True

/-- The page end of the file part, from the base on. -/
def fileEnd (ph : Phdr) : ℕ := down ph.pVaddr.toNat + up (fileLen ph).toNat

/-- Every segment that is reached ends in the reserved range.  The loop stops where the kernel must refuse a mapping:
the one of the file, or the extra pages that would end at the end of the address space. -/
def Confined (base size : Word) : List Phdr → Prop
  | [] => True
  | ph :: phdrs =>
    if ph.pType = PT_LOAD then
      canMap (pbase base ph) (fileLen ph) → fileEnd ph ≤ size.toNat ∧
        (up (segTop base ph).toNat < 2 ^ 32 →
          (segTop base ph).toNat ≤ base.toNat + size.toNat ∧ Confined base size phdrs)
    else Confined base size phdrs

section Mappings

variable {base size : Word} {ph : Phdr}

theorem inside_fileCall (hr : Room base size) (hc : canMap (pbase base ph) (fileLen ph)) :
    (fileCall base ph).Inside base size ↔ fileEnd ph ≤ size.toNat := by
  obtain ⟨ha, hpos, hlt⟩ := hc
  have hup := up_pos hpos
  have hs := hr.below
  have hv := ph.pVaddr.isLt
  have hd := down_le ph.pVaddr.toNat
  rw [toNat_pbase] at hlt
  simp only [fileCall, Call.Inside, toNat_pbase, fileEnd]
  omega

theorem extraBase_inside (hr : Room base size) (hf : fileEnd ph ≤ size.toNat) :
    (extraBase base ph).toNat = base.toNat + fileEnd ph := by
  have hs := hr.below
  unfold fileEnd at hf
  rw [toNat_extraBase hr.aligned (by omega), fileEnd, Nat.add_assoc]

theorem extraBase_aligned (hr : Room base size) (hf : fileEnd ph ≤ size.toNat) :
    (extraBase base ph).toNat % 4096 = 0 := by
  have ha := hr.aligned
  have hd := down_mod ph.pVaddr.toNat
  have hu := up_mod (fileLen ph).toNat
  rw [extraBase_inside hr hf, fileEnd]
  omega

theorem canMap_extra (hr : Room base size) (hf : fileEnd ph ≤ size.toNat)
    (he : extraBase base ph < segTop base ph) :
    canMap (extraBase base ph) (segTop base ph - extraBase base ph) ↔ up (segTop base ph).toNat < 2 ^ 32 := by
  have ha := extraBase_aligned hr hf
  obtain ⟨hpos, hend⟩ := extra_end he ha
  rw [canMap, hend]
  exact ⟨fun h => h.2.2, fun h => ⟨ha, hpos, h⟩⟩

theorem inside_extraCall (hr : Room base size) (hf : fileEnd ph ≤ size.toNat)
    (he : extraBase base ph < segTop base ph) :
    (extraCall base ph).Inside base size ↔ (segTop base ph).toNat ≤ base.toNat + size.toNat := by
  obtain ⟨hpos, hend⟩ := extra_end he (extraBase_aligned hr hf)
  have hb := extraBase_inside hr hf
  have ha := hr.aligned
  have hw := hr.whole
  simp only [extraCall, Call.Inside, hend]
  constructor
  · exact fun h => Nat.le_trans (le_up _) h.2
  · exact fun h => ⟨by omega, up_le h (by omega)⟩

/-- Without extra pages the segment ends with its file part. -/
theorem segTop_of_not_extra (hr : Room base size) (hf : fileEnd ph ≤ size.toNat)
    (he : ¬ extraBase base ph < segTop base ph) :
    (segTop base ph).toNat ≤ base.toNat + size.toNat ∧ up (segTop base ph).toNat < 2 ^ 32 := by
  have hb := extraBase_inside hr hf
  have ha := hr.aligned
  have hw := hr.whole
  have hs := hr.below
  rw [BitVec.lt_def] at he
  have hle : (segTop base ph).toNat ≤ base.toNat + size.toNat := by omega
  have hup := up_le hle (by omega)
  exact ⟨hle, by omega⟩

end Mappings

/-! ### Runs -/

/-- The variables of the loop where it ends or is left. -/
def final : Except Loading Loading → Loading
  | .ok L => L
  | .error L => L

section Runs

variable {K : Kernel} {arm : Bool} {file : ℕ → BitVec 8} {base size : Word} {ph : Phdr} {phdrs : List Phdr}
  {L L' : Loading}

/-- The calls of a segment stay in the list. -/
theorem calls_mapFile {s : Space} (hf : mapFile L.si.base ph K file L.space = some s) :
    ∀ c ∈ s.calls, c ∈ (final (loadSegment K file ph L)).space.calls := by
  intro c hc
  cases h : loadSegment K file ph L with
  | error L' =>
    rcases loadSegment_error h with ⟨hf', -⟩ | ⟨s', hf', -, rfl⟩
    · cases hf.symm.trans hf'
    · cases hf.symm.trans hf'
      simpa only [final, zeroTail_calls] using hc
  | ok L' =>
    obtain ⟨s₁, s', hf', he, -, -, hcalls⟩ := loadSegment_ok h
    cases hf.symm.trans hf'
    have hs' : c ∈ s'.calls := by
      rcases mapExtra_some he with ⟨-, -, rfl⟩ | ⟨-, rfl⟩
      · simp only [zeroTail_calls]
        exact List.mem_cons_of_mem _ hc
      · rwa [zeroTail_calls]
    rcases hcalls with hcalls | ⟨_, _, _, hcalls⟩
    · simpa only [final, hcalls] using hs'
    · simpa only [final, hcalls] using List.mem_cons_of_mem _ hs'

theorem calls_mapExtra {s s' : Space} (hf : mapFile L.si.base ph K file L.space = some s)
    (he : mapExtra L.si.base ph K (zeroTail L.si.base ph s) = some s') :
    ∀ c ∈ s'.calls, c ∈ (final (loadSegment K file ph L)).space.calls := by
  intro c hc
  obtain ⟨L', h⟩ := loadSegment_of_some hf he
  obtain ⟨s₁, s₂, hf', he', -, -, hcalls⟩ := loadSegment_ok h
  cases hf.symm.trans hf'
  cases he.symm.trans he'
  rw [h, final]
  rcases hcalls with hcalls | ⟨_, _, _, hcalls⟩
  · rwa [hcalls]
  · rw [hcalls]
    exact List.mem_cons_of_mem _ hc

theorem calls_loadSegment : ∀ c ∈ L.space.calls, c ∈ (final (loadSegment K file ph L)).space.calls := by
  intro c hc
  cases hf : mapFile L.si.base ph K file L.space with
  | none =>
    have h : loadSegment K file ph L = .error L := by
      unfold loadSegment
      dsimp only
      rw [hf]
    rwa [h, final]
  | some s =>
    apply calls_mapFile hf c
    obtain ⟨-, rfl⟩ := mapFile_some hf
    exact List.mem_cons_of_mem _ hc

/-- What holds behind the first step, and goes through the rest, holds at the end. -/
theorem final_cons {P : Loading → Prop} (hstep : P (final (loadPhdr K arm file ph L)))
    (hrest : ∀ L', loadPhdr K arm file ph L = .ok L' → P L' → P (final (loadPhdrs K arm file phdrs L'))) :
    P (final (loadPhdrs K arm file (ph :: phdrs) L)) := by
  cases h : loadPhdr K arm file ph L with
  | error L' =>
    rw [loadPhdrs_cons_error h]
    rwa [h] at hstep
  | ok L' =>
    rw [loadPhdrs_cons_ok h]
    rw [h] at hstep
    exact hrest L' h hstep

theorem calls_loadPhdr : ∀ c ∈ L.space.calls, c ∈ (final (loadPhdr K arm file ph L)).space.calls := by
  by_cases hp : ph.pType = PT_LOAD
  · rw [loadPhdr_load hp]
    exact calls_loadSegment
  · obtain ⟨L', hl, hs, -⟩ := loadPhdr_other K arm file L hp
    rw [hl, final, hs]
    exact fun c hc => hc

theorem calls_loadPhdrs : ∀ c ∈ L.space.calls, c ∈ (final (loadPhdrs K arm file phdrs L)).space.calls := by
  induction phdrs generalizing L with
  | nil => exact fun c hc => hc
  | cons ph phdrs ih =>
    intro c hc
    apply final_cons (P := fun L => c ∈ L.space.calls)
    · exact calls_loadPhdr c hc
    · exact fun L' _ hc' => ih c hc'

/-- What one segment maps lies inside if the segment ends inside. -/
theorem inside_loadSegment (hr : Room base size) (hb : L.si.base = base)
    (hin : ∀ c ∈ L.space.calls, c.Inside base size)
    (hc : canMap (pbase base ph) (fileLen ph) → fileEnd ph ≤ size.toNat ∧
      (up (segTop base ph).toNat < 2 ^ 32 → (segTop base ph).toNat ≤ base.toNat + size.toNat)) :
    ∀ c ∈ (final (loadSegment K file ph L)).space.calls, c.Inside base size := by
  subst hb
  have hfile : ∀ s, mapFile L.si.base ph K file L.space = some s →
      fileEnd ph ≤ size.toNat ∧ ∀ c ∈ s.calls, c.Inside L.si.base size := fun s hf => by
    obtain ⟨hcan, rfl⟩ := mapFile_some hf
    refine ⟨(hc hcan).1, fun c hmem => ?_⟩
    rcases List.mem_cons.mp hmem with rfl | hmem
    · exact (inside_fileCall hr hcan).mpr (hc hcan).1
    · exact hin c hmem
  cases h : loadSegment K file ph L with
  | error L' =>
    rcases loadSegment_error h with ⟨-, rfl⟩ | ⟨s, hf, -, rfl⟩
    · exact hin
    · simp only [final, zeroTail_calls]
      exact (hfile s hf).2
  | ok L' =>
    obtain ⟨s, s', hf, he, -, -, hcalls⟩ := loadSegment_ok h
    obtain ⟨hend, hs⟩ := hfile s hf
    have hs' : ∀ c ∈ s'.calls, c.Inside L.si.base size := by
      rcases mapExtra_some he with ⟨hlt, hcan, rfl⟩ | ⟨-, rfl⟩
      · have htop := (hc (mapFile_some hf).1).2 ((canMap_extra hr hend hlt).mp hcan)
        simp only [zeroTail_calls, List.mem_cons, forall_eq_or_imp]
        exact ⟨(inside_extraCall hr hend hlt).mpr htop, hs⟩
      · rwa [zeroTail_calls]
    rcases hcalls with hcalls | ⟨_, _, _, hcalls⟩
    · simpa only [final, hcalls] using hs'
    · simp only [final, hcalls, List.mem_cons, forall_eq_or_imp]
      exact ⟨trivial, hs'⟩

/-- A segment that is loaded ends below the end of the address space. -/
theorem segTop_of_ok (hr : Room L.si.base size) (hend : fileEnd ph ≤ size.toNat)
    (h : loadSegment K file ph L = .ok L') : up (segTop L.si.base ph).toNat < 2 ^ 32 := by
  obtain ⟨s, s', -, he, -⟩ := loadSegment_ok h
  rcases mapExtra_some he with ⟨hlt, hcan, -⟩ | ⟨hlt, -⟩
  · exact (canMap_extra hr hend hlt).mp hcan
  · exact (segTop_of_not_extra hr hend hlt).2

theorem inside_loadPhdrs (hr : Room base size) (hb : L.si.base = base)
    (hin : ∀ c ∈ L.space.calls, c.Inside base size) (hc : Confined base size phdrs) :
    ∀ c ∈ (final (loadPhdrs K arm file phdrs L)).space.calls, c.Inside base size := by
  induction phdrs generalizing L with
  | nil => exact hin
  | cons ph phdrs ih =>
    rw [Confined] at hc
    apply final_cons (P := fun L => ∀ c ∈ L.space.calls, c.Inside base size)
    · by_cases hp : ph.pType = PT_LOAD
      · rw [if_pos hp] at hc
        rw [loadPhdr_load hp]
        exact inside_loadSegment hr hb hin fun hcan => ⟨(hc hcan).1, fun htop => ((hc hcan).2 htop).1⟩
      · obtain ⟨L', hl, hs, -⟩ := loadPhdr_other K arm file L hp
        rwa [hl, final, hs]
    · intro L' h hin'
      have hb' := (loadPhdr_base h).trans hb
      by_cases hp : ph.pType = PT_LOAD
      · rw [if_pos hp] at hc
        rw [loadPhdr_load hp] at h
        obtain ⟨s, -, hf, -⟩ := loadSegment_ok h
        subst hb
        obtain ⟨hend, hrest⟩ := hc (mapFile_some hf).1
        exact ih hb' hin' (hrest (segTop_of_ok hr hend h)).2
      · rw [if_neg hp] at hc
        exact ih hb' hin' hc

/-- A kernel that grants whatever it can shows every segment that ends outside. -/
theorem confined_of_inside (hr : Room base size) (hb : L.si.base = base)
    (hin : ∀ c ∈ (final (loadPhdrs (fun _ => true) arm file phdrs L)).space.calls, c.Inside base size) :
    Confined base size phdrs := by
  induction phdrs generalizing L with
  | nil => trivial
  | cons ph phdrs ih =>
    rw [Confined]
    by_cases hp : ph.pType = PT_LOAD
    · rw [if_pos hp]
      subst hb
      intro hcan
      obtain ⟨s, hf, hmem⟩ := mapFile_of_canMap (K := fun _ => true) (s := L.space) file hcan rfl
      have hlater : ∀ c ∈ (final (loadSegment (fun _ => true) file ph L)).space.calls, c.Inside L.si.base size := by
        intro c hc
        apply hin
        apply final_cons (P := fun L => c ∈ L.space.calls)
        · rwa [loadPhdr_load hp]
        · exact fun L' _ hc' => calls_loadPhdrs c hc'
      have hend := (inside_fileCall hr hcan).mp (hlater _ (calls_mapFile hf _ hmem))
      refine ⟨hend, fun htop => ?_⟩
      have hext : ∃ s', mapExtra L.si.base ph (fun _ => true) (zeroTail L.si.base ph s) = some s' ∧
          (segTop L.si.base ph).toNat ≤ L.si.base.toNat + size.toNat := by
        by_cases hlt : extraBase L.si.base ph < segTop L.si.base ph
        · obtain ⟨s', he, hmem'⟩ := mapExtra_of_canMap (K := fun _ => true) (s := zeroTail L.si.base ph s) hlt
            ((canMap_extra hr hend hlt).mpr htop) rfl
          exact ⟨s', he, (inside_extraCall hr hend hlt).mp (hlater _ (calls_mapExtra hf he _ hmem'))⟩
        · exact ⟨_, if_neg hlt, (segTop_of_not_extra hr hend hlt).1⟩
      obtain ⟨s', he, hle⟩ := hext
      obtain ⟨L', h⟩ := loadSegment_of_some hf he
      rw [loadPhdrs_cons_ok ((loadPhdr_load hp).trans h)] at hin
      exact ⟨hle, ih (loadSegment_base h) hin⟩
    · obtain ⟨L', hl, -, hbase, -⟩ := loadPhdr_other (fun _ => true) arm file L hp
      rw [if_neg hp]
      rw [loadPhdrs_cons_ok hl] at hin
      exact ih (hbase.trans hb) hin

end Runs

/-! ### Placement -/

/-- Every page that `load_segments` maps in a fixed place lies in the range reserved for the library, whatever the
kernel grants and whatever the file holds. -/
def Placed (base size : Word) (phdrs : List Phdr) : Prop :=
  ∀ (K : Kernel) (arm : Bool) (file : ℕ → BitVec 8) (si : Soinfo) (m : Mem), si.base = base → si.size = size →
    ∀ c ∈ (loadSegments K arm file phdrs si ⟨m, []⟩).2.2.calls, c.Inside base size

/-- Segments whose sizes and ends are what the format promises, and that are not refused for an empty file part. -/
structure WellFormed (base : Word) (ph : Phdr) : Prop where
  sizes : ph.pFilesz.toNat ≤ ph.pMemsz.toNat
  nonempty : 0 < ph.pFilesz.toNat + ph.pVaddr.toNat % 4096
  no_wrap : base.toNat + ph.pVaddr.toNat + ph.pMemsz.toNat + 4095 < 2 ^ 32

/-- What the loop of `get_lib_extents` makes of `m`. -/
structure Extents (phdrs : List Phdr) (m r : Word × Word) : Prop where
  ends : ∀ ph ∈ phdrs, ph.pType = PT_LOAD → (ph.pVaddr + ph.pMemsz).toNat ≤ r.1.toNat
  starts : ∀ ph ∈ phdrs, ph.pType = PT_LOAD → r.2.toNat ≤ ph.pVaddr.toNat
  grows : m.1.toNat ≤ r.1.toNat
  falls : r.2.toNat ≤ m.2.toNat
  last : r.1 = m.1 ∨ ∃ ph ∈ phdrs, ph.pType = PT_LOAD ∧ r.1 = ph.pVaddr + ph.pMemsz
  first : r.2 = m.2 ∨ ∃ ph ∈ phdrs, ph.pType = PT_LOAD ∧ r.2 = ph.pVaddr

section Placement

variable {base size : Word} {ph : Phdr} {phdrs : List Phdr} {m r : Word × Word}

theorem extend_load (hp : ph.pType = PT_LOAD) (m : Word × Word) :
    ((ph.pVaddr + ph.pMemsz).toNat ≤ (extend m ph).1.toNat ∧ (extend m ph).2.toNat ≤ ph.pVaddr.toNat) ∧
      (m.1.toNat ≤ (extend m ph).1.toNat ∧ (extend m ph).2.toNat ≤ m.2.toNat) ∧
      ((extend m ph).1 = m.1 ∨ (extend m ph).1 = ph.pVaddr + ph.pMemsz) ∧
      ((extend m ph).2 = m.2 ∨ (extend m ph).2 = ph.pVaddr) := by
  rw [extend, if_pos hp]
  simp only [BitVec.lt_def]
  refine ⟨⟨?_, ?_⟩, ⟨?_, ?_⟩, ?_, ?_⟩
  · split <;> omega
  · split <;> omega
  · split <;> omega
  · split <;> omega
  · split
    · exact Or.inr rfl
    · exact Or.inl rfl
  · split
    · exact Or.inr rfl
    · exact Or.inl rfl

theorem foldl_extend (phdrs : List Phdr) (m : Word × Word) : Extents phdrs m (phdrs.foldl extend m) := by
  induction phdrs generalizing m with
  | nil => exact ⟨by simp, by simp, Nat.le_refl _, Nat.le_refl _, Or.inl rfl, Or.inl rfl⟩
  | cons ph phdrs ih =>
    rw [List.foldl_cons]
    obtain ⟨hends, hstarts, hgrows, hfalls, hlast, hfirst⟩ := ih (extend m ph)
    have hlater : ∀ {p : Phdr → Prop}, (∃ q ∈ phdrs, q.pType = PT_LOAD ∧ p q) →
        ∃ q ∈ ph :: phdrs, q.pType = PT_LOAD ∧ p q := fun ⟨q, hq, h⟩ => ⟨q, List.mem_cons_of_mem _ hq, h⟩
    by_cases hp : ph.pType = PT_LOAD
    · obtain ⟨⟨he, hs⟩, ⟨hg, hf⟩, hl, hfi⟩ := extend_load hp m
      have hhere : ∀ {p : Phdr → Prop}, p ph → ∃ q ∈ ph :: phdrs, q.pType = PT_LOAD ∧ p q :=
        fun h => ⟨ph, List.mem_cons_self, hp, h⟩
      refine ⟨fun q hq hqp => ?_, fun q hq hqp => ?_, by omega, by omega, ?_, ?_⟩
      · rcases List.mem_cons.mp hq with rfl | hq
        · omega
        · exact hends q hq hqp
      · rcases List.mem_cons.mp hq with rfl | hq
        · omega
        · exact hstarts q hq hqp
      · rcases hlast with h | h
        · exact hl.imp h.trans fun hv => hhere (h.trans hv)
        · exact Or.inr (hlater h)
      · rcases hfirst with h | h
        · exact hfi.imp h.trans fun hv => hhere (h.trans hv)
        · exact Or.inr (hlater h)
    · have hext : extend m ph = m := if_neg hp
      rw [hext] at hends hstarts hgrows hfalls hlast hfirst ⊢
      refine ⟨fun q hq hqp => ?_, fun q hq hqp => ?_, hgrows, hfalls, hlast.imp_right hlater, hfirst.imp_right hlater⟩
      · rcases List.mem_cons.mp hq with rfl | hq
        · exact absurd hqp hp
        · exact hends q hq hqp
      · rcases List.mem_cons.mp hq with rfl | hq
        · exact absurd hqp hp
        · exact hstarts q hq hqp

/-- In an accepted header both ends are the ones of some segment. -/
theorem Extents.attained (h : Extents phdrs (0, 0xffffffff) r) (ha : ¬ (r.2 = 0xffffffff ∧ r.1 = 0)) :
    (∃ ph ∈ phdrs, ph.pType = PT_LOAD ∧ r.1 = ph.pVaddr + ph.pMemsz) ∧
      ∃ ph ∈ phdrs, ph.pType = PT_LOAD ∧ r.2 = ph.pVaddr := by
  have hone : ∃ ph ∈ phdrs, ph.pType = PT_LOAD := by
    rcases h.last with h1 | ⟨q, hq, hp, -⟩
    · rcases h.first with h2 | ⟨q, hq, hp, -⟩
      · exact absurd ⟨h2, h1⟩ ha
      · exact ⟨q, hq, hp⟩
    · exact ⟨q, hq, hp⟩
  obtain ⟨ph, hph, hp⟩ := hone
  have he := h.ends ph hph hp
  have hs := h.starts ph hph hp
  constructor
  · rcases h.last with h1 | h1
    · refine ⟨ph, hph, hp, BitVec.eq_of_toNat_eq ?_⟩
      have h0 : r.1.toNat = 0 := by rw [h1]; rfl
      omega
    · exact h1
  · rcases h.first with h2 | h2
    · refine ⟨ph, hph, hp, BitVec.eq_of_toNat_eq ?_⟩
      have h0 : r.2.toNat = 0xffffffff := by rw [h2]; rfl
      have hv := ph.pVaddr.isLt
      omega
    · exact h2

/-! For well-formed segments no sum wraps, and no mapping is refused. -/

variable (hw : WellFormed base ph)

include hw

theorem WellFormed.toNat_end : (ph.pVaddr + ph.pMemsz).toNat = ph.pVaddr.toNat + ph.pMemsz.toNat := by
  have := hw.no_wrap
  rw [BitVec.toNat_add]
  omega

theorem WellFormed.toNat_segTop : (segTop base ph).toNat = base.toNat + ph.pVaddr.toNat + ph.pMemsz.toNat := by
  have := hw.no_wrap
  rw [segTop, BitVec.toNat_add, BitVec.toNat_add]
  omega

theorem WellFormed.fileEnd_eq : fileEnd ph = up (ph.pVaddr.toNat + ph.pFilesz.toNat) := by
  have h1 := hw.no_wrap
  have h2 := hw.sizes
  have hv := down_add_mod ph.pVaddr.toNat
  apply down_add_up_fileLen
  rw [toNat_fileLen]
  omega

theorem WellFormed.canMap (hb : base.toNat % 4096 = 0) : canMap (pbase base ph) (fileLen ph) := by
  have h1 := hw.no_wrap
  have h2 := hw.sizes
  have h3 := hw.nonempty
  have hd := down_le ph.pVaddr.toNat
  have hm := down_mod ph.pVaddr.toNat
  have hfe := hw.fileEnd_eq
  rw [fileEnd] at hfe
  have hup : up (ph.pVaddr.toNat + ph.pFilesz.toNat) ≤ ph.pVaddr.toNat + ph.pMemsz.toNat + 4095 := by
    unfold up
    omega
  have hp : (pbase base ph).toNat = base.toNat + down ph.pVaddr.toNat := by
    rw [toNat_pbase]
    omega
  refine ⟨by omega, ?_, by omega⟩
  rw [toNat_fileLen]
  omega

theorem WellFormed.segTop_lt : up (segTop base ph).toNat < 2 ^ 32 := by
  have := hw.no_wrap
  rw [hw.toNat_segTop]
  unfold up
  omega

omit hw

theorem confined_wellFormed (hr : Room base size) (hw : ∀ ph ∈ phdrs, ph.pType = PT_LOAD → WellFormed base ph) :
    Confined base size phdrs ↔
      ∀ ph ∈ phdrs, ph.pType = PT_LOAD → ph.pVaddr.toNat + ph.pMemsz.toNat ≤ size.toNat := by
  induction phdrs with
  | nil => exact iff_of_true trivial (by simp)
  | cons ph phdrs ih =>
    have hrest := ih fun q hq => hw q (List.mem_cons_of_mem _ hq)
    rw [Confined, List.forall_mem_cons, ← hrest]
    by_cases hp : ph.pType = PT_LOAD
    · have hwp := hw ph List.mem_cons_self hp
      have hwhole := hr.whole
      have hsizes := hwp.sizes
      rw [if_pos hp, hwp.toNat_segTop, hwp.fileEnd_eq]
      constructor
      · intro h
        obtain ⟨-, hle, hc⟩ := (h (hwp.canMap hr.aligned)).imp_right fun h => h (hwp.toNat_segTop ▸ hwp.segTop_lt)
        exact ⟨fun _ => by omega, hc⟩
      · intro h hcan
        have hle := h.1 hp
        exact ⟨up_le (by omega) hwhole, fun _ => ⟨by omega, h.2⟩⟩
    · rw [if_neg hp]
      exact ⟨fun h => ⟨fun hq => absurd hq hp, h⟩, fun h => h.2⟩

/-- The size is the way from the lowest page to the highest one: the segments fit it from the base on when the lowest
page is page 0. -/
theorem ends_le_size {em : BitVec 16} {hdr : Header} {trailer : Option (Word × List Char)} {req : Word}
    (h : getLibExtents em hdr trailer = some (req, size))
    (hw : ∀ ph ∈ hdr.phdrs, ph.pType = PT_LOAD → WellFormed base ph) :
    (∀ ph ∈ hdr.phdrs, ph.pType = PT_LOAD → ph.pVaddr.toNat + ph.pMemsz.toNat ≤ size.toNat) ↔
      ∃ ph ∈ hdr.phdrs, ph.pType = PT_LOAD ∧ ph.pVaddr.toNat < 4096 := by
  obtain ⟨hsize, hacc⟩ := getLibExtents_some h
  have hext := foldl_extend hdr.phdrs (0, 0xffffffff)
  generalize hdr.phdrs.foldl extend (0, 0xffffffff) = r at *
  obtain ⟨⟨p, hp, hpl, hlast⟩, ⟨q, hq, hql, hfirst⟩⟩ := hext.attained hacc
  have hpw := hw p hp hpl
  have hnw := hpw.no_wrap
  have hmax : r.1.toNat = p.pVaddr.toNat + p.pMemsz.toNat := by rw [hlast, hpw.toNat_end]
  have hmin : r.2.toNat = q.pVaddr.toNat := by rw [hfirst]
  have hqp := hext.starts p hp hpl
  have hround : (round r.1).toNat = up r.1.toNat := toNat_round (by unfold up; omega)
  have hsz : size.toNat = up r.1.toNat - down r.2.toNat := by
    have h1 := down_le r.2.toNat
    have h2 := le_up r.1.toNat
    rw [hsize, BitVec.toNat_sub_of_le, hround, toNat_trunc]
    rw [BitVec.le_def, hround, toNat_trunc]
    omega
  constructor
  · intro hle
    refine ⟨q, hq, hql, ?_⟩
    have hend := hle p hp hpl
    unfold up down at hsz
    omega
  · rintro ⟨s, hs, hsl, hpage⟩ t ht htl
    have hst := hext.starts s hs hsl
    have hend := hext.ends t ht htl
    rw [(hw t ht htl).toNat_end] at hend
    unfold up down at hsz
    omega

theorem inside_loadSegments (K : Kernel) (arm : Bool) (file : ℕ → BitVec 8) (phdrs : List Phdr) (si : Soinfo)
    (s : Space) :
    (∀ c ∈ (loadSegments K arm file phdrs si s).2.2.calls, c.Inside base size) ↔
      ∀ c ∈ (final (loadPhdrs K arm file phdrs (initial si s))).space.calls, c.Inside base size := by
  have hfail : ∀ L : Loading, (∀ c ∈ (failLoad L).2.2.calls, c.Inside base size) ↔
      ∀ c ∈ L.space.calls, c.Inside base size := fun L => by
    rw [failLoad, List.forall_mem_cons]
    exact and_iff_right trivial
  rw [loadSegments]
  cases loadPhdrs K arm file phdrs (initial si s) with
  | error L => exact hfail L
  | ok L =>
    dsimp only
    split
    · exact hfail L
    · exact Iff.rfl

theorem placed_confined (hr : Room base size) (phdrs : List Phdr) :
    Placed base size phdrs ↔ Confined base size phdrs := by
  constructor
  · intro h
    have hin := h (fun _ => true) false (fun _ => 0) ⟨base, size, 0, 0, 0, 0, 0, 0⟩ (fun _ => 0) rfl rfl
    exact confined_of_inside hr rfl ((inside_loadSegments ..).mp hin)
  · intro hc K arm file si m hb _
    exact (inside_loadSegments ..).mpr (inside_loadPhdrs hr hb (by simp [initial]) hc)

end Placement

/-- For an accepted header and a range that the buddy allocator gives, the pages lie inside exactly if every segment
that is reached ends inside.  When the segments are well-formed: exactly if one of them starts in page 0. -/
theorem placed_iff {a : Ba.Arch} {em : BitVec 16} {hdr : Header} {trailer : Option (Word × List Char)}
    {base size : Word} (hext : getLibExtents em hdr trailer = some (0, size)) (hr : Reserved a base size) :
    (Placed base size hdr.phdrs ↔ Confined base size hdr.phdrs) ∧
      ((∀ ph ∈ hdr.phdrs, ph.pType = PT_LOAD → WellFormed base ph) →
        (Placed base size hdr.phdrs ↔ ∃ ph ∈ hdr.phdrs, ph.pType = PT_LOAD ∧ ph.pVaddr.toNat < 4096)) := by
  have hroom := room_of_reserved hext hr
  refine ⟨placed_confined hroom hdr.phdrs, fun hw => ?_⟩
  rw [placed_confined hroom, confined_wellFormed hroom hw, ends_le_size hext hw]

/-! Libraries of one segment and of two, and the ranges they get in a fresh allocator. -/

def oneSegment (vaddr : Word) : Header := ⟨[0x7f, 0x45, 0x4c, 0x46], 40, [⟨PT_LOAD, 0, vaddr, 0x1000, 0x1000, PF_R⟩]⟩

/-- The second segment ends with two pages of zeros. -/
def twoSegments : Header :=
  ⟨[0x7f, 0x45, 0x4c, 0x46], 40,
    [⟨PT_LOAD, 0, 0, 0x1234, 0x1234, PF_R⟩, ⟨PT_LOAD, 0x1234, 0x2234, 0x100, 0x2800, PF_R⟩]⟩

theorem reserved_fresh : Reserved .arm 0x80000000 0x1000 :=
  ⟨Ba.boot fun _ => ⟨true, 0⟩, 0, _, ⟨_, Ba.boot_holds _⟩,
    Prod.ext (show (Ba.baAllocate _ _).1 = some 0 by decide +kernel) rfl, by decide⟩

/-- From address 0 on they are mapped where they were reserved. -/
theorem placed_atZero : getLibExtents 40 twoSegments none = some (0, 0x5000) ∧
    Placed 0x80000000 0x5000 twoSegments.phdrs := by
  have hext : getLibExtents 40 twoSegments none = some (0, 0x5000) := by decide
  have reserved : Reserved .arm 0x80000000 0x5000 :=
    ⟨Ba.boot fun _ => ⟨true, 0⟩, 0, _, ⟨_, Ba.boot_holds _⟩,
      Prod.ext (show (Ba.baAllocate _ _).1 = some 0 by decide +kernel) rfl, by decide⟩
  refine ⟨hext, ((placed_iff hext reserved).2 fun ph hph _ => ?_).mpr ⟨_, List.mem_cons_self, rfl, by decide⟩⟩
  rw [twoSegments, List.mem_cons, List.mem_singleton] at hph
  rcases hph with rfl | rfl
  · exact ⟨by decide, by decide, by decide⟩
  · exact ⟨by decide, by decide, by decide⟩

/-- At address 0x10000 one segment is mapped 16 pages behind the one page it has been given. -/
theorem not_placed_behind : ¬ ∀ (a : Ba.Arch) (em : BitVec 16) (hdr : Header) (trailer : Option (Word × List Char))
    (base size : Word), getLibExtents em hdr trailer = some (0, size) → Reserved a base size →
      Placed base size hdr.phdrs := by
  intro h
  have hext : getLibExtents 40 (oneSegment 0x10000) none = some (0, 0x1000) := by decide
  have hp := h .arm 40 (oneSegment 0x10000) none 0x80000000 0x1000 hext reserved_fresh
  rw [placed_confined (room_of_reserved hext reserved_fresh), oneSegment, Confined, if_pos rfl] at hp
  exact absurd (hp (by decide)).1 (by decide)

end Bionic.Segments
