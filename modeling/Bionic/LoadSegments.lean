import Bionic.Pages
import Bionic.ByteMemory

/-! # Mapping the segments of a library (`linker/linker.c`)

`get_lib_extents` computes how much room a library needs, and `load_segments` maps its `PT_LOAD` segments: the file
part of each with one `mmap`, zeros behind it with `memset` up to the end of the page and with a second, anonymous
`mmap` for the pages after it.

* **Kernel.**  A call of `mmap` with `MAP_FIXED` fails when the address is not on a page boundary, the length is 0 or
  the pages would not end below the end of the address space (`canMap`); apart from that it fails or not as the kernel
  likes, with all calls before it known (`Kernel`).  When it does not fail it returns the address.
* **File.**  The pages of a file mapping hold the bytes of the file from the offset on.
* **Outside.**  What is written to the log, and the error messages. -/

namespace Bionic.Segments

open Pages
open ByteMemory (Mem fill)

/-! ### Data -/

/-- `Elf32_Phdr`, without the fields that are not read. -/
structure Phdr where
  pType : Word
  pOffset : Word
  pVaddr : Word
  pFilesz : Word
  pMemsz : Word
  pFlags : Word
deriving DecidableEq

/-- `Elf32_Ehdr` and the program headers behind it. -/
structure Header where
  eIdent : List (BitVec 8)
  eMachine : BitVec 16
  phdrs : List Phdr

/-- The fields of a `soinfo` that `load_segments` reads or sets. -/
structure Soinfo where
  base : Word
  size : Word
  dynamic : Word
  armExidx : Word
  armExidxCount : Word
  wrprotectStart : Word
  wrprotectEnd : Word
  flags : Word

/-- What the process has asked for: a mapping of the file or an anonymous one in a fixed place, the access to some pages,
or to take some pages away. -/
inductive Call where
  | mmap (addr len prot : Word)
  | mprotect (addr len prot : Word)
  | munmap (addr len : Word)
deriving DecidableEq

/-- The memory, and the calls so far that did not fail, the last one first. -/
structure Space where
  mem : Mem
  calls : List Call

/-- Whether the next `mmap` is granted. -/
abbrev Kernel := List Call → Bool

/-- The variables of `load_segments` that last over the loop. -/
structure Loading where
  si : Soinfo
  space : Space
  totalSz : Word

def PT_LOAD : Word := 1
def PT_DYNAMIC : Word := 2
def PT_ARM_EXIDX : Word := 0x70000001
def PF_X : Word := 1
def PF_W : Word := 2
def PF_R : Word := 4
def PROT_READ : Word := 1
def PROT_WRITE : Word := 2
def PROT_EXEC : Word := 4
def FLAG_ERROR : Word := 2

/-! ### `get_lib_extents` -/

/-- `verify_elf_object`, for the machine `em`. -/
def verifyElfObject (em : BitVec 16) (hdr : Header) : Bool :=
  hdr.eIdent.take 4 = [0x7f, 0x45, 0x4c, 0x46] ∧ hdr.eMachine = em

/-- `is_prelinked`: `mmap_addr` and `tag` at the end of the file, if they can be read. -/
def isPrelinked : Option (Word × List Char) → Word
  | none => 0
  | some (mmapAddr, tag) => if tag ≠ ['P', 'R', 'E', ' '] then 0 else mmapAddr

/-- One round of the loop, on `max_vaddr` and `min_vaddr`. -/
def extend (m : Word × Word) (ph : Phdr) : Word × Word :=
  if ph.pType = PT_LOAD then
    (if m.1 < ph.pVaddr + ph.pMemsz then ph.pVaddr + ph.pMemsz else m.1,
      if ph.pVaddr < m.2 then ph.pVaddr else m.2)
  else m

/-- The requested base, and `*total_sz`; `none` for `-1`. -/
def getLibExtents (em : BitVec 16) (hdr : Header) (trailer : Option (Word × List Char)) : Option (Word × Word) :=
  if ¬ verifyElfObject em hdr then none
  else if isPrelinked trailer = 0xffffffff then none
  else
    let m := hdr.phdrs.foldl extend (0, 0xffffffff)
    if m.2 = 0xffffffff ∧ m.1 = 0 then none
    else some (isPrelinked trailer, round m.1 - trunc m.2)

/-! ### `load_segments` -/

/-- `PFLAGS_TO_PROT`. -/
def pflagsToProt (x : Word) : Word :=
  (if x &&& PF_X ≠ 0 then PROT_EXEC else 0) ||| (if x &&& PF_R ≠ 0 then PROT_READ else 0) |||
    (if x &&& PF_W ≠ 0 then PROT_WRITE else 0)

/-- What `mmap` with `MAP_FIXED` does not refuse. -/
def canMap (addr len : Word) : Prop :=
  addr.toNat % 4096 = 0 ∧ 0 < len.toNat ∧ addr.toNat + up len.toNat < 2 ^ 32

instance (addr len : Word) : Decidable (canMap addr len) := inferInstanceAs (Decidable (_ ∧ _ ∧ _))

/-- `mmap` with `MAP_FIXED`, of pages that hold `source`. -/
def mmapFixed (K : Kernel) (s : Space) (addr len prot : Word) (source : ℕ → BitVec 8) : Option Space :=
  if canMap addr len ∧ K s.calls = true then
    some ⟨fill s.mem addr (up len.toNat) source, .mmap addr len prot :: s.calls⟩
  else none

def memset0 (s : Space) (addr len : Word) : Space := { s with mem := fill s.mem addr len.toNat fun _ => 0 }

section LoadSegment

variable (base : Word) (ph : Phdr)

/-- `base + (phdr->p_vaddr & (~PAGE_MASK))`, which `pbase` is, too. -/
def pbase : Word := base + trunc ph.pVaddr

/-- `phdr->p_filesz + (phdr->p_vaddr & PAGE_MASK)`. -/
def fileLen : Word := ph.pFilesz + (ph.pVaddr &&& PAGE_MASK)

/-- `(pbase + len + PAGE_SIZE - 1) & (~PAGE_MASK)`. -/
def extraBase : Word := round (pbase base ph + fileLen ph)

/-- `base + phdr->p_vaddr + phdr->p_memsz`. -/
def segTop : Word := base + ph.pVaddr + ph.pMemsz

/-- The length that is added to `total_sz`. -/
def fullLen : Word := round (segTop base ph) - pbase base ph

/-- The `mmap` of the file. -/
def mapFile (K : Kernel) (file : ℕ → BitVec 8) (s : Space) : Option Space :=
  mmapFixed K s (pbase base ph) (fileLen ph) (pflagsToProt ph.pFlags)
    fun i => file ((trunc ph.pOffset).toNat + i)

/-- The `memset` behind it. -/
def zeroTail (s : Space) : Space :=
  if fileLen ph &&& PAGE_MASK ≠ 0 ∧ ph.pFlags &&& PF_W ≠ 0 then
    memset0 s (pbase base ph + fileLen ph) (PAGE_SIZE - (fileLen ph &&& PAGE_MASK))
  else s

/-- The `mmap` of the extra pages. -/
def mapExtra (K : Kernel) (s : Space) : Option Space :=
  if extraBase base ph < segTop base ph then
    mmapFixed K s (extraBase base ph) (segTop base ph - extraBase base ph) (pflagsToProt ph.pFlags) fun _ => 0
  else some s

/-- The range to be write protected later. -/
def noteReadOnly (si : Soinfo) : Soinfo :=
  let start := if pbase base ph < si.wrprotectStart then pbase base ph else si.wrprotectStart
  let stop := if si.wrprotectEnd < pbase base ph + fullLen base ph then pbase base ph + fullLen base ph
    else si.wrprotectEnd
  { si with wrprotectStart := start, wrprotectEnd := stop }

end LoadSegment

/-- The body of the loop for a `PT_LOAD` segment; an error is the jump to `fail`. -/
def loadSegment (K : Kernel) (file : ℕ → BitVec 8) (ph : Phdr) (L : Loading) : Except Loading Loading :=
  let base := L.si.base
  match mapFile base ph K file L.space with
  | none => .error L
  | some s =>
    match mapExtra base ph K (zeroTail base ph s) with
    | none => .error { L with space := zeroTail base ph s }
    | some s' =>
      let totalSz := L.totalSz + fullLen base ph
      if ph.pFlags &&& PF_W = 0 then
        let prot := pflagsToProt ph.pFlags ||| PROT_WRITE
        .ok ⟨noteReadOnly base ph L.si, ⟨s'.mem, .mprotect (pbase base ph) (fullLen base ph) prot :: s'.calls⟩, totalSz⟩
      else .ok ⟨L.si, s', totalSz⟩

/-- The body of the loop; `arm` is `ANDROID_ARM_LINKER`. -/
def loadPhdr (K : Kernel) (arm : Bool) (file : ℕ → BitVec 8) (ph : Phdr) (L : Loading) : Except Loading Loading :=
  if ph.pType = PT_LOAD then loadSegment K file ph L
  else if ph.pType = PT_DYNAMIC then .ok { L with si := { L.si with dynamic := L.si.base + ph.pVaddr } }
  else if arm ∧ ph.pType = PT_ARM_EXIDX then
    .ok { L with si := { L.si with armExidx := ph.pVaddr, armExidxCount := ph.pMemsz / 8 } }
  else .ok L

def loadPhdrs (K : Kernel) (arm : Bool) (file : ℕ → BitVec 8) : List Phdr → Loading → Except Loading Loading
  | [], L => .ok L
  | ph :: phdrs, L => do loadPhdrs K arm file phdrs (← loadPhdr K arm file ph L)

/-- The variables before the loop. -/
def initial (si : Soinfo) (s : Space) : Loading :=
  ⟨{ si with wrprotectStart := 0xffffffff, wrprotectEnd := 0 }, s, 0⟩

/-- Behind the label `fail`. -/
def failLoad (L : Loading) : ℤ × Soinfo × Space :=
  (-1, { L.si with flags := L.si.flags ||| FLAG_ERROR },
    { L.space with calls := .munmap L.si.base L.si.size :: L.space.calls })

def loadSegments (K : Kernel) (arm : Bool) (file : ℕ → BitVec 8) (phdrs : List Phdr) (si : Soinfo) (s : Space) :
    ℤ × Soinfo × Space :=
  match loadPhdrs K arm file phdrs (initial si s) with
  | .error L => failLoad L
  | .ok L => if L.si.size < L.totalSz then failLoad L else (0, L.si, L.space)

/-! ### What a step does -/

section Steps

variable {K : Kernel} {arm : Bool} {file : ℕ → BitVec 8} {ph : Phdr} {phdrs : List Phdr} {L L' : Loading}
  {s s' : Space}

theorem mmapFixed_some {addr len prot : Word} {source : ℕ → BitVec 8} (h : mmapFixed K s addr len prot source = some s') :
    canMap addr len ∧ s' = ⟨fill s.mem addr (up len.toNat) source, .mmap addr len prot :: s.calls⟩ := by
  unfold mmapFixed at h
  split at h
  · rename_i hc
    exact ⟨hc.1, (Option.some.inj h).symm⟩
  · cases h

theorem zeroTail_calls (base : Word) (ph : Phdr) (s : Space) : (zeroTail base ph s).calls = s.calls := by
  unfold zeroTail
  by_cases h : fileLen ph &&& PAGE_MASK ≠ 0 ∧ ph.pFlags &&& PF_W ≠ 0
  · rw [if_pos h, memset0]
  · rw [if_neg h]

/-- The pages of the file part. -/
def fileCall (base : Word) (ph : Phdr) : Call := .mmap (pbase base ph) (fileLen ph) (pflagsToProt ph.pFlags)

/-- The pages behind it. -/
def extraCall (base : Word) (ph : Phdr) : Call :=
  .mmap (extraBase base ph) (segTop base ph - extraBase base ph) (pflagsToProt ph.pFlags)

/-- The memory after the first `mmap`. -/
def fileMem (base : Word) (ph : Phdr) (file : ℕ → BitVec 8) (m : Mem) : Mem :=
  fill m (pbase base ph) (up (fileLen ph).toNat) fun i => file ((trunc ph.pOffset).toNat + i)

theorem mapFile_some (h : mapFile (L.si.base) ph K file s = some s') :
    canMap (pbase L.si.base ph) (fileLen ph) ∧
      s' = ⟨fileMem L.si.base ph file s.mem, fileCall L.si.base ph :: s.calls⟩ := mmapFixed_some h

theorem mapExtra_some {base : Word} (h : mapExtra base ph K s = some s') :
    extraBase base ph < segTop base ph ∧ canMap (extraBase base ph) (segTop base ph - extraBase base ph) ∧
        s' = ⟨fill s.mem (extraBase base ph) (up (segTop base ph - extraBase base ph).toNat) fun _ => 0,
          extraCall base ph :: s.calls⟩ ∨
      ¬ extraBase base ph < segTop base ph ∧ s' = s := by
  unfold mapExtra at h
  split at h
  · exact Or.inl ⟨‹_›, mmapFixed_some h⟩
  · exact Or.inr ⟨‹_›, (Option.some.inj h).symm⟩

theorem mapFile_of_canMap {base : Word} (file : ℕ → BitVec 8) (h : canMap (pbase base ph) (fileLen ph))
    (hK : K s.calls = true) :
    ∃ s', mapFile base ph K file s = some s' ∧ fileCall base ph ∈ s'.calls :=
  ⟨_, if_pos ⟨h, hK⟩, List.mem_cons_self⟩

theorem mapExtra_of_canMap {base : Word} (hlt : extraBase base ph < segTop base ph)
    (h : canMap (extraBase base ph) (segTop base ph - extraBase base ph)) (hK : K s.calls = true) :
    ∃ s', mapExtra base ph K s = some s' ∧ extraCall base ph ∈ s'.calls :=
  ⟨_, (if_pos hlt).trans (if_pos ⟨h, hK⟩), List.mem_cons_self⟩

/-- A segment that is loaded: the file is mapped, the rest of its last page zeroed, the extra pages mapped. -/
theorem loadSegment_ok (h : loadSegment K file ph L = .ok L') :
    ∃ s s', mapFile L.si.base ph K file L.space = some s ∧
      mapExtra L.si.base ph K (zeroTail L.si.base ph s) = some s' ∧ L'.space.mem = s'.mem ∧
      L'.si = (if ph.pFlags &&& PF_W = 0 then noteReadOnly L.si.base ph L.si else L.si) ∧
      (L'.space.calls = s'.calls ∨
        ∃ addr len prot, L'.space.calls = .mprotect addr len prot :: s'.calls) := by
  unfold loadSegment at h
  dsimp only at h
  cases hf : mapFile L.si.base ph K file L.space with
  | none =>
    rw [hf] at h
    cases h
  | some s =>
    cases he : mapExtra L.si.base ph K (zeroTail L.si.base ph s) with
    | none =>
      simp only [hf, he] at h
      cases h
    | some s' =>
      simp only [hf, he] at h
      refine ⟨s, s', rfl, he, ?_⟩
      by_cases hw : ph.pFlags &&& PF_W = 0
      · rw [if_pos hw] at h ⊢
        obtain rfl := Except.ok.inj h
        exact ⟨rfl, rfl, Or.inr ⟨_, _, _, rfl⟩⟩
      · rw [if_neg hw] at h ⊢
        obtain rfl := Except.ok.inj h
        exact ⟨rfl, rfl, Or.inl rfl⟩

theorem loadSegment_of_some {s s' : Space} (hf : mapFile L.si.base ph K file L.space = some s)
    (he : mapExtra L.si.base ph K (zeroTail L.si.base ph s) = some s') : ∃ L', loadSegment K file ph L = .ok L' := by
  unfold loadSegment
  dsimp only
  simp only [hf, he]
  by_cases hw : ph.pFlags &&& PF_W = 0
  · exact ⟨_, if_pos hw⟩
  · exact ⟨_, if_neg hw⟩

/-- A segment that is not loaded: one of the two `mmap`s fails. -/
theorem loadSegment_error (h : loadSegment K file ph L = .error L') :
    mapFile L.si.base ph K file L.space = none ∧ L' = L ∨
      ∃ s, mapFile L.si.base ph K file L.space = some s ∧
        mapExtra L.si.base ph K (zeroTail L.si.base ph s) = none ∧
        L' = { L with space := zeroTail L.si.base ph s } := by
  unfold loadSegment at h
  dsimp only at h
  cases hf : mapFile L.si.base ph K file L.space with
  | none =>
    rw [hf] at h
    exact Or.inl ⟨rfl, (Except.error.inj h).symm⟩
  | some s =>
    cases he : mapExtra L.si.base ph K (zeroTail L.si.base ph s) with
    | none =>
      simp only [hf, he] at h
      exact Or.inr ⟨s, rfl, he, (Except.error.inj h).symm⟩
    | some s' =>
      simp only [hf, he] at h
      split at h <;> cases h

/-- Other program headers leave the memory and the place of the library alone. -/
theorem loadPhdr_other (K : Kernel) (arm : Bool) (file : ℕ → BitVec 8) (L : Loading) (hp : ph.pType ≠ PT_LOAD) :
    ∃ L', loadPhdr K arm file ph L = .ok L' ∧ L'.space = L.space ∧ L'.si.base = L.si.base ∧
      L'.si.wrprotectStart = L.si.wrprotectStart ∧ L'.si.wrprotectEnd = L.si.wrprotectEnd := by
  rw [loadPhdr, if_neg hp]
  split
  · exact ⟨_, rfl, rfl, rfl, rfl, rfl⟩
  · split
    · exact ⟨_, rfl, rfl, rfl, rfl, rfl⟩
    · exact ⟨_, rfl, rfl, rfl, rfl, rfl⟩

theorem loadPhdr_load (hp : ph.pType = PT_LOAD) : loadPhdr K arm file ph L = loadSegment K file ph L := if_pos hp

theorem loadPhdrs_cons_ok (h : loadPhdr K arm file ph L = .ok L') :
    loadPhdrs K arm file (ph :: phdrs) L = loadPhdrs K arm file phdrs L' := by
  rw [loadPhdrs, h]
  rfl

theorem loadPhdrs_cons_error (h : loadPhdr K arm file ph L = .error L') :
    loadPhdrs K arm file (ph :: phdrs) L = .error L' := by
  rw [loadPhdrs, h]
  rfl

/-- A loop that comes to its end has made its first step, and has come to its end from there. -/
theorem loadPhdrs_cons_eq_ok (h : loadPhdrs K arm file (ph :: phdrs) L = .ok L') :
    ∃ L₁, loadPhdr K arm file ph L = .ok L₁ ∧ loadPhdrs K arm file phdrs L₁ = .ok L' := by
  cases hstep : loadPhdr K arm file ph L with
  | error L₁ =>
    rw [loadPhdrs_cons_error hstep] at h
    cases h
  | ok L₁ =>
    rw [loadPhdrs_cons_ok hstep] at h
    exact ⟨L₁, rfl, h⟩

theorem loadSegment_base (h : loadSegment K file ph L = .ok L') : L'.si.base = L.si.base := by
  obtain ⟨s, s', -, -, -, hsi, -⟩ := loadSegment_ok h
  rw [hsi]
  split
  · rfl
  · rfl

theorem loadPhdr_base (h : loadPhdr K arm file ph L = .ok L') : L'.si.base = L.si.base := by
  by_cases hp : ph.pType = PT_LOAD
  · rw [loadPhdr_load hp] at h
    exact loadSegment_base h
  · obtain ⟨L₁, hl, -, hb, -⟩ := loadPhdr_other K arm file L hp
    obtain rfl := Except.ok.inj (h.symm.trans hl)
    exact hb

theorem loadSegments_ok {si : Soinfo} (h : (loadSegments K arm file phdrs si s).1 = 0) :
    ∃ L, loadPhdrs K arm file phdrs (initial si s) = .ok L ∧
      (loadSegments K arm file phdrs si s).2 = (L.si, L.space) := by
  unfold loadSegments at h ⊢
  cases hl : loadPhdrs K arm file phdrs (initial si s) with
  | error L =>
    rw [hl] at h
    exact absurd h (by simp [failLoad])
  | ok L =>
    rw [hl] at h
    dsimp only at h ⊢
    by_cases hsize : L.si.size < L.totalSz
    · rw [if_pos hsize] at h
      exact absurd h (by simp [failLoad])
    · rw [if_neg hsize]
      exact ⟨L, rfl, rfl⟩

end Steps

/-! ### The sums as numbers -/

section Sums

variable {base : Word} {ph : Phdr}

theorem toNat_pbase (base : Word) (ph : Phdr) :
    (pbase base ph).toNat = (base.toNat + down ph.pVaddr.toNat) % 2 ^ 32 := by
  rw [pbase, BitVec.toNat_add, toNat_trunc]

theorem toNat_fileLen (ph : Phdr) :
    (fileLen ph).toNat = (ph.pFilesz.toNat + ph.pVaddr.toNat % 4096) % 2 ^ 32 := by
  rw [fileLen, BitVec.toNat_add, toNat_mask]

theorem toNat_fileStop (h : base.toNat + down ph.pVaddr.toNat + (fileLen ph).toNat < 2 ^ 32) :
    (pbase base ph + fileLen ph).toNat = base.toNat + down ph.pVaddr.toNat + (fileLen ph).toNat := by
  rw [BitVec.toNat_add, toNat_pbase]
  omega

/-- The extra pages start where the pages of the file part end. -/
theorem toNat_extraBase (hb : base.toNat % 4096 = 0)
    (h : base.toNat + down ph.pVaddr.toNat + up (fileLen ph).toNat < 2 ^ 32) :
    (extraBase base ph).toNat = base.toNat + down ph.pVaddr.toNat + up (fileLen ph).toNat := by
  have hle := le_up (fileLen ph).toNat
  have hd := down_mod ph.pVaddr.toNat
  have hup : up (pbase base ph + fileLen ph).toNat = base.toNat + down ph.pVaddr.toNat + up (fileLen ph).toNat := by
    rw [toNat_fileStop (by omega), add_up (by omega)]
  rw [extraBase, toNat_round (by omega), hup]

/-- Without a wrap, the pages of the file part end where the page of its last byte does. -/
theorem down_add_up_fileLen (h : (fileLen ph).toNat = ph.pFilesz.toNat + ph.pVaddr.toNat % 4096) :
    down ph.pVaddr.toNat + up (fileLen ph).toNat = up (ph.pVaddr.toNat + ph.pFilesz.toNat) := by
  have hv := down_add_mod ph.pVaddr.toNat
  rw [← add_up (down_mod _), h]
  exact congrArg up (by omega)

/-- The extra pages end where the page of the last byte ends. -/
theorem extra_end (h : extraBase base ph < segTop base ph) (ha : (extraBase base ph).toNat % 4096 = 0) :
    0 < (segTop base ph - extraBase base ph).toNat ∧
      (extraBase base ph).toNat + up (segTop base ph - extraBase base ph).toNat = up (segTop base ph).toNat := by
  rw [BitVec.lt_def] at h
  have hsub : (segTop base ph - extraBase base ph).toNat = (segTop base ph).toNat - (extraBase base ph).toNat :=
    BitVec.toNat_sub_of_le (BitVec.le_def.mpr (Nat.le_of_lt h))
  rw [hsub, ← add_up ha]
  exact ⟨by omega, by rw [Nat.add_sub_of_le (Nat.le_of_lt h)]⟩

end Sums

end Bionic.Segments
