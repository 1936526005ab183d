import Bionic.TreeBins

/-! # The allocator (`libc/bionic/dlmalloc.c`)

`dlmalloc` and `dlfree` on the heap as they keep it: heads with their bits in front of the chunks, sizes behind free ones,
small bins, tree bins, the chunks `dv` and `top`, and the list of segments.

* **Memory.** `head` and `prevFoot` are the first two words of a chunk, by its address.  The size and the bits of a head are
  separate fields.  What `fd`, `bk`, `child` and `parent` link is in the bins.
* **Bins.** A small bin is the list of its chunks from `fd` on.  A bin whose bit is clear may still point to chunks.
* **The system.** What `MORECORE` and `MMAP` give are answers, as is whether memory can be given back.
* **Checks.** A run time check of an address or a bit that fails aborts.  The checks of links within the bins are left out. -/

namespace Bionic.Dlmalloc

def MIN_CHUNK_SIZE : ℕ := 16

def CHUNK_OVERHEAD : ℕ := 4

def CHUNK_ALIGN_MASK : ℕ := 7

def MAX_SMALL_REQUEST : ℕ := 2 ^ TREEBIN_SHIFT - 1 - CHUNK_ALIGN_MASK - CHUNK_OVERHEAD

def MIN_REQUEST : ℕ := MIN_CHUNK_SIZE - CHUNK_OVERHEAD - 1

def MAX_REQUEST : ℕ := sub32 0 MIN_CHUNK_SIZE * 2 ^ 2 % 2 ^ 32

def MAX_SIZE_T : ℕ := 2 ^ 32 - 1

def HALF_MAX_SIZE_T : ℕ := MAX_SIZE_T / 2

def MMAP_FOOT_PAD : ℕ := 16

def padRequest (req : ℕ) : ℕ := (req + CHUNK_OVERHEAD + CHUNK_ALIGN_MASK) % 2 ^ 32 / 8 * 8

/-- The size of `struct malloc_segment` as a chunk. -/
def SEGMENT_SIZE : ℕ := padRequest 16

def TOP_FOOT_SIZE : ℕ := SEGMENT_SIZE + MIN_CHUNK_SIZE

/-- The word `head`. -/
structure Head where
  size : ℕ
  pinuse : Bool
  cinuse : Bool
deriving DecidableEq, Repr

def FENCEPOST_HEAD : Head := ⟨4, true, true⟩

structure Segment where
  base : ℕ
  size : ℕ
  mmapped : Bool
deriving DecidableEq, Repr

def PAGE_SIZE : ℕ := 2 ^ 12

/-- `mparams`.  Only a power of two from a page on can be the granularity, and as an `int` it is less than 2^31. -/
structure Params where
  granularity : ℕ
  mmapThreshold : ℕ
  trimThreshold : ℕ
  pow : ∃ k, 12 ≤ k ∧ k < 31 ∧ granularity = 2 ^ k

structure State where
  head : ℕ → Head
  prevFoot : ℕ → ℕ
  smallbins : ℕ → List ℕ
  smallmap : BitVec 32
  trees : TreeBins
  dv : ℕ
  dvsize : ℕ
  top : ℕ
  topsize : ℕ
  leastAddr : ℕ
  seg : List Segment
  trimCheck : ℕ
  /-- `USE_NONCONTIGUOUS_BIT` is not set. -/
  contiguous : Bool

/-- What the system answers to the calls of `sys_alloc`, in their order. -/
structure SysAnswer where
  direct : Option ℕ
  base : Option ℕ
  more : Option ℕ
  extra : Option ℕ
  mapped : Option ℕ
  br : Option ℕ
  stop : Option ℕ

/-- What the system answers to the calls of `sys_trim`. -/
structure TrimAnswer where
  /-- The end of the segment of `top` has been unmapped, which it is not when a record of a segment lies in it. -/
  unmapped : Bool
  oldBr : Option ℕ
  /-- Where the memory ends when so much of it has been given back. -/
  newBr : ℕ → Option ℕ
  /-- The segment that begins there has been unmapped. -/
  munmap : ℕ → Bool

/-- `ABORT` -/
inductive Fault where
  | corruption
  | usage
deriving DecidableEq, Repr

/-- A pointer that is returned, or the null pointer. -/
abbrev Result := Except Fault (State × Option ℕ)

def isSmall (s : ℕ) : Bool := s / 8 < 32

def chunk2mem (p : ℕ) : ℕ := p + 8

def mem2chunk (mem : ℕ) : ℕ := mem - 8

/-- `align_offset` -/
def alignOffset (a : ℕ) : ℕ := if a % 8 = 0 then 0 else (8 - a % 8) % 8

def alignAsChunk (a : ℕ) : ℕ := a + alignOffset (chunk2mem a)

/-- `granularity_align` -/
def Params.granularityAlign (m : Params) (n : ℕ) : ℕ := (n + m.granularity) % 2 ^ 32 / m.granularity * m.granularity

/-- `page_align` -/
def pageAlign (a : ℕ) : ℕ := (a + PAGE_SIZE) % 2 ^ 32 / PAGE_SIZE * PAGE_SIZE

namespace State

/-! ### Heads and feet -/

def chunksize (s : State) (p : ℕ) : ℕ := (s.head p).size

def setHead (s : State) (p : ℕ) (h : Head) : State := { s with head := Function.update s.head p h }

def setFoot (s : State) (p n : ℕ) : State := { s with prevFoot := Function.update s.prevFoot (p + n) n }

def setPinuse (s : State) (p : ℕ) (b : Bool) : State := s.setHead p { s.head p with pinuse := b }

def setInuseAndPinuse (s : State) (p n : ℕ) : State := (s.setHead p ⟨n, true, true⟩).setPinuse (p + n) true

def setSizeAndPinuseOfInuseChunk (s : State) (p n : ℕ) : State := s.setHead p ⟨n, true, true⟩

def setSizeAndPinuseOfFreeChunk (s : State) (p n : ℕ) : State := (s.setHead p ⟨n, true, false⟩).setFoot p n

def setFreeWithPinuse (s : State) (p n next : ℕ) : State := (s.setPinuse next false).setSizeAndPinuseOfFreeChunk p n

section

variable (s : State) (p n x : ℕ) (h : Head)

@[simp] theorem setHead_head : (s.setHead p h).head x = if x = p then h else s.head x := Function.update_apply ..

@[simp] theorem setFoot_head : (s.setFoot p n).head x = s.head x := rfl

@[simp] theorem setHead_prevFoot : (s.setHead p h).prevFoot x = s.prevFoot x := rfl

@[simp] theorem setFoot_prevFoot : (s.setFoot p n).prevFoot x = if x = p + n then n else s.prevFoot x :=
  Function.update_apply ..

theorem setInuseAndPinuse_head {n : ℕ} (hn : 0 < n) : (s.setInuseAndPinuse p n).head x =
    if x = p + n then { s.head (p + n) with pinuse := true } else if x = p then ⟨n, true, true⟩ else s.head x := by
  rw [setInuseAndPinuse, setPinuse, setHead_head, setHead_head, setHead_head, if_neg (by omega : p + n ≠ p)]

@[simp] theorem setSizeAndPinuseOfInuseChunk_head :
    (s.setSizeAndPinuseOfInuseChunk p n).head x = if x = p then ⟨n, true, true⟩ else s.head x := setHead_head ..

@[simp] theorem setSizeAndPinuseOfInuseChunk_prevFoot :
    (s.setSizeAndPinuseOfInuseChunk p n).prevFoot x = s.prevFoot x := rfl

@[simp] theorem setSizeAndPinuseOfFreeChunk_head :
    (s.setSizeAndPinuseOfFreeChunk p n).head x = if x = p then ⟨n, true, false⟩ else s.head x := setHead_head ..

@[simp] theorem setSizeAndPinuseOfFreeChunk_prevFoot :
    (s.setSizeAndPinuseOfFreeChunk p n).prevFoot x = if x = p + n then n else s.prevFoot x := setFoot_prevFoot ..

theorem setFreeWithPinuse_head (next : ℕ) : (s.setFreeWithPinuse p n next).head x =
    if x = p then ⟨n, true, false⟩ else if x = next then { s.head next with pinuse := false } else s.head x := by
  rw [setFreeWithPinuse, setSizeAndPinuseOfFreeChunk_head, setPinuse, setHead_head]

@[simp] theorem setFreeWithPinuse_prevFoot (next : ℕ) :
    (s.setFreeWithPinuse p n next).prevFoot x = if x = p + n then n else s.prevFoot x := by
  rw [setFreeWithPinuse, setSizeAndPinuseOfFreeChunk_prevFoot]
  rfl

end

/-! ### Bins -/

def smallmapIsMarked (s : State) (i : ℕ) : Bool := s.smallmap &&& idx2bit i ≠ 0#32

def insertSmallChunk (s : State) (P S : ℕ) : State :=
  let I := S / 8
  if s.smallmapIsMarked I then { s with smallbins := Function.update s.smallbins I (P :: s.smallbins I) }
  else { s with smallmap := s.smallmap ||| idx2bit I, smallbins := Function.update s.smallbins I [P] }

/-- `unlink_small_chunk` and `unlink_first_small_chunk`.  The only chunk of a bin stays where `fd` and `bk` point. -/
def unlinkSmallChunk (s : State) (P I : ℕ) : State :=
  if s.smallbins I = [P] then { s with smallmap := s.smallmap &&& ~~~idx2bit I }
  else { s with smallbins := Function.update s.smallbins I ((s.smallbins I).erase P) }

def insertChunk (s : State) (P S : ℕ) : State :=
  if isSmall S then s.insertSmallChunk P S else { s with trees := s.trees.insertLargeChunk P S }

def unlinkChunk (s : State) (P S : ℕ) : State :=
  if isSmall S then s.unlinkSmallChunk P (S / 8) else { s with trees := s.trees.unlinkLargeChunk P }

def replaceDv (s : State) (P S : ℕ) : State :=
  let s := if s.dvsize ≠ 0 then s.insertSmallChunk s.dv s.dvsize else s
  { s with dvsize := S, dv := P }

/-! ### Allocation -/

/-- The end of `tmalloc_large`. -/
def tmallocLarge (s : State) (nb : ℕ) : Result :=
  let f := s.trees.tmallocLarge nb
  match f.v with
  | none => .ok (s, none)
  | some (v, _) =>
    if f.rsize < sub32 s.dvsize nb then
      if s.leastAddr ≤ v ∧ v < v + nb then
        let s := { s with trees := s.trees.unlinkLargeChunk v }
        if f.rsize < MIN_CHUNK_SIZE then .ok (s.setInuseAndPinuse v (f.rsize + nb), some (chunk2mem v))
        else
          let s := (s.setSizeAndPinuseOfInuseChunk v nb).setSizeAndPinuseOfFreeChunk (v + nb) f.rsize
          .ok (s.insertChunk (v + nb) f.rsize, some (chunk2mem v))
      else .error .corruption
    else .ok (s, none)

/-- The end of `tmalloc_small`. -/
def tmallocSmall (s : State) (nb : ℕ) : Result :=
  let f := s.trees.tmallocSmall nb
  match f.v with
  | none => .error .corruption
  | some (v, _) =>
    if s.leastAddr ≤ v ∧ v < v + nb then
      let s := { s with trees := s.trees.unlinkLargeChunk v }
      if f.rsize < MIN_CHUNK_SIZE then .ok (s.setInuseAndPinuse v (f.rsize + nb), some (chunk2mem v))
      else
        let s := (s.setSizeAndPinuseOfInuseChunk v nb).setSizeAndPinuseOfFreeChunk (v + nb) f.rsize
        .ok (s.replaceDv (v + nb) f.rsize, some (chunk2mem v))
    else .error .corruption

/-- A chunk of at least `nb` bytes from the first of the small bins `idx` and `idx + 1` that is not empty. -/
def smallFit (s : State) (idx : ℕ) : Result :=
  let idx := if (s.smallmap >>> idx).getLsbD 0 then idx else idx + 1
  match s.smallbins idx with
  | [] => .error .corruption
  | p :: _ =>
    let s := (s.unlinkSmallChunk p idx).setInuseAndPinuse p (8 * idx)
    .ok (s, some (chunk2mem p))

/-- A chunk from the next small bin that is not empty. -/
def nextSmall (s : State) (nb idx : ℕ) : Result :=
  let leftbits := (s.smallmap >>> idx <<< idx) &&& leftBits (idx2bit idx)
  let i := computeBit2idx (leastBit leftbits)
  match s.smallbins i with
  | [] => .error .corruption
  | p :: _ =>
    let rsize := 8 * i - nb
    let s := (s.unlinkSmallChunk p i).setSizeAndPinuseOfInuseChunk p nb
    let s := (s.setSizeAndPinuseOfFreeChunk (p + nb) rsize).replaceDv (p + nb) rsize
    .ok (s, some (chunk2mem p))

def splitDv (s : State) (nb : ℕ) : State × Option ℕ :=
  let rsize := s.dvsize - nb
  let p := s.dv
  if MIN_CHUNK_SIZE ≤ rsize then
    let s := { s with dv := p + nb, dvsize := rsize }
    ((s.setSizeAndPinuseOfFreeChunk (p + nb) rsize).setSizeAndPinuseOfInuseChunk p nb, some (chunk2mem p))
  else
    let dvs := s.dvsize
    let s := { s with dvsize := 0, dv := 0 }
    (s.setInuseAndPinuse p dvs, some (chunk2mem p))

def splitTop (s : State) (nb : ℕ) : State × Option ℕ :=
  let rsize := s.topsize - nb
  let p := s.top
  let s := { s with topsize := rsize, top := p + nb }
  ((s.setHead (p + nb) ⟨rsize, true, false⟩).setSizeAndPinuseOfInuseChunk p nb, some (chunk2mem p))

/-! ### Memory from the system -/

def initTop (s : State) (m : Params) (p psize : ℕ) : State :=
  let offset := alignOffset (chunk2mem p)
  let p := p + offset
  let psize := psize - offset
  let s := { s with top := p, topsize := psize, trimCheck := m.trimThreshold }
  (s.setHead p ⟨psize, true, false⟩).setHead (p + psize) ⟨TOP_FOOT_SIZE, false, false⟩

/-- `mmap_alloc`, with the answer of `DIRECT_MMAP`. -/
def mmapAlloc (s : State) (m : Params) (nb : ℕ) (mm : Option ℕ) : State × Option ℕ :=
  let mmsize := m.granularityAlign (nb + 24 + CHUNK_ALIGN_MASK)
  if nb < mmsize then
    match mm with
    | none => (s, none)
    | some mm =>
      let offset := alignOffset (chunk2mem mm)
      let psize := mmsize - offset - MMAP_FOOT_PAD
      let p := mm + offset
      let s := { s with prevFoot := Function.update s.prevFoot p (offset ||| 1) }
      let s := ((s.setHead p ⟨psize, false, true⟩).setHead (p + psize) FENCEPOST_HEAD).setHead (p + psize + 4) ⟨0, false, false⟩
      ({ s with leastAddr := min s.leastAddr mm }, some (chunk2mem p))
  else (s, none)

/-- `prepend_alloc` -/
def prependAlloc (s : State) (newbase oldbase nb : ℕ) : State × Option ℕ :=
  let p := alignAsChunk newbase
  let oldfirst := alignAsChunk oldbase
  let psize := oldfirst - p
  let q := p + nb
  let qsize := psize - nb
  let s := s.setSizeAndPinuseOfInuseChunk p nb
  if oldfirst = s.top then
    let tsize := s.topsize + qsize
    let s := { s with topsize := tsize, top := q }
    (s.setHead q ⟨tsize, true, false⟩, some (chunk2mem p))
  else if oldfirst = s.dv then
    let dsize := s.dvsize + qsize
    let s := { s with dvsize := dsize, dv := q }
    (s.setSizeAndPinuseOfFreeChunk q dsize, some (chunk2mem p))
  else if ¬ (s.head oldfirst).cinuse then
    let nsize := s.chunksize oldfirst
    let s := (s.unlinkChunk oldfirst nsize).setFreeWithPinuse q (qsize + nsize) (oldfirst + nsize)
    (s.insertChunk q (qsize + nsize), some (chunk2mem p))
  else
    let s := s.setFreeWithPinuse q qsize oldfirst
    (s.insertChunk q qsize, some (chunk2mem p))

/-- The fenceposts from `p` up to the old end of a segment. -/
def fenceposts (s : State) (p : ℕ) : ℕ → State
  | 0 => s
  | n + 1 => fenceposts (s.setHead p FENCEPOST_HEAD) (p + 4) n

def segmentHolds (sp : Segment) (a : ℕ) : Bool := sp.base ≤ a ∧ a < sp.base + sp.size

/-- `add_segment` -/
def addSegment (s : State) (m : Params) (tbase tsize : ℕ) (mmapped : Bool) : State :=
  let oldTop := s.top
  match s.seg.find? (segmentHolds · oldTop) with
  | none => s
  | some oldsp =>
    let oldEnd := oldsp.base + oldsp.size
    let rawsp := oldEnd - (SEGMENT_SIZE + 16 + CHUNK_ALIGN_MASK)
    let asp := rawsp + alignOffset (chunk2mem rawsp)
    let csp := if asp < oldTop + MIN_CHUNK_SIZE then oldTop else asp
    let s := s.initTop m tbase (sub32 tsize TOP_FOOT_SIZE)
    let s := s.setSizeAndPinuseOfInuseChunk csp SEGMENT_SIZE
    let s := { s with seg := ⟨tbase, tsize, mmapped⟩ :: s.seg }
    let p := csp + SEGMENT_SIZE
    let s := s.fenceposts p ((oldEnd - p) / 4 - 1)
    if csp ≠ oldTop then (s.setFreeWithPinuse oldTop (csp - oldTop) csp).insertChunk oldTop (csp - oldTop) else s

/-- The allocation from the new or the extended top. -/
def fromTop (s : State) (nb : ℕ) : State × Option ℕ := if nb < s.topsize then s.splitTop nb else (s, none)

/-- Memory that does not extend the segment of `top`: it is put in front of a segment, or becomes one of its own. -/
def newMemory (s : State) (m : Params) (tbase tsize : ℕ) (mmapped : Bool) (nb : ℕ) : State × Option ℕ :=
  let s := { s with leastAddr := min s.leastAddr tbase }
  match s.seg.find? (fun sp => sp.base = tbase + tsize) with
  | some sp =>
    if sp.mmapped = mmapped then
      let s := { s with seg := s.seg.replace sp { sp with base := tbase, size := sp.size + tsize } }
      s.prependAlloc tbase sp.base nb
    else (s.addSegment m tbase tsize mmapped).fromTop nb
  | none => (s.addSegment m tbase tsize mmapped).fromTop nb

/-- What `sys_alloc` makes of memory that it has been given. -/
def useMemory (s : State) (m : Params) (tbase tsize : ℕ) (mmapped : Bool) (nb : ℕ) : State × Option ℕ :=
  if s.top = 0 then
    let s := { s with seg := [⟨tbase, tsize, mmapped⟩], leastAddr := tbase }
    (s.initTop m tbase (sub32 tsize TOP_FOOT_SIZE)).fromTop nb
  else
    match s.seg.find? (fun sp => sp.base + sp.size = tbase) with
    | some sp =>
      if sp.mmapped = mmapped ∧ segmentHolds sp s.top then
        let s := { s with seg := s.seg.replace sp { sp with size := sp.size + tsize } }
        (s.initTop m s.top (s.topsize + tsize)).fromTop nb
      else s.newMemory m tbase tsize mmapped nb
    | none => s.newMemory m tbase tsize mmapped nb

/-- The call of `MORECORE` that can extend the segment of `top`: what is asked for, what is answered, and whether the memory is
where it is expected. -/
def moreContiguous (s : State) (m : Params) (nb : ℕ) (a : SysAnswer) : ℕ × Option ℕ × Bool :=
  match if s.top = 0 then none else s.seg.find? (segmentHolds · s.top) with
  | none =>
    match a.base with
    | none => (0, none, false)
    | some base =>
      let gap := if base % PAGE_SIZE = 0 then 0 else sub32 (pageAlign base) base
      let asize := m.granularityAlign (nb + TOP_FOOT_SIZE + 1) + gap
      let br := if asize < HALF_MAX_SIZE_T then a.more else none
      (asize, br, br = some base)
  | some ss =>
    let asize := m.granularityAlign (sub32 nb s.topsize + TOP_FOOT_SIZE + 1)
    let br := if asize < HALF_MAX_SIZE_T then a.more else none
    (asize, br, br = some (ss.base + ss.size))

/-- The memory from `MORECORE`, also if it is elsewhere, with more of it if it is too small. -/
def contiguousMemory (s : State) (m : Params) (nb : ℕ) (a : SysAnswer) : Option (ℕ × ℕ) :=
  match s.moreContiguous m nb a with
  | (_, none, _) => none
  | (asize, some br, true) => some (br, asize)
  | (asize, some br, false) =>
    let req := (nb + TOP_FOOT_SIZE + 1) % 2 ^ 32
    let esize := m.granularityAlign (sub32 req asize)
    if asize < HALF_MAX_SIZE_T ∧ asize < req ∧ esize < HALF_MAX_SIZE_T then a.extra.map fun _ => (br, asize + esize)
    else some (br, asize)

/-- The memory from `MMAP`, or from `MORECORE` wherever it is. -/
def otherMemory (m : Params) (nb : ℕ) (a : SysAnswer) : Option (ℕ × ℕ × Bool) :=
  let rsize := m.granularityAlign (nb + TOP_FOOT_SIZE + 1)
  match if nb < rsize then a.mapped else none with
  | some mp => some (mp, rsize, true)
  | none =>
    match a.br, a.stop with
    | some br, some stop =>
      if rsize < HALF_MAX_SIZE_T ∧ br < stop ∧ (nb + TOP_FOOT_SIZE) % 2 ^ 32 < stop - br then some (br, stop - br, false) else none
    | _, _ => none

/-- The part of `sys_alloc` that gets memory: where it begins, its size, and whether it is mapped. -/
def getMemory (s : State) (m : Params) (nb : ℕ) (a : SysAnswer) : State × Option (ℕ × ℕ × Bool) :=
  match if s.contiguous then s.contiguousMemory m nb a else none with
  | some (tbase, tsize) => (s, some (tbase, tsize, false))
  | none => ({ s with contiguous := false }, otherMemory m nb a)

/-- `sys_alloc` -/
def sysAlloc (s : State) (m : Params) (nb : ℕ) (a : SysAnswer) : State × Option ℕ :=
  let (s, mem) := if m.mmapThreshold ≤ nb then s.mmapAlloc m nb a.direct else (s, none)
  if mem = none then
    match s.getMemory m nb a with
    | (s, none) => (s, none)
    | (s, some (tbase, tsize, mmapped)) => s.useMemory m tbase tsize mmapped nb
  else (s, mem)

/-- Where `dlmalloc` goes on when no bin has been used. -/
def dvTopSys (s : State) (m : Params) (nb : ℕ) (a : SysAnswer) : State × Option ℕ :=
  if nb ≤ s.dvsize then s.splitDv nb
  else if nb < s.topsize then s.splitTop nb
  else s.sysAlloc m nb a

/-- The chunk size of a small request. -/
def smallSize (bytes : ℕ) : ℕ := if bytes < MIN_REQUEST then MIN_CHUNK_SIZE else padRequest bytes

/-- `dlmalloc` -/
def dlmalloc (s : State) (m : Params) (bytes : ℕ) (a : SysAnswer) : Result :=
  if bytes ≤ MAX_SMALL_REQUEST then
    let nb := smallSize bytes
    let idx := nb / 8
    let smallbits := s.smallmap >>> idx
    if smallbits &&& 3#32 ≠ 0#32 then s.smallFit idx
    else if s.dvsize < nb then
      if smallbits ≠ 0#32 then s.nextSmall nb idx
      else if s.trees.treemap ≠ 0#32 then do
        let (s, mem) ← s.tmallocSmall nb
        if mem ≠ none then return (s, mem) else return s.dvTopSys m nb a
      else .ok (s.dvTopSys m nb a)
    else .ok (s.dvTopSys m nb a)
  else if MAX_REQUEST ≤ bytes then .ok (s.dvTopSys m MAX_SIZE_T a)
  else
    let nb := padRequest bytes
    if s.trees.treemap ≠ 0#32 then do
      let (s, mem) ← s.tmallocLarge nb
      if mem ≠ none then return (s, mem) else return s.dvTopSys m nb a
    else .ok (s.dvTopSys m nb a)

/-! ### Giving memory back -/

/-- `release_unused_segments` at one segment: what has been given back. -/
def releaseSegment (s : State) (munmap : ℕ → Bool) (sp : Segment) : State × ℕ :=
  let p := alignAsChunk sp.base
  let psize := s.chunksize p
  if sp.mmapped ∧ ¬ (s.head p).cinuse ∧ sp.base + sp.size - TOP_FOOT_SIZE ≤ p + psize then
    let s := if p = s.dv then { s with dv := 0, dvsize := 0 } else { s with trees := s.trees.unlinkLargeChunk p }
    if munmap sp.base then ({ s with seg := s.seg.erase sp }, sp.size)
    else ({ s with trees := s.trees.insertLargeChunk p psize }, 0)
  else (s, 0)

def releaseSegments (s : State) (munmap : ℕ → Bool) : List Segment → State × ℕ
  | [] => (s, 0)
  | sp :: rest =>
    let (s, released) := s.releaseSegment munmap sp
    let (s, more) := s.releaseSegments munmap rest
    (s, released + more)

/-- `release_unused_segments` -/
def releaseUnusedSegments (s : State) (munmap : ℕ → Bool) : State × ℕ := s.releaseSegments munmap s.seg.tail

/-- How much of the segment of `top` is given back. -/
def trimmed (s : State) (m : Params) (sp : Segment) (a : TrimAnswer) : ℕ :=
  let unit := m.granularity
  -- Where the sum is 2^32 or more, the product is the same with the sum that has wrapped around.
  let extra := ((s.topsize - TOP_FOOT_SIZE + (unit - 1)) / unit - 1) * unit
  if sp.mmapped then if extra ≤ sp.size ∧ a.unmapped then extra else 0
  else
    let extra := if HALF_MAX_SIZE_T ≤ extra then HALF_MAX_SIZE_T + 1 - unit else extra
    match a.oldBr, a.newBr extra with
    | some oldBr, some newBr => if oldBr = sp.base + sp.size ∧ newBr < oldBr then oldBr - newBr else 0
    | _, _ => 0

/-- `sys_trim` with `pad` 0, in a heap that has its first segment. -/
def sysTrim (s : State) (m : Params) (a : TrimAnswer) : State :=
  let (s, released) :=
    if TOP_FOOT_SIZE < s.topsize then
      match s.seg.find? (segmentHolds · s.top) with
      | none => (s, 0)
      | some sp =>
        let released := s.trimmed m sp a
        if released ≠ 0 then
          let s := { s with seg := s.seg.replace sp { sp with size := sp.size - released } }
          (s.initTop m s.top (s.topsize - released), released)
        else (s, 0)
    else (s, 0)
  let (s, more) := s.releaseUnusedSegments a.munmap
  if released + more = 0 then { s with trimCheck := MAX_SIZE_T } else s

/-! ### Freeing -/

/-- The free chunk `p` of `psize` bytes in front of `next`, merged with what is free there. -/
def consolidate (s : State) (m : Params) (p psize next : ℕ) (a : TrimAnswer) : Except Fault State :=
  if p < next ∧ (s.head next).pinuse then
    if ¬ (s.head next).cinuse then
      if next = s.top then
        let tsize := s.topsize + psize
        let s := { s with topsize := tsize, top := p }
        let s := s.setHead p ⟨tsize, true, false⟩
        let s := if p = s.dv then { s with dv := 0, dvsize := 0 } else s
        .ok (if s.trimCheck < tsize then s.sysTrim m a else s)
      else if next = s.dv then
        let dsize := s.dvsize + psize
        let s := { s with dvsize := dsize, dv := p }
        .ok (s.setSizeAndPinuseOfFreeChunk p dsize)
      else
        let nsize := s.chunksize next
        let psize := psize + nsize
        let s := (s.unlinkChunk next nsize).setSizeAndPinuseOfFreeChunk p psize
        .ok (if p = s.dv then { s with dvsize := psize } else s.insertChunk p psize)
    else .ok ((s.setFreeWithPinuse p psize next).insertChunk p psize)
  else .error .usage

/-- `dlfree`.  Whether a mapping of its own is unmapped changes nothing here. -/
def dlfree (s : State) (m : Params) (mem : ℕ) (a : TrimAnswer) : Except Fault State :=
  if mem = 0 then .ok s
  else
    let p := mem2chunk mem
    if s.leastAddr ≤ p ∧ (s.head p).cinuse then
      let psize := s.chunksize p
      let next := p + psize
      if ¬ (s.head p).pinuse then
        let prevsize := s.prevFoot p
        if prevsize % 2 = 1 then .ok s
        else
          let prev := p - prevsize
          let psize := psize + prevsize
          if s.leastAddr ≤ prev then
            if prev ≠ s.dv then (s.unlinkChunk prev prevsize).consolidate m prev psize next a
            else if (s.head next).pinuse ∧ (s.head next).cinuse then
              .ok ({ s with dvsize := psize }.setFreeWithPinuse prev psize next)
            else s.consolidate m prev psize next a
          else .error .usage
      else s.consolidate m p psize next a
    else .error .usage

/-- The state before the first call. -/
def initial : State where
  head _ := ⟨0, false, false⟩
  prevFoot _ := 0
  smallbins _ := []
  smallmap := 0#32
  trees := .empty
  dv := 0
  dvsize := 0
  top := 0
  topsize := 0
  leastAddr := 0
  seg := []
  trimCheck := 0
  contiguous := true

end State

end Bionic.Dlmalloc
