import Mathlib
import Bionic.ByteMemory
import Bionic.WordBits

/-! # Reading a directory (`libc/unistd/opendir.c`)

A directory stream has a buffer that one `getdents` call fills with several records of different lengths; `readdir` returns
a pointer to the next of them and fills the buffer again behind the last one.  A stream with well-formed records to come
(`Ahead`) returns the first of them and keeps the others (`readdir_ahead`), so that in every run of calls the records come
as from a list of them, which `rewinddir` replaces (`run_iterate`, `readdir_run`).

* **Buffer.**  A returned entry is an address in `_DIR_buff`.  The structure is 280 bytes long, on an 8-byte boundary, as
  on ARM, MIPS and PowerPC (276 bytes on x86, where 64-bit members are on 4-byte boundaries).
* **Kernel.**  What `getdents` will return in one pass over the directory is a list, with 0 behind its end; `lseek` begins
  another pass, which may find other records.
* **Lock.**  Both functions hold `_DIR_lock` throughout, so a run is a sequence of calls. -/

namespace Bionic.DirStream

open ByteMemory

abbrev Byte := BitVec 8

/-! ### The stream -/

/-- `sizeof(struct dirent)` on ARM, MIPS and PowerPC. -/
def SIZEOF_DIRENT : ℕ := 280

/-- `offsetof(struct dirent, d_reclen)` -/
def OFFSETOF_D_RECLEN : ℕ := 16

/-- `offsetof(struct dirent, d_name)` -/
def OFFSETOF_D_NAME : ℕ := 19

/-- `sizeof(dir->_DIR_buff)` -/
def SIZEOF_BUFF : ℕ := 15 * SIZEOF_DIRENT

def EINTR : ℕ := 4
def EINVAL : ℕ := 22

/-- A `DIR` in memory: where its `_DIR_buff` is. -/
structure Dir where
  buff : Addr
  aligned : buff.toNat % 4 = 0
  fits : buff.toNat + SIZEOF_BUFF < 2 ^ 32

/-- What a `getdents` call returns: -1 with an error, or the number of bytes that it has stored. -/
inductive Reply
  | failed (err : ℕ)
  | data (bytes : List Byte)

structure State where
  mem : Mem
  avail : BitVec 32
  next : Addr
  errno : ℕ
  replies : List Reply

/-- The loop around `getdents`: its last reply, `errno` behind it, and the replies to come. -/
def getdentsLoop : List Reply → ℕ → Reply × ℕ × List Reply
  | [], errno => (.data [], errno, [])
  | .failed err :: rs, _ => if err = EINTR then getdentsLoop rs err else (.failed err, err, rs)
  | .data bytes :: rs, errno => (.data bytes, errno, rs)

/-- `memchr(a, 0, n)` finds a byte. -/
def hasNul (m : Mem) (a : Addr) (n : ℕ) : Bool := (bytesAt m a n).contains 0

/-- `entry->d_reclen` -/
def dReclen (e : Endian) (m : Mem) (entry : Addr) : ℕ := (read16 e m (entry + BitVec.ofNat 32 OFFSETOF_D_RECLEN)).toNat

/-- `_readdir_unlocked`, from `entry = dir->_DIR_next` on. -/
def takeEntry (e : Endian) (d : Dir) (s : State) : Option Addr × State :=
  let entry := s.next
  let reclen := dReclen e s.mem entry
  if entry &&& 3 ≠ 0 then (none, s)
  else if reclen > SIZEOF_DIRENT ∨ reclen ≤ OFFSETOF_D_NAME then (none, { s with errno := EINVAL })
  else if entry + BitVec.ofNat 32 reclen > d.buff + BitVec.ofNat 32 SIZEOF_BUFF then (none, { s with errno := EINVAL })
  else if hasNul s.mem (entry + BitVec.ofNat 32 OFFSETOF_D_NAME) (reclen - OFFSETOF_D_NAME) then
    (some entry, { s with next := entry + BitVec.ofNat 32 reclen, avail := s.avail - BitVec.ofNat 32 reclen })
  else (none, { s with errno := EINVAL })

/-- `_readdir_unlocked`, and so `readdir`. -/
def readdir (e : Endian) (d : Dir) (s : State) : Option Addr × State :=
  if s.avail = 0 then
    match getdentsLoop s.replies s.errno with
    | (.failed _, errno, rs) => (none, { s with errno := errno, replies := rs })
    | (.data bytes, errno, rs) =>
      let s := { s with
        mem := fill s.mem d.buff bytes.length fun i => bytes.getD i 0
        errno := errno
        replies := rs }
      if bytes = [] then (none, s) else takeEntry e d { s with avail := BitVec.ofNat 32 bytes.length, next := d.buff }
  else takeEntry e d s

/-- `rewinddir`; `pass` is what `getdents` returns behind the `lseek`. -/
def rewinddir (s : State) (pass : List Reply) : State := { s with replies := pass, avail := 0 }

/-- `opendir` and `fdopendir`, in a memory `m`. -/
def opendir (m : Mem) (errno : ℕ) (pass : List Reply) : State := ⟨m, 0, 0, errno, pass⟩

/-! ### Well-formed replies -/

/-- The bytes of a directory entry. -/
structure Record (e : Endian) where
  bytes : List Byte
  reclen : dReclen e (ofBytes bytes) 0 = bytes.length
  aligned : bytes.length % 4 = 0
  above : OFFSETOF_D_NAME < bytes.length
  le : bytes.length ≤ SIZEOF_DIRENT
  nul : 0 ∈ bytes.drop OFFSETOF_D_NAME

variable {e : Endian}

def Record.size (r : Record e) : ℕ := r.bytes.length

def size (l : List (Record e)) : ℕ := (l.map Record.size).sum

/-- What one `getdents` call stores. -/
structure Batch (e : Endian) where
  records : List (Record e)
  ne_nil : records ≠ []
  fits : size records ≤ SIZEOF_BUFF

/-- A `getdents` call is interrupted, or stores records. -/
inductive Event (e : Endian)
  | interrupted
  | batch (b : Batch e)

def Event.reply : Event e → Reply
  | .interrupted => .failed EINTR
  | .batch b => .data (b.records.flatMap Record.bytes)

/-- The calls in one pass over a directory. -/
abbrev Pass (e : Endian) := List (Event e)

def Pass.replies (P : Pass e) : List Reply := P.map Event.reply

/-- Records with their offsets in the buffer, the first of them at `o`. -/
def placedFrom : ℕ → List (Record e) → List (ℕ × Record e)
  | _, [] => []
  | o, r :: l => (o, r) :: placedFrom (o + r.size) l

def Event.placed : Event e → List (ℕ × Record e)
  | .interrupted => []
  | .batch b => placedFrom 0 b.records

/-- The records of a pass, with their offsets in the buffer. -/
def Pass.placed (P : Pass e) : List (ℕ × Record e) := P.flatMap Event.placed

/-- The records of a pass. -/
def Pass.records (P : Pass e) : List (Record e) := P.placed.map Prod.snd

/-! ### One entry -/

section Entry

variable {d : Dir} {m : Mem} {next : Addr} {r : Record e} {here : List (Record e)} {o : ℕ} {s : State}

@[simp] theorem size_nil : size ([] : List (Record e)) = 0 := rfl

@[simp] theorem size_cons (r : Record e) (l : List (Record e)) : size (r :: l) = r.size + size l := List.sum_cons

theorem length_flatMap_bytes (l : List (Record e)) : (l.flatMap Record.bytes).length = size l := by
  rw [List.length_flatMap]
  rfl

/-- The records `here` are in the buffer, from the offset `o` on, and `next` points to them. -/
structure At (d : Dir) (m : Mem) (next : Addr) (here : List (Record e)) (o : ℕ) : Prop where
  next_eq : next = d.buff + BitVec.ofNat 32 o
  aligned : o % 4 = 0
  fits : o + size here ≤ SIZEOF_BUFF
  bytes : bytesAt m next (size here) = here.flatMap Record.bytes

theorem At.toNat_add (h : At d m next here o) {k : ℕ} (hk : o + k ≤ SIZEOF_BUFF) :
    (next + BitVec.ofNat 32 k).toNat = d.buff.toNat + o + k := by
  have hfits := d.fits
  rw [h.next_eq, offset_add, BitVec.toNat_add, BitVec.toNat_ofNat]
  omega

theorem At.split (h : At d m next (r :: here) o) :
    bytesAt m next r.size = r.bytes ∧ bytesAt m (next + BitVec.ofNat 32 r.size) (size here) = here.flatMap Record.bytes := by
  have hb := h.bytes
  rw [size_cons, bytesAt_add, List.flatMap_cons] at hb
  exact List.append_inj hb length_bytesAt

theorem At.tail (h : At d m next (r :: here) o) : At d m (next + BitVec.ofNat 32 r.size) here (o + r.size) where
  next_eq := by rw [h.next_eq, offset_add]
  aligned := by
    have hr := r.aligned
    have ho := h.aligned
    rw [Record.size]
    omega
  fits := by
    have hfits := h.fits
    rw [size_cons] at hfits
    omega
  bytes := h.split.2

theorem At.dReclen_eq (h : At d m next (r :: here) o) : dReclen e m next = r.size := by
  have habove := r.above
  have hle := r.le
  have hread : read16 e m (next + BitVec.ofNat 32 OFFSETOF_D_RECLEN) =
      read16 e (ofBytes r.bytes) (BitVec.ofNat 32 OFFSETOF_D_RECLEN) := by
    refine read16_of_bytesAt h.split.1 ?_ ?_
    · simp only [OFFSETOF_D_RECLEN, OFFSETOF_D_NAME, Record.size] at habove ⊢
      omega
    · simp only [SIZEOF_DIRENT, Record.size] at hle ⊢
      omega
  have hrec := r.reclen
  rw [dReclen, zero_add] at hrec
  rw [dReclen, hread, hrec, Record.size]

theorem At.entry_aligned (h : At d m next here o) : next &&& 3 = 0 := by
  have hfits := h.fits
  have haddr := h.toNat_add (k := 0) (by omega)
  have ho := h.aligned
  have hd := d.aligned
  rw [BitVec.add_zero] at haddr
  have hlow := WordBits.toNat_and_lowMask next 3 2 rfl
  apply BitVec.eq_of_toNat_eq
  rw [hlow]
  show next.toNat % 4 = 0
  omega

theorem At.hasNul (h : At d m next (r :: here) o) :
    hasNul m (next + BitVec.ofNat 32 OFFSETOF_D_NAME) (r.size - OFFSETOF_D_NAME) = true := by
  rw [DirStream.hasNul, bytesAt_drop h.split.1 (Nat.le_of_lt r.above), List.contains_iff_mem]
  exact r.nul

/-- A record that is in the buffer passes all checks. -/
theorem takeEntry_at (h : At d s.mem s.next (r :: here) o) : takeEntry e d s =
    (some s.next, { s with next := s.next + BitVec.ofNat 32 r.size, avail := s.avail - BitVec.ofNat 32 r.size }) := by
  have hsize : ¬ (r.size > SIZEOF_DIRENT ∨ r.size ≤ OFFSETOF_D_NAME) := by
    have habove := r.above
    have hle := r.le
    unfold Record.size
    omega
  have hend : ¬ s.next + BitVec.ofNat 32 r.size > d.buff + BitVec.ofNat 32 SIZEOF_BUFF := by
    have hfits := h.fits
    have hd := d.fits
    rw [size_cons] at hfits
    rw [gt_iff_lt, BitVec.lt_def, h.toNat_add (by omega), BitVec.toNat_add, BitVec.toNat_ofNat]
    omega
  simp only [takeEntry, h.dReclen_eq]
  rw [if_neg (not_not.mpr h.entry_aligned), if_neg hsize, if_neg hend, if_pos h.hasNul]

end Entry

/-! ### The records to come -/

section Ahead

variable {d : Dir} {s : State} {r : Record e} {l : List (ℕ × Record e)} {o : ℕ}

/-- The stream has the records `l` to come, at these offsets: first those in the buffer, then those of the next calls. -/
def Ahead (d : Dir) (s : State) (l : List (ℕ × Record e)) : Prop :=
  ∃ (here : List (Record e)) (o : ℕ) (P : Pass e), s.replies = P.replies ∧ l = placedFrom o here ++ P.placed ∧
    s.avail = BitVec.ofNat 32 (size here) ∧ (here ≠ [] → At d s.mem s.next here o)

/-- A call has returned the record `r`, at the offset `o`, and has the records `l` to come. -/
structure Returned (d : Dir) (out : Option Addr × State) (o : ℕ) (r : Record e) (l : List (ℕ × Record e)) : Prop where
  entry : out.1 = some (d.buff + BitVec.ofNat 32 o)
  fits : o + r.size ≤ SIZEOF_BUFF
  bytes : bytesAt out.2.mem (d.buff + BitVec.ofNat 32 o) r.size = r.bytes
  reclen : dReclen e out.2.mem (d.buff + BitVec.ofNat 32 o) = r.size
  ahead : Ahead d out.2 l

theorem ahead_pass (d : Dir) {P : Pass e} (hreplies : s.replies = P.replies) (havail : s.avail = 0) : Ahead d s P.placed :=
  ⟨[], 0, P, hreplies, rfl, havail, fun h => absurd rfl h⟩

/-- The loop around `getdents` comes to the end of the pass, or to its first batch. -/
theorem getdentsLoop_pass (P : Pass e) (errno : ℕ) :
    (∃ errno', getdentsLoop P.replies errno = (.data [], errno', []) ∧ P.placed = []) ∨
      ∃ (b : Batch e) (errno' : ℕ) (P' : Pass e),
        getdentsLoop P.replies errno = (.data (b.records.flatMap Record.bytes), errno', P'.replies) ∧
          P.placed = placedFrom 0 b.records ++ P'.placed := by
  induction P generalizing errno with
  | nil => exact Or.inl ⟨errno, rfl, rfl⟩
  | cons ev P ih =>
    cases ev with
    | interrupted => exact ih EINTR
    | batch b => exact Or.inr ⟨b, errno, P, rfl, rfl⟩

theorem Record.size_pos (r : Record e) : 0 < r.size := Nat.zero_lt_of_lt r.above

theorem avail_ne_zero {here : List (Record e)} (hfits : r.size + size here ≤ SIZEOF_BUFF) :
    BitVec.ofNat 32 (size (r :: here)) ≠ 0 := by
  have hpos := r.size_pos
  intro h
  have hzero := congrArg BitVec.toNat h
  rw [size_cons, BitVec.toNat_ofNat, Nat.mod_eq_of_lt (by simp only [SIZEOF_BUFF, SIZEOF_DIRENT] at hfits; omega)] at hzero
  exact absurd hzero (by show ¬ r.size + size here = 0; omega)

theorem takeEntry_returned {here : List (Record e)} {P : Pass e} (h : At d s.mem s.next (r :: here) o)
    (havail : s.avail = BitVec.ofNat 32 (size (r :: here))) (hreplies : s.replies = P.replies) :
    Returned d (takeEntry e d s) o r (placedFrom (o + r.size) here ++ P.placed) := by
  have hfits := h.fits
  rw [size_cons] at hfits
  rw [takeEntry_at h]
  refine ⟨congrArg some h.next_eq, by omega, ?_, ?_, here, o + r.size, P, hreplies, rfl, ?_, fun _ => h.tail⟩
  · rw [← h.next_eq]
    exact h.split.1
  · rw [← h.next_eq]
    exact h.dReclen_eq
  · show s.avail - BitVec.ofNat 32 r.size = BitVec.ofNat 32 (size here)
    rw [havail, size_cons, BitVec.ofNat_add, BitVec.add_comm, BitVec.add_sub_cancel]

/-- A `getdents` call puts its records at the start of the buffer. -/
theorem at_fill (d : Dir) (m : Mem) (b : Batch e) : At d
    (fill m d.buff (b.records.flatMap Record.bytes).length fun i => (b.records.flatMap Record.bytes).getD i 0)
    d.buff b.records 0 where
  next_eq := (BitVec.add_zero d.buff).symm
  aligned := rfl
  fits := by
    rw [Nat.zero_add]
    exact b.fits
  bytes := by
    have hfits := b.fits
    rw [← length_flatMap_bytes] at hfits ⊢
    exact bytesAt_fill (by simp only [SIZEOF_BUFF, SIZEOF_DIRENT] at hfits; omega)

/-- A call returns the first of the records to come, and the others stay. -/
theorem readdir_ahead (h : Ahead d s ((o, r) :: l)) : Returned d (readdir e d s) o r l := by
  obtain ⟨here, o', P, hreplies, hl, havail, hat⟩ := h
  cases here with
  | cons r' here =>
    obtain ⟨⟨rfl, rfl⟩, rfl⟩ : (o = o' ∧ r = r') ∧ l = placedFrom (o' + r'.size) here ++ P.placed := by
      simpa [placedFrom] using hl
    have hat := hat (List.cons_ne_nil r here)
    have hfits := hat.fits
    rw [size_cons] at hfits
    rw [readdir, if_neg (havail ▸ avail_ne_zero (by omega))]
    exact takeEntry_returned hat havail hreplies
  | nil =>
    rw [placedFrom, List.nil_append] at hl
    rcases getdentsLoop_pass P s.errno with ⟨errno', -, hend⟩ | ⟨b, errno', P', hloop, hplaced⟩
    · rw [hend] at hl
      cases hl
    · obtain ⟨r', here, hb⟩ := List.exists_cons_of_ne_nil b.ne_nil
      obtain ⟨⟨rfl, rfl⟩, rfl⟩ : (o = 0 ∧ r = r') ∧ l = placedFrom (0 + r'.size) here ++ P'.placed := by
        simpa [hplaced, hb, placedFrom] using hl
      have hbytes : b.records.flatMap Record.bytes ≠ [] := by
        have hpos := r.size_pos
        rw [Record.size, List.length_pos_iff] at hpos
        simp [hb, hpos]
      have havail : s.avail = 0 := havail
      have hfill := at_fill d s.mem b
      rw [readdir, if_pos havail, hreplies, hloop]
      dsimp only
      rw [if_neg hbytes]
      rw [hb] at hfill ⊢
      exact takeEntry_returned hfill (by rw [length_flatMap_bytes]) rfl

/-- Without records to come a call returns NULL. -/
theorem readdir_end (h : Ahead (e := e) d s []) : (readdir e d s).1 = none ∧ Ahead (e := e) d (readdir e d s).2 [] := by
  obtain ⟨here, o, P, hreplies, hl, havail, -⟩ := h
  obtain ⟨hhere, hP⟩ := List.append_eq_nil_iff.mp hl.symm
  cases here with
  | cons r here => cases hhere
  | nil =>
    have havail : s.avail = 0 := havail
    rcases getdentsLoop_pass P s.errno with ⟨errno', hend, -⟩ | ⟨b, errno', P', -, hplaced⟩
    · rw [readdir, if_pos havail, hreplies, hend]
      exact ⟨rfl, ahead_pass d (P := []) rfl havail⟩
    · obtain ⟨r, here, hb⟩ := List.exists_cons_of_ne_nil b.ne_nil
      rw [hP, hb, placedFrom] at hplaced
      cases hplaced

end Ahead

/-! ### Runs -/

inductive Call (e : Endian)
  | readdir
  | rewinddir (pass : Pass e)

/-- The bytes of an entry, as many as its `d_reclen` tells. -/
def entryBytes (e : Endian) (m : Mem) (entry : Addr) : List Byte := bytesAt m entry (dReclen e m entry)

/-- What the calls of `readdir` return: an entry or NULL. -/
def outputs (d : Dir) : State → List (Call e) → List (Option (List Byte))
  | _, [] => []
  | s, .readdir :: cs =>
    let out := readdir e d s
    out.1.map (entryBytes e out.2.mem) :: outputs d out.2 cs
  | s, .rewinddir P :: cs => outputs d (rewinddir s P.replies) cs

/-- The same calls on a list of records, from which each call takes the first. -/
def iterate : List (Record e) → List (Call e) → List (Option (List Byte))
  | _, [] => []
  | l, .readdir :: cs => l.head?.map Record.bytes :: iterate l.tail cs
  | _, .rewinddir P :: cs => iterate P.records cs

/-- The first `n` of a list of records, with NULLs behind its end. -/
def firsts (l : List (Record e)) (n : ℕ) : List (Option (List Byte)) :=
  (List.range n).map fun i => l[i]?.map Record.bytes

section Runs

variable {d : Dir} {s : State} {l : List (ℕ × Record e)}

theorem Returned.entryBytes_eq {out : Option Addr × State} {o : ℕ} {r : Record e} (h : Returned d out o r l) :
    entryBytes e out.2.mem (d.buff + BitVec.ofNat 32 o) = r.bytes := by
  rw [entryBytes, h.reclen, h.bytes]

/-- In every run the stream answers as the list of the records to come. -/
theorem run_iterate (h : Ahead d s l) (cs : List (Call e)) : outputs d s cs = iterate (l.map Prod.snd) cs := by
  induction cs generalizing s l with
  | nil => rfl
  | cons c cs ih =>
    cases c with
    | rewinddir P => exact ih (ahead_pass d rfl rfl)
    | readdir =>
      cases l with
      | nil =>
        obtain ⟨hnone, hahead⟩ := readdir_end h
        rw [outputs, hnone, iterate, ih hahead]
        rfl
      | cons p l =>
        obtain ⟨o, r⟩ := p
        have hret := readdir_ahead h
        rw [outputs, hret.entry, Option.map_some, hret.entryBytes_eq, iterate, ih hret.ahead]
        rfl

theorem iterate_append_rewinddir (l : List (Record e)) (cs : List (Call e)) (Q : Pass e) (cs' : List (Call e)) :
    iterate l (cs ++ .rewinddir Q :: cs') = iterate l cs ++ iterate Q.records cs' := by
  induction cs generalizing l with
  | nil => rfl
  | cons c cs ih =>
    cases c with
    | readdir => rw [List.cons_append, iterate, iterate, ih, List.cons_append]
    | rewinddir P => exact ih P.records

theorem iterate_replicate (l : List (Record e)) (n : ℕ) : iterate l (List.replicate n .readdir) = firsts l n := by
  induction n generalizing l with
  | zero => rfl
  | succ n ih =>
    rw [List.replicate_succ, iterate, ih, firsts, firsts, List.range_succ_eq_map, List.map_cons, List.map_map]
    cases l with
    | nil => simp [Function.comp_def]
    | cons r l => rfl

end Runs

/-- From the opening of the directory on, and from each `rewinddir` on whatever was read before, successive `readdir` calls
return the records of the pass, each once and in order, and NULL behind them. -/
theorem readdir_run (e : Endian) (d : Dir) (m : Mem) (errno : ℕ) (P : Pass e) :
    (∀ n, outputs d (opendir m errno P.replies) (List.replicate n (.readdir : Call e)) = firsts P.records n) ∧
      ∀ (cs : List (Call e)) (Q : Pass e) (n : ℕ),
        outputs d (opendir m errno P.replies) (cs ++ .rewinddir Q :: List.replicate n .readdir) =
          outputs d (opendir m errno P.replies) cs ++ firsts Q.records n := by
  have hopen : Ahead d (opendir m errno P.replies) P.placed := ahead_pass d rfl rfl
  constructor
  · intro n
    rw [run_iterate hopen, iterate_replicate, Pass.records]
  · intro cs Q n
    rw [run_iterate hopen, run_iterate hopen, iterate_append_rewinddir, iterate_replicate]

end Bionic.DirStream
