import Mathlib
import Bionic.DirStream
import Bionic.Iterate

/-! # Scanning a directory (`libc/unistd/opendir.c`)

`scandir` copies each entry that the filter keeps, with an assignment of the whole structure: it reads
`sizeof(struct dirent)` bytes, however long the entry is, where `readdir_r` copies `d_reclen` bytes.  So the copy of an
entry that begins in the last `sizeof(struct dirent)` bytes of the buffer reads on behind it; the copies stay in the
buffer just when no such entry comes to be copied (`copiesInside_iff`).

* **Allocation.**  The list of the entries is allocated for the first of them and enlarged for some of the others, and each
  entry is allocated by itself.  Whether these calls succeed is given by `Allocs`.  The pointer to a new entry is not
  checked, so the copy into it faults where there is no memory.
* **Result.**  What `namelist` and `compar` are for, the order of the copies, is left out. -/

namespace Bionic.ScanDir

open ByteMemory DirStream Iterate

/-! ### `scandir` -/

/-- Which calls of `malloc` and `realloc` succeed, by the number of the entries copied before: those for the list, and
those for an entry. -/
structure Allocs where
  list : ℕ → Bool
  entry : ℕ → Bool

structure Scan where
  stream : State
  nElem : ℕ
  listSize : ℕ
  /-- The addresses of the entries copied so far. -/
  copies : List Addr

/-- What the call returns, or `none` where it faults, and the addresses of the entries that it has copied. -/
structure Result where
  ret : Option ℤ
  copies : List Addr

/-- `!filter || (*filter)(this_de) != 0` -/
def keeps (filter : Option (List Byte → ℤ)) (bytes : List Byte) : Bool :=
  match filter with
  | none => true
  | some f => f bytes != 0

/-- The size of the list with room for one more entry, unless there is no memory for it. -/
def grow (A : Allocs) (s : Scan) : Option ℕ :=
  if s.nElem = 0 then if A.list 0 then some 4 else none
  else if s.nElem = s.listSize then if A.list s.nElem then some (s.listSize + 10) else none
  else some s.listSize

variable (e : Endian) (d : Dir) (filter : Option (List Byte → ℤ)) (A : Allocs)

/-- One pass of `while ((this_de = readdir(d)) != NULL)`. -/
def step (s : Scan) : Scan ⊕ Result :=
  let out := readdir e d s.stream
  match out.1 with
  | none => .inr ⟨some s.nElem, s.copies⟩
  | some thisDe =>
    if keeps filter (entryBytes e out.2.mem thisDe) then
      match grow A s with
      | none => .inr ⟨some (-1), s.copies⟩
      | some listSize =>
        if A.entry s.nElem then .inl ⟨out.2, s.nElem + 1, listSize, s.copies ++ [thisDe]⟩
        else .inr ⟨none, s.copies ++ [thisDe]⟩
    else .inl { s with stream := out.2 }

/-- `scandir` on an opened directory returns `r`. -/
def Scandir (m : Mem) (errno : ℕ) (P : Pass e) (r : Result) : Prop :=
  Returns (step e d filter A) ⟨opendir m errno P.replies, 0, 0, []⟩ r

/-- The call ends, and each copy `*de = *this_de` reads only bytes of `_DIR_buff`. -/
def CopiesInside (m : Mem) (errno : ℕ) (P : Pass e) : Prop :=
  ∃ r, Scandir e d filter A m errno P r ∧ ∀ a ∈ r.copies, range a SIZEOF_DIRENT ⊆ range d.buff SIZEOF_BUFF

variable {e}

/-- The entries that the filter keeps. -/
def kept (l : List (ℕ × Record e)) : List (ℕ × Record e) := l.filter fun p => keeps filter p.2.bytes

/-- The list is allocated or enlarged for the entry with this number. -/
def Grows (k : ℕ) : Prop := k = 0 ∨ k % 10 = 4

instance : DecidablePred Grows := fun k => inferInstanceAs (Decidable (k = 0 ∨ k % 10 = 4))

/-- From the `k`-th copy on, the allocations let the loop come to copy `i` entries and one more. -/
def ReachesFrom (k i : ℕ) : Prop :=
  (∀ j ≤ i, Grows (k + j) → A.list (k + j) = true) ∧ ∀ j < i, A.entry (k + j) = true

/-- The allocations for the entries before the `i`-th one succeed, and those of the list for them and for it. -/
def Reaches (i : ℕ) : Prop := (∀ j ≤ i, Grows j → A.list j = true) ∧ ∀ j < i, A.entry j = true

/-- The entries that are copied, of those that the filter keeps, from the `k`-th copy on. -/
def copied : ℕ → List (ℕ × Record e) → List (ℕ × Record e)
  | _, [] => []
  | k, p :: l => if Grows k ∧ A.list k = false then [] else p :: if A.entry k then copied (k + 1) l else []

/-! ### The loop -/

section Loop

variable {d filter A} {s : Scan} {r : Record e} {l : List (ℕ × Record e)} {o k i : ℕ} {p : ℕ × Record e}

/-- The size of the list behind `k` copies. -/
def sizeAt (k : ℕ) : ℕ := if k = 0 then 0 else 4 + 10 * ((k + 5) / 10)

theorem grow_eq (hsize : s.listSize = sizeAt s.nElem) :
    grow A s = if Grows s.nElem ∧ A.list s.nElem = false then none else some (sizeAt (s.nElem + 1)) := by
  unfold grow
  rw [hsize]
  unfold sizeAt Grows
  by_cases h0 : s.nElem = 0
  · rw [h0]
    cases A.list 0 <;> rfl
  · rw [if_neg h0, if_neg h0, if_neg (Nat.succ_ne_zero _)]
    by_cases hfull : s.nElem = 4 + 10 * ((s.nElem + 5) / 10)
    · rw [if_pos hfull]
      cases A.list s.nElem with
      | true =>
        rw [if_pos rfl, if_neg (by simp)]
        congr 1
        omega
      | false => rw [if_neg (by simp), if_pos ⟨by omega, rfl⟩]
    · rw [if_neg hfull, if_neg (by omega)]
      congr 1
      omega

theorem step_end (h : Ahead (e := e) d s.stream []) : step e d filter A s = .inr ⟨some s.nElem, s.copies⟩ := by
  rw [step, (readdir_end h).1]

theorem step_skip (h : Ahead d s.stream ((o, r) :: l)) (hr : keeps filter r.bytes = false) :
    step e d filter A s = .inl { s with stream := (readdir e d s.stream).2 } := by
  have hret := readdir_ahead h
  rw [step, hret.entry]
  dsimp only
  rw [hret.entryBytes_eq, if_neg (by simp [hr])]

/-- What a pass does with an entry that the filter keeps. -/
theorem step_keep (h : Ahead d s.stream ((o, r) :: l)) (hr : keeps filter r.bytes = true)
    (hsize : s.listSize = sizeAt s.nElem) : step e d filter A s =
      if Grows s.nElem ∧ A.list s.nElem = false then .inr ⟨some (-1), s.copies⟩
      else if A.entry s.nElem then
        .inl ⟨(readdir e d s.stream).2, s.nElem + 1, sizeAt (s.nElem + 1), s.copies ++ [d.buff + BitVec.ofNat 32 o]⟩
      else .inr ⟨none, s.copies ++ [d.buff + BitVec.ofNat 32 o]⟩ := by
  have hret := readdir_ahead h
  rw [step, hret.entry]
  dsimp only
  rw [hret.entryBytes_eq, if_pos hr, grow_eq hsize]
  by_cases hgrow : Grows s.nElem ∧ A.list s.nElem = false
  · rw [if_pos hgrow, if_pos hgrow]
  · rw [if_neg hgrow, if_neg hgrow]

/-- The address of an entry in the buffer. -/
def addressOf (d : Dir) (p : ℕ × Record e) : Addr := d.buff + BitVec.ofNat 32 p.1

/-- The loop ends, and has copied the entries of `copied`. -/
theorem loop_returns (filter : Option (List Byte → ℤ)) (A : Allocs) (h : Ahead d s.stream l) (hsize : s.listSize = sizeAt s.nElem) :
    ∃ ret, ∀ r, Returns (step e d filter A) s r ↔
      r = ⟨ret, s.copies ++ (copied A s.nElem (kept filter l)).map (addressOf d)⟩ := by
  induction l generalizing s with
  | nil => exact ⟨_, fun r => by rw [returns_done_iff (step_end h), kept, List.filter_nil, copied, List.map_nil, List.append_nil]⟩
  | cons p l ih =>
    obtain ⟨o, r⟩ := p
    have hahead := (readdir_ahead h).ahead
    cases hr : keeps filter r.bytes with
    | false =>
      obtain ⟨ret, hret⟩ := ih (s := { s with stream := (readdir e d s.stream).2 }) hahead hsize
      refine ⟨ret, fun q => ?_⟩
      rw [returns_next_iff (step_skip h hr), hret, kept, kept, List.filter_cons_of_neg (by simp [hr])]
    | true =>
      have hkept : kept filter ((o, r) :: l) = (o, r) :: kept filter l := List.filter_cons_of_pos hr
      have hstep := step_keep (A := A) h hr hsize
      rw [hkept, copied]
      by_cases hgrow : Grows s.nElem ∧ A.list s.nElem = false
      · rw [if_pos hgrow] at hstep ⊢
        exact ⟨_, fun q => by rw [returns_done_iff hstep, List.map_nil, List.append_nil]⟩
      · rw [if_neg hgrow] at hstep ⊢
        by_cases hentry : A.entry s.nElem = true
        · rw [if_pos hentry] at hstep ⊢
          obtain ⟨ret, hret⟩ := ih (s := ⟨_, s.nElem + 1, sizeAt (s.nElem + 1), _⟩) hahead rfl
          refine ⟨ret, fun q => ?_⟩
          rw [returns_next_iff hstep, hret, List.map_cons, List.append_assoc]
          rfl
        · rw [if_neg hentry] at hstep ⊢
          exact ⟨_, fun q => by rw [returns_done_iff hstep]; rfl⟩

theorem reachesFrom_zero : ReachesFrom A k 0 ↔ ¬ (Grows k ∧ A.list k = false) := by simp [ReachesFrom]

theorem reachesFrom_succ : ReachesFrom A k (i + 1) ↔
    ¬ (Grows k ∧ A.list k = false) ∧ A.entry k = true ∧ ReachesFrom A (k + 1) i := by
  have hshift : ∀ j, k + (j + 1) = k + 1 + j := by omega
  constructor
  · rintro ⟨hlist, hentry⟩
    refine ⟨reachesFrom_zero.mp ⟨fun j hj => hlist j (by omega), fun j hj => absurd hj (Nat.not_lt_zero j)⟩,
      hentry 0 (Nat.succ_pos i), fun j hj => ?_, fun j hj => ?_⟩
    · rw [← hshift]
      exact hlist (j + 1) (by omega)
    · rw [← hshift]
      exact hentry (j + 1) (by omega)
  · rintro ⟨hgrow, hk, hlist, hentry⟩
    refine ⟨fun j hj => ?_, fun j hj => ?_⟩
    · cases j with
      | zero => exact (reachesFrom_zero.mpr hgrow).1 0 le_rfl
      | succ j =>
        rw [hshift]
        exact hlist j (by omega)
    · cases j with
      | zero => exact hk
      | succ j =>
        rw [hshift]
        exact hentry j (by omega)

/-- An entry is copied if the loop comes to its number. -/
theorem mem_copied : p ∈ copied A k l ↔ ∃ i, l[i]? = some p ∧ ReachesFrom A k i := by
  induction l generalizing k with
  | nil => simp [copied]
  | cons q l ih =>
    have hcases : (∃ i, (q :: l)[i]? = some p ∧ ReachesFrom A k i) ↔
        p = q ∧ ReachesFrom A k 0 ∨ ∃ i, l[i]? = some p ∧ ReachesFrom A k (i + 1) := by
      constructor
      · rintro ⟨i, hi, hreach⟩
        cases i with
        | zero => exact Or.inl ⟨(Option.some.inj hi).symm, hreach⟩
        | succ i => exact Or.inr ⟨i, hi, hreach⟩
      · rintro (⟨rfl, hreach⟩ | ⟨i, hi, hreach⟩)
        · exact ⟨0, rfl, hreach⟩
        · exact ⟨i + 1, hi, hreach⟩
    rw [hcases, copied]
    by_cases hgrow : Grows k ∧ A.list k = false
    · simp [hgrow, reachesFrom_zero, reachesFrom_succ]
    · by_cases hentry : A.entry k = true
      · rw [if_neg hgrow, if_pos hentry, List.mem_cons, ih]
        simp only [reachesFrom_zero, reachesFrom_succ, hgrow, hentry, not_false_eq_true, true_and, and_true]
      · rw [if_neg hgrow, if_neg hentry, List.mem_singleton]
        simp only [reachesFrom_zero, reachesFrom_succ, hgrow, hentry, not_false_eq_true, Bool.false_eq_true,
          false_and, and_false, and_true, exists_false, or_false]

end Loop

/-! ### Where the entries are -/

section Places

variable {d filter A} {l : List (Record e)} {o : ℕ} {p : ℕ × Record e}

theorem placedFrom_getElem? (o : ℕ) (l : List (Record e)) (i : ℕ) :
    (placedFrom o l)[i]? = l[i]?.map fun r => (o + size (l.take i), r) := by
  induction l generalizing o i with
  | nil => rfl
  | cons r l ih =>
    cases i with
    | zero => rfl
    | succ i =>
      rw [placedFrom, List.getElem?_cons_succ, List.getElem?_cons_succ, ih, List.take_succ_cons, size_cons, Nat.add_assoc]

theorem placedFrom_fits (h : p ∈ placedFrom o l) : p.1 + p.2.size ≤ o + size l := by
  induction l generalizing o with
  | nil => simp [placedFrom] at h
  | cons r l ih =>
    rw [placedFrom, List.mem_cons] at h
    rw [size_cons]
    rcases h with rfl | h
    · exact Nat.add_le_add_left (Nat.le_add_right _ _) _
    · have hle := ih h
      omega

/-- Every entry of a pass ends in the buffer. -/
theorem placed_fits {P : Pass e} (h : p ∈ P.placed) : p.1 + p.2.size ≤ SIZEOF_BUFF := by
  obtain ⟨ev, -, hev⟩ := List.mem_flatMap.mp h
  cases ev with
  | interrupted => simp [Event.placed] at hev
  | batch b =>
    have hle := placedFrom_fits hev
    have hfits := b.fits
    omega

theorem kept_none (l : List (ℕ × Record e)) : kept none l = l := List.filter_eq_self.mpr fun _ _ => rfl

theorem mem_of_kept {P : Pass e} {i : ℕ} (h : (kept filter P.placed)[i]? = some p) : p ∈ P.placed :=
  List.mem_of_mem_filter (List.mem_of_getElem? h)

/-- A copy stays in the buffer just when the whole structure fits in behind the start of the entry. -/
theorem copy_inside_iff (h : p.1 + p.2.size ≤ SIZEOF_BUFF) :
    range (addressOf d p) SIZEOF_DIRENT ⊆ range d.buff SIZEOF_BUFF ↔ p.1 ≤ 14 * SIZEOF_DIRENT := by
  have hfits : p.1 + SIZEOF_DIRENT ≤ 2 ^ 32 := by
    simp only [SIZEOF_BUFF, SIZEOF_DIRENT] at h ⊢
    omega
  rw [addressOf, range_offset_subset (by decide) hfits, SIZEOF_BUFF]
  omega

/-- The copies are inside if and only if all entries that are copied begin early enough. -/
theorem copiesInside_iff_copied (m : Mem) (errno : ℕ) (P : Pass e) : CopiesInside e d filter A m errno P ↔
    ∀ p ∈ copied A 0 (kept filter P.placed), range (addressOf d p) SIZEOF_DIRENT ⊆ range d.buff SIZEOF_BUFF := by
  have hopen : Ahead d (opendir m errno P.replies) P.placed := ahead_pass d rfl rfl
  obtain ⟨ret, hret⟩ := loop_returns filter A (s := ⟨opendir m errno P.replies, 0, 0, []⟩) hopen rfl
  simp only [CopiesInside, Scandir, hret, List.nil_append, exists_eq_left, List.forall_mem_map]

end Places

/-- The copies stay inside of the buffer if and only if no entry that the filter keeps and that the allocations let the
loop come to begins behind the first 14 structures of the buffer (3920 bytes on ARM, MIPS and PowerPC). -/
theorem copiesInside_iff (e : Endian) (d : Dir) (filter : Option (List Byte → ℤ)) (A : Allocs) (m : Mem) (errno : ℕ)
    (P : Pass e) : CopiesInside e d filter A m errno P ↔
      ∀ i p, (kept filter P.placed)[i]? = some p → Reaches A i → p.1 ≤ 14 * SIZEOF_DIRENT := by
  have hreach : ∀ i, ReachesFrom A 0 i ↔ Reaches A i := fun i => by simp only [ReachesFrom, Reaches, Nat.zero_add]
  rw [copiesInside_iff_copied]
  constructor
  · intro h i p hp hi
    exact (copy_inside_iff (placed_fits (mem_of_kept hp))).mp (h p (mem_copied.mpr ⟨i, hp, (hreach i).mpr hi⟩))
  · intro h p hp
    obtain ⟨i, hi, hr⟩ := mem_copied.mp hp
    exact (copy_inside_iff (placed_fits (mem_of_kept hi))).mpr (h i p hi ((hreach i).mp hr))

/-- The entry of a file whose name has the two letters `x` and `y`. -/
def entryOf (x y : Byte) : Record .little where
  bytes := [1, 0, 0, 0, 0, 0, 0, 0, 1, 0, 0, 0, 0, 0, 0, 0, 24, 0, 8, x, y, 0, 0, 0]
  reclen := rfl
  aligned := by simp
  above := by simp [OFFSETOF_D_NAME]
  le := by simp [SIZEOF_DIRENT]
  nul := by simp [OFFSETOF_D_NAME]

/-- The entries of files with different names of two letters. -/
def entriesOf (n : ℕ) : List (Record .little) :=
  (List.range n).map fun i => entryOf (BitVec.ofNat 8 (65 + i / 25)) (BitVec.ofNat 8 (65 + i % 25))

theorem size_entriesOf (n : ℕ) : size (entriesOf n) = n * 24 := by
  induction n with
  | zero => rfl
  | succ n ih =>
    rw [entriesOf, List.range_succ, List.map_append, size, List.map_append, List.sum_append, ← size, ← entriesOf, ih,
      Nat.succ_mul]
    rfl

/-- 175 entries fill the buffer. -/
def fullBatch : Batch .little where
  records := entriesOf 175
  ne_nil := by simp [entriesOf]
  fits := by
    rw [size_entriesOf]
    decide

/-- The last of 175 entries of 24 bytes each begins at the offset 4176, and its copy reads 256 bytes behind the buffer. -/
theorem not_copiesInside_fullBatch : ¬ CopiesInside .little ⟨0x10010, by decide, by decide⟩ none
    ⟨fun _ => true, fun _ => true⟩ (fun _ => 0) 0 [.batch fullBatch] := by
  rw [copiesInside_iff_copied]
  intro h
  have hlast : (kept none (Pass.placed [.batch fullBatch]))[174]? = some (4176, entryOf 71 89) := by
    have htake : (entriesOf 175).take 174 = entriesOf 174 := by
      rw [entriesOf, ← List.map_take, List.take_range]
      rfl
    have hplaced : Pass.placed [.batch fullBatch] = placedFrom 0 (entriesOf 175) := List.append_nil _
    rw [kept_none, hplaced, placedFrom_getElem?, htake, size_entriesOf]
    simp [entriesOf]
  have hreaches : ReachesFrom ⟨fun _ => true, fun _ => true⟩ 0 174 := ⟨fun _ _ _ => rfl, fun _ _ => rfl⟩
  have hcopied := mem_copied.mpr ⟨174, hlast, hreaches⟩
  exact absurd ((copy_inside_iff (by decide)).mp (h _ hcopied)) (by decide)

end Bionic.ScanDir
