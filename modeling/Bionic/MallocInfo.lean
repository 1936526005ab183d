import Mathlib
import Bionic.MallocLeakRun

/-! # The report on the heap (`libc/bionic/malloc_leak.c`)

`get_malloc_leak_info` puts the entries of the hash table into a list, sorts it, and packs a record of each into a
buffer: its size, the number of its allocations, and its backtrace.  The local list is a Lean list.  What `qsort` makes
of it is a parameter, like the answers of the allocator: a permutation that is sorted for `hash_entry_compare`. -/

namespace Bionic.MallocInfo

open ByteMemory StateExcept
open MallocLeak (Word State Fault word HASHTABLE_SIZE BACKTRACE_SIZE SIZE_FLAG_MASK dlmalloc dlfree
  nextField numEntriesField sizeField allocationsField backtraceField backtraceOf)

/-! ### The order -/

/-- The size without the flag. -/
def plainSize (m : Mem) (e : Addr) : Word := word m e sizeField &&& ~~~SIZE_FLAG_MASK

/-- `hash_entry_compare` -/
def hashEntryCompare (m : Mem) (e₁ e₂ : Addr) : ℤ :=
  let nbAlloc₁ := word m e₁ allocationsField
  let nbAlloc₂ := word m e₂ allocationsField
  let alloc₁ := nbAlloc₁ * plainSize m e₁
  let alloc₂ := nbAlloc₂ * plainSize m e₂
  if alloc₁ > alloc₂ then -1
  else if alloc₁ < alloc₂ then 1
  else if nbAlloc₁ > nbAlloc₂ then -1
  else if nbAlloc₁ < nbAlloc₂ then 1
  else 0

/-- What `qsort` may make of the list. -/
def Sorts (m : Mem) (l l' : List Addr) : Prop := l'.Perm l ∧ l'.Pairwise fun e e' => hashEntryCompare m e e' ≤ 0

instance (m : Mem) (l l' : List Addr) : Decidable (Sorts m l l') := inferInstanceAs (Decidable (_ ∧ _))

/-! ### The report -/

/-- The variables of the caller. -/
structure Out where
  info : Addr
  overallSize : Word
  infoSize : Word
  totalMemory : Word
  backtraceSize : Word
deriving DecidableEq

/-- The answers of the allocator for the list and for the buffer, and that of `qsort`. -/
structure Answers where
  list : Addr
  info : Addr
  sorted : List Addr

/-- The loop over a chain, which appends to the list and adds to `*totalMemory`.  The first argument bounds it. -/
def collectChain (m : Mem) : ℕ → Addr → List Addr × Word → Except Fault (List Addr × Word)
  | 0, _, _ => .error .loops
  | fuel + 1, e, (list, total) =>
      if e = 0#32 then .ok (list, total)
      else collectChain m fuel (word m e nextField) (list ++ [e], total + plainSize m e * word m e allocationsField)

/-- The loop over the slots. -/
def collect (s : State) (total : Word) : Except Fault (List Addr × Word) :=
  (List.range HASHTABLE_SIZE).foldlM (fun acc i => collectChain s.mem (2 ^ 32) (s.slots i) acc) ([], total)

/-- `*infoSize` -/
def recordSize : Word := 4#32 * 2#32 + 4#32 * BitVec.ofNat 32 BACKTRACE_SIZE

theorem toNat_recordSize : recordSize.toNat = 136 := by decide

/-- A round of the packing loop. -/
def writeRecord (m : Mem) (head e : Addr) : Mem :=
  let entrySize := 4#32 * 2#32 + 4#32 * word m e numEntriesField
  if entrySize < recordSize then
    memcpy (fill m head recordSize.toNat fun _ => 0#8) head (wordAt e sizeField) entrySize.toNat
  else memcpy m head (wordAt e sizeField) recordSize.toNat

/-- The packing loop. -/
def writeRecords (m : Mem) (head : Addr) : List Addr → Mem
  | [] => m
  | e :: list => writeRecords (writeRecord m head e) (head + recordSize) list

/-- `get_malloc_leak_info`.  There are no variables of the caller if one of the pointers is null; the allocation of the
list does not fail. -/
def getMallocLeakInfo (s : State) (out : Option Out) (c : Answers) : Except Fault (Option Out × State) := do
  match out with
  | none => return (none, s)
  | some out =>
      if s.count = 0#32 then return (some ⟨0#32, 0#32, 0#32, 0#32, 0#32⟩, s)
      let s ← dlmalloc s (4#32 * s.count) c.list
      if c.list = 0#32 then throw .impossible
      let (list, total) ← collect s out.totalMemory
      let overallSize := recordSize * s.count
      let s ← dlmalloc s overallSize c.info
      let out := { out with
        info := c.info, overallSize := overallSize, infoSize := recordSize, totalMemory := total,
        backtraceSize := BitVec.ofNat 32 BACKTRACE_SIZE }
      if c.info = 0#32 then return (some { out with overallSize := 0#32 }, s)
      if ¬ Sorts s.mem (list.take s.count.toNat) c.sorted then throw .impossible
      -- `count` is an `int`
      let m := writeRecords s.mem c.info (c.sorted.take s.count.toInt.toNat)
      return (some out, ← dlfree { s with mem := m } c.list)

/-! ### Records -/

@[ext] structure Record where
  size : Word
  allocations : Word
  backtrace : List Word
deriving DecidableEq, Repr

/-- The total size. -/
def Record.total (r : Record) : ℕ := (r.size &&& ~~~SIZE_FLAG_MASK).toNat * r.allocations.toNat

/-- Descending by the total size, and then by the number of allocations. -/
def Record.Ahead (r r' : Record) : Prop :=
  r'.total < r.total ∨ r'.total = r.total ∧ r'.allocations.toNat ≤ r.allocations.toNat

/-- The same with the total sizes modulo `2 ^ 32`. -/
def Record.WrappedAhead (r r' : Record) : Prop :=
  r'.total % 2 ^ 32 < r.total % 2 ^ 32 ∨
    r'.total % 2 ^ 32 = r.total % 2 ^ 32 ∧ r'.allocations.toNat ≤ r.allocations.toNat

/-- The record of an entry, with its backtrace padded or truncated. -/
def recordOf (m : Mem) (e : Addr) : Record where
  size := word m e sizeField
  allocations := word m e allocationsField
  backtrace := (backtraceOf m e ++ List.replicate BACKTRACE_SIZE 0#32).take BACKTRACE_SIZE

/-- The record at an address of the buffer. -/
def readRecord (m : Mem) (a : Addr) : Record where
  size := word m a 0
  allocations := word m a 1
  backtrace := (List.range BACKTRACE_SIZE).map fun i => word m a (2 + i)

/-- The first `n` records of the buffer. -/
def readRecords (m : Mem) (info : Addr) (n : ℕ) : List Record :=
  (List.range n).map fun i => readRecord m (info + BitVec.ofNat 32 (recordSize.toNat * i))

section Words

variable {m m' : Mem} {a b : Addr} {n i : ℕ}

theorem word_congr (agree : ∀ x ∈ range a n, m' x = m x) (le : 4 * i + 4 ≤ n) (lt : n ≤ 2 ^ 32) :
    word m' a i = word m a i := MallocLeak.Agree.word (b := (a, n)) agree le lt

theorem word_memcpy (le : 4 * i + 4 ≤ n) (lt : n ≤ 2 ^ 32) : word (memcpy m a b n) a i = word m b i := by
  have byte (j : ℕ) (hj : j < 4) :
      wordByte .little (memcpy m a b n) (wordAt a i) j = wordByte .little m (wordAt b i) j := by
    have at_byte (c : Addr) : wordAt c i + BitVec.ofNat 32 j = c + BitVec.ofNat 32 (4 * i + j) := by
      rw [wordAt, offset_add]
    show (memcpy m a b n (wordAt a i + BitVec.ofNat 32 j)).toNat = (m (wordAt b i + BitVec.ofNat 32 j)).toNat
    rw [at_byte, at_byte, memcpy_add (by omega) lt]
  rw [word, word, read32, read32, byte 0 (by omega), byte 1 (by omega), byte 2 (by omega), byte 3 (by omega)]

/-- The words behind what is copied. -/
theorem word_memcpy_of_le (le : n ≤ 4 * i) (lt : 4 * i + 4 ≤ 2 ^ 32) : word (memcpy m a b n) a i = word m a i :=
  read32_congr fun _ hx => memcpy_of_notMem fun hx' => Set.disjoint_left.1 (disjoint_range le lt) hx' hx

theorem word_fill_zero (le : 4 * i + 4 ≤ n) (lt : n ≤ 2 ^ 32) : word (fill m a n fun _ => 0#8) a i = 0#32 := by
  have byte (j : ℕ) (hj : j < 4) : wordByte .little (fill m a n fun _ => 0#8) (wordAt a i) j = 0 := by
    show (fill m a n (fun _ => 0#8) (wordAt a i + BitVec.ofNat 32 j)).toNat = 0
    rw [wordAt, offset_add, fill_add (by omega) lt]
    rfl
  rw [word, read32, byte 0 (by omega), byte 1 (by omega), byte 2 (by omega), byte 3 (by omega)]
  rfl

theorem word_wordAt (j : ℕ) : word m (wordAt a j) i = word m a (j + i) := by
  rw [word, word, wordAt_wordAt]

end Words

section Records

variable {m m' : Mem} {a e : Addr}

/-- The words of a record that are padded. -/
theorem padded_eq (m : Mem) (e : Addr) : (recordOf m e).backtrace = (List.range BACKTRACE_SIZE).map fun i =>
    if i < (word m e numEntriesField).toNat then word m e (backtraceField + i) else 0#32 := by
  have len := MallocLeak.length_backtraceOf m e
  refine List.ext_getElem ?_ fun i h₁ h₂ => ?_
  · rw [recordOf, List.length_take, List.length_append, List.length_replicate, List.length_map, List.length_range]
    omega
  · simp only [recordOf, List.getElem_take, List.getElem_map, List.getElem_range, List.getElem_append, len,
      List.getElem_replicate]
    split
    · simp only [backtraceOf, List.getElem_map, List.getElem_range]
    · rfl

theorem recordOf_congr (num : word m' e numEntriesField = word m e numEntriesField)
    (agree : ∀ i < 2 + (word m e numEntriesField).toNat, word m' e (sizeField + i) = word m e (sizeField + i)) :
    recordOf m' e = recordOf m e := by
  have backtrace : backtraceOf m' e = backtraceOf m e := by
    refine MallocLeak.backtraceOf_congr num fun i hi => ?_
    rw [MallocLeak.length_backtraceOf] at hi
    have same := agree (2 + i) (by omega)
    rwa [← Nat.add_assoc] at same
  rw [recordOf, recordOf, backtrace]
  exact congrArg₂ (fun size allocations => Record.mk size allocations _) (agree 0 (by omega)) (agree 1 (by omega))

theorem writeRecord_of_notMem {x : Addr} (out : x ∉ range a recordSize.toNat) : writeRecord m a e x = m x := by
  rw [writeRecord]
  split
  · next less =>
    rw [memcpy_of_notMem fun hx => out (Nat.lt_trans (mem_range.1 hx) (BitVec.lt_def.1 less)), fill_of_notMem out]
  · exact memcpy_of_notMem out

/-- The record that is written is that of the entry. -/
theorem readRecord_writeRecord (bound : 24 + 4 * (word m e numEntriesField).toNat < 2 ^ 32)
    (apart : Disjoint (range e (24 + 4 * (word m e numEntriesField).toNat)) (range a recordSize.toNat)) :
    readRecord (writeRecord m a e) a = recordOf m e := by
  set num := (word m e numEntriesField).toNat with num_eq
  have entrySize : (4#32 * 2#32 + 4#32 * word m e numEntriesField).toNat = 8 + 4 * num := by
    rw [BitVec.toNat_add, BitVec.toNat_mul, BitVec.toNat_mul, ← num_eq]
    simp only [BitVec.toNat_ofNat]
    omega
  have at_word (i : ℕ) (lt : i < 34) : word (writeRecord m a e) a i =
      if i < 2 + num then word m e (sizeField + i) else 0#32 := by
    rw [writeRecord]
    split
    · next less =>
      have less := BitVec.lt_def.1 less
      rw [entrySize, toNat_recordSize] at less
      rw [entrySize, toNat_recordSize]
      split
      · next copied =>
        rw [word_memcpy (by omega) (by omega), word_wordAt]
        refine word_congr (fun x hx => fill_of_notMem fun hx' => ?_) (n := 24 + 4 * num) ?_ (by omega)
        · exact Set.disjoint_left.1 apart hx (toNat_recordSize ▸ hx')
        · simp only [sizeField]
          omega
      · rw [word_memcpy_of_le (by omega) (by omega), word_fill_zero (by omega) (by omega)]
    · next full =>
      have full := Nat.le_of_not_lt fun less => full (BitVec.lt_def.2 less)
      rw [entrySize, toNat_recordSize] at full
      rw [if_pos (by omega), toNat_recordSize, word_memcpy (by omega) (by omega), word_wordAt]
  have backtrace : (readRecord (writeRecord m a e) a).backtrace = (recordOf m e).backtrace := by
    rw [padded_eq]
    refine List.map_congr_left fun i hi => ?_
    have lt : i < 32 := List.mem_range.1 hi
    rw [at_word _ (by omega)]
    refine if_congr (by omega) ?_ rfl
    rw [← Nat.add_assoc]
    rfl
  have first : word (writeRecord m a e) a 0 = word m e sizeField := (at_word 0 (by omega)).trans (if_pos (by omega))
  have second : word (writeRecord m a e) a 1 = word m e allocationsField :=
    (at_word 1 (by omega)).trans (if_pos (by omega))
  exact Record.ext first second backtrace

theorem readRecord_congr (agree : ∀ x ∈ range a recordSize.toNat, m' x = m x) : readRecord m' a = readRecord m a := by
  rw [toNat_recordSize] at agree
  apply Record.ext (word_congr agree (by omega) (by omega)) (word_congr agree (by omega) (by omega))
  refine List.map_congr_left fun i hi => word_congr agree ?_ (by omega)
  have lt : i < 32 := List.mem_range.1 hi
  omega

/-! ### The packing loop -/

/-- The entry is as far as its backtrace goes in memory that the buffer is not in. -/
def Apart (m : Mem) (e : Addr) (a : Addr) (n : ℕ) : Prop :=
  24 + 4 * (word m e numEntriesField).toNat < 2 ^ 32 ∧
    Disjoint (range e (24 + 4 * (word m e numEntriesField).toNat)) (range a n)

/-- The first of `n + 1` records, and the rest of them. -/
theorem range_first_subset (a : Addr) (n : ℕ) : range a recordSize.toNat ⊆ range a (recordSize.toNat * (n + 1)) :=
  fun _ hx => Nat.lt_of_lt_of_le (mem_range.1 hx) (Nat.le_mul_of_pos_right _ (Nat.succ_pos n))

theorem range_rest_subset {n : ℕ} (bound : recordSize.toNat * (n + 1) ≤ 2 ^ 32) :
    range (a + recordSize) (recordSize.toNat * n) ⊆ range a (recordSize.toNat * (n + 1)) := by
  have step : a + recordSize = a + BitVec.ofNat 32 136 := rfl
  rw [toNat_recordSize] at bound ⊢
  rw [step]
  exact range_add_subset (by omega) (by omega)

theorem disjoint_first_rest {n : ℕ} (bound : recordSize.toNat * (n + 1) ≤ 2 ^ 32) :
    Disjoint (range a recordSize.toNat) (range (a + recordSize) (recordSize.toNat * n)) := by
  have step : a + recordSize = a + BitVec.ofNat 32 136 := rfl
  rw [toNat_recordSize] at bound ⊢
  rw [step]
  exact disjoint_range (Nat.le_refl _) (by omega)

theorem writeRecords_of_notMem {l : List Addr} {x : Addr} (bound : recordSize.toNat * l.length ≤ 2 ^ 32)
    (out : x ∉ range a (recordSize.toNat * l.length)) : writeRecords m a l x = m x := by
  induction l generalizing m a with
  | nil => rfl
  | cons e l ih =>
      rw [List.length_cons] at bound out
      have bound' : recordSize.toNat * l.length ≤ 2 ^ 32 := (Nat.mul_le_mul_left _ (Nat.le_succ _)).trans bound
      rw [writeRecords, ih bound' fun hx => out (range_rest_subset bound hx),
        writeRecord_of_notMem fun hx => out (range_first_subset a _ hx)]

/-- Another record is written. -/
theorem Apart.writeRecord {b : Addr} {n : ℕ} (apart : Apart m e a n) (sub : range b recordSize.toNat ⊆ range a n)
    (e' : Addr) : recordOf (writeRecord m b e') e = recordOf m e ∧ Apart (writeRecord m b e') e a n := by
  obtain ⟨bound, disjoint⟩ := apart
  have agree : ∀ x ∈ range e (24 + 4 * (word m e numEntriesField).toNat), MallocInfo.writeRecord m b e' x = m x :=
    fun x hx => writeRecord_of_notMem fun hx' => Set.disjoint_left.1 disjoint hx (sub hx')
  have num : word (MallocInfo.writeRecord m b e') e numEntriesField = word m e numEntriesField :=
    word_congr agree (by simp only [numEntriesField]; omega) (by omega)
  refine ⟨recordOf_congr num fun i hi => word_congr agree ?_ (by omega), ?_⟩
  · simp only [sizeField]
    omega
  · rw [Apart, num]
    exact ⟨bound, disjoint⟩

theorem readRecords_writeRecords {l : List Addr} (bound : recordSize.toNat * l.length ≤ 2 ^ 32)
    (apart : ∀ e ∈ l, Apart m e a (recordSize.toNat * l.length)) :
    readRecords (writeRecords m a l) a l.length = l.map (recordOf m) := by
  induction l generalizing m a with
  | nil => rfl
  | cons e l ih =>
      rw [List.length_cons] at bound apart
      have bound' : recordSize.toNat * l.length ≤ 2 ^ 32 := (Nat.mul_le_mul_left _ (Nat.le_succ _)).trans bound
      have sub := range_first_subset a l.length
      have others (e' : Addr) (he' : e' ∈ l) := (apart e' (List.mem_cons_of_mem _ he')).writeRecord sub e
      have first : readRecord (writeRecords (writeRecord m a e) (a + recordSize) l) a = recordOf m e := by
        obtain ⟨lt, disjoint⟩ := apart e List.mem_cons_self
        rw [readRecord_congr fun x hx => writeRecords_of_notMem bound' fun hx' =>
          Set.disjoint_left.1 (disjoint_first_rest bound) hx hx']
        exact readRecord_writeRecord lt (disjoint.mono_right sub)
      have tail := ih (m := writeRecord m a e) (a := a + recordSize) bound' fun e' he' =>
        ⟨(others e' he').2.1, (others e' he').2.2.mono_right (range_rest_subset bound)⟩
      rw [List.map_congr_left fun e' he' => (others e' he').1] at tail
      rw [writeRecords, readRecords, List.length_cons, List.range_succ_eq_map, List.map_cons, List.map_map,
        List.map_cons, ← tail]
      refine congrArg₂ List.cons ?_ (List.map_congr_left fun i _ => ?_)
      · rw [Nat.mul_zero, BitVec.add_zero]
        exact first
      · have shift : a + BitVec.ofNat 32 (recordSize.toNat * (i + 1)) =
            a + recordSize + BitVec.ofNat 32 (recordSize.toNat * i) := by
          rw [BitVec.add_assoc, Nat.mul_succ, Nat.add_comm, BitVec.ofNat_add]
          rfl
        exact congrArg (readRecord _) shift

end Records

/-! ### The content of the table -/

/-- The entries from `a` on. -/
def Chain (m : Mem) : Addr → List Addr → Prop
  | a, [] => a = 0#32
  | a, e :: l => a = e ∧ e ≠ 0#32 ∧ Chain m (word m e nextField) l

/-- The entries of all slots. -/
def entriesOf (chains : ℕ → List Addr) : List Addr := (List.range HASHTABLE_SIZE).flatMap chains

/-- The entries are in blocks that have room for their backtraces, however long. -/
structure Content (s : State) (chains : ℕ → List Addr) : Prop where
  blocks : MallocLeak.Blocks s.blocks
  chain : ∀ i < HASHTABLE_SIZE, Chain s.mem (s.slots i) (chains i)
  count : s.count.toNat = (entriesOf chains).length
  nodup : (entriesOf chains).Nodup
  block : ∀ e ∈ entriesOf chains, ∃ n, (e, n) ∈ s.blocks ∧ 24 + 4 * (word s.mem e numEntriesField).toNat ≤ n

/-- The total size of the entries. -/
def totalSize (m : Mem) (l : List Addr) : ℕ := (l.map fun e => (recordOf m e).total).sum

section Content

variable {m : Mem} {a e : Addr} {l list : List Addr} {total : Word} {fuel : ℕ} {s : State} {chains : ℕ → List Addr}

theorem ofNat_total (m : Mem) (e : Addr) :
    BitVec.ofNat 32 (recordOf m e).total = plainSize m e * word m e allocationsField := by
  rw [Record.total, BitVec.ofNat_mul, BitVec.ofNat_toNat, BitVec.ofNat_toNat, BitVec.setWidth_eq, BitVec.setWidth_eq]
  rfl

theorem collectChain_eq (chain : Chain m a l) (enough : l.length < fuel) :
    collectChain m fuel a (list, total) = .ok (list ++ l, total + BitVec.ofNat 32 (totalSize m l)) := by
  induction l generalizing a fuel list total with
  | nil =>
      cases fuel with
      | zero => exact absurd enough (Nat.not_lt_zero _)
      | succ fuel =>
          rw [collectChain, if_pos (show a = 0#32 from chain), List.append_nil]
          exact congrArg (fun total => Except.ok (list, total)) (BitVec.add_zero total).symm
  | cons e l ih =>
      cases fuel with
      | zero => exact absurd enough (Nat.not_lt_zero _)
      | succ fuel =>
          obtain ⟨rfl, null, chain⟩ := chain
          have sum : totalSize m (a :: l) = (recordOf m a).total + totalSize m l := List.sum_cons
          rw [collectChain, if_neg null, ih chain (Nat.lt_of_succ_lt_succ enough), List.append_assoc, sum,
            BitVec.ofNat_add, ofNat_total, BitVec.add_assoc]
          rfl

theorem length_le_entriesOf {i : ℕ} (hi : i < HASHTABLE_SIZE) : (chains i).length ≤ (entriesOf chains).length := by
  rw [entriesOf, List.length_flatMap]
  exact List.le_sum_of_mem (List.mem_map_of_mem (f := fun i => (chains i).length) (List.mem_range.2 hi))

theorem totalSize_append (m : Mem) (l l' : List Addr) : totalSize m (l ++ l') = totalSize m l + totalSize m l' := by
  rw [totalSize, List.map_append, List.sum_append]
  rfl

theorem foldlM_collectChain (chain : ∀ i < HASHTABLE_SIZE, Chain s.mem (s.slots i) (chains i))
    (enough : ∀ i < HASHTABLE_SIZE, (chains i).length < fuel) {slots : List ℕ} (known : ∀ i ∈ slots, i < HASHTABLE_SIZE)
    (list : List Addr) (total : Word) :
    slots.foldlM (fun acc i => collectChain s.mem fuel (s.slots i) acc) (list, total) =
      .ok (list ++ slots.flatMap chains, total + BitVec.ofNat 32 (totalSize s.mem (slots.flatMap chains))) := by
  induction slots generalizing list total with
  | nil =>
      rw [List.foldlM_nil, List.flatMap_nil, List.append_nil]
      exact congrArg (fun total => Except.ok (list, total)) (BitVec.add_zero total).symm
  | cons i slots ih =>
      have hi := known i List.mem_cons_self
      rw [List.foldlM_cons, collectChain_eq (chain i hi) (enough i hi), ok_bind,
        ih fun i hi => known i (List.mem_cons_of_mem _ hi), List.flatMap_cons, List.append_assoc, totalSize_append,
        BitVec.ofNat_add, BitVec.add_assoc]

theorem Content.collect_eq (h : Content s chains) (total : Word) :
    collect s total = .ok (entriesOf chains, total + BitVec.ofNat 32 (totalSize s.mem (entriesOf chains))) := by
  have bound : (entriesOf chains).length < 2 ^ 32 := h.count ▸ s.count.isLt
  have enough (i : ℕ) (hi : i < HASHTABLE_SIZE) : (chains i).length < 2 ^ 32 :=
    Nat.lt_of_le_of_lt (length_le_entriesOf hi) bound
  have run := foldlM_collectChain h.chain enough (fun i (hi : i ∈ List.range HASHTABLE_SIZE) => List.mem_range.1 hi) []
    total
  rw [List.nil_append] at run
  rw [collect, run, entriesOf]

/-- The entries are at different multiples of eight. -/
theorem Content.length_lt (h : Content s chains) : (entriesOf chains).length ≤ 2 ^ 29 := by
  have nodup : ((entriesOf chains).map fun e => e.toNat / 8).Nodup := by
    refine h.nodup.map_on fun e he e' he' same => BitVec.eq_of_toNat_eq ?_
    obtain ⟨n, block, -⟩ := h.block e he
    obtain ⟨n', block', -⟩ := h.block e' he'
    have aligned := (h.blocks.placed _ block).2.1
    have aligned' := (h.blocks.placed _ block').2.1
    dsimp only at aligned aligned'
    omega
  have sub : ((entriesOf chains).map fun e => e.toNat / 8) ⊆ List.range (2 ^ 29) := by
    intro n hn
    obtain ⟨e, -, rfl⟩ := List.mem_map.1 hn
    have := e.isLt
    exact List.mem_range.2 (by omega)
  have len := (List.subperm_of_subset nodup sub).length_le
  rwa [List.length_map, List.length_range] at len

end Content

/-! ### The sorted list -/

section Sorted

variable {m : Mem} {e e' : Addr} {l : List Addr}

theorem toNat_alloc (m : Mem) (e : Addr) :
    (word m e allocationsField * plainSize m e).toNat = (recordOf m e).total % 2 ^ 32 := by
  rw [BitVec.mul_comm, ← ofNat_total, BitVec.toNat_ofNat]

/-- `hash_entry_compare` compares the products modulo `2 ^ 32`. -/
theorem hashEntryCompare_le : hashEntryCompare m e e' ≤ 0 ↔ (recordOf m e).WrappedAhead (recordOf m e') := by
  have alloc := toNat_alloc m e
  have alloc' := toNat_alloc m e'
  have count : (recordOf m e).allocations = word m e allocationsField := rfl
  have count' : (recordOf m e').allocations = word m e' allocationsField := rfl
  rw [Record.WrappedAhead, ← alloc, ← alloc', count, count', hashEntryCompare]
  simp only [gt_iff_lt, BitVec.lt_def]
  split_ifs <;> omega

/-- The first entry may stand before the second. -/
def mayPrecede (m : Mem) (e e' : Addr) : Bool := hashEntryCompare m e e' ≤ 0

theorem mayPrecede_iff : mayPrecede m e e' = true ↔ (recordOf m e).WrappedAhead (recordOf m e') :=
  decide_eq_true_iff.trans hashEntryCompare_le

theorem mayPrecede_trans (a b c : Addr) (hab : mayPrecede m a b = true) (hbc : mayPrecede m b c = true) :
    mayPrecede m a c = true := by
  rw [mayPrecede_iff, Record.WrappedAhead] at *
  omega

theorem mayPrecede_total (a b : Addr) : (mayPrecede m a b || mayPrecede m b a) = true := by
  rw [Bool.or_eq_true, mayPrecede_iff, mayPrecede_iff, Record.WrappedAhead, Record.WrappedAhead]
  omega

/-- There is a sorted list. -/
theorem sorts_mergeSort {l₀ : List Addr} (perm : l₀.Perm l) : Sorts m l (l₀.mergeSort (mayPrecede m)) :=
  ⟨(List.mergeSort_perm ..).trans perm,
    (List.pairwise_mergeSort mayPrecede_trans mayPrecede_total _).imp of_decide_eq_true⟩

/-- There is a sorted list with two entries in the order in which they may stand. -/
theorem exists_sorts (he : e ∈ l) (he' : e' ∈ l) (ne : e ≠ e')
    (ahead : (recordOf m e).WrappedAhead (recordOf m e')) : ∃ l', Sorts m l l' ∧ [e, e'].Sublist l' := by
  have perm : (e :: e' :: (l.erase e).erase e').Perm l := by
    have rest : e' ∈ l.erase e := (List.mem_erase_of_ne ne.symm).2 he'
    exact ((List.perm_cons_erase rest).symm.cons e).trans (List.perm_cons_erase he).symm
  refine ⟨_, sorts_mergeSort perm, List.pair_sublist_mergeSort mayPrecede_trans mayPrecede_total ?_ ?_⟩
  · exact mayPrecede_iff.2 ahead
  · exact ((List.nil_sublist _).cons_cons e').cons_cons e

end Sorted

/-! ### The report -/

/-- What is to be reported for the entries `l`. -/
structure Reported (s : State) (l : List Addr) (out : Out) (s' : State) : Prop where
  totalMemory : out.totalMemory = BitVec.ofNat 32 (totalSize s.mem l)
  overallSize : out.overallSize.toNat = recordSize.toNat * l.length
  block : l ≠ [] → (out.info, out.overallSize.toNat) ∈ s'.blocks
  records : (readRecords s'.mem out.info l.length).Perm (l.map (recordOf s.mem))
  sorted : (readRecords s'.mem out.info l.length).Pairwise Record.Ahead

/-- It is reported if the allocator gives the list and the buffer. -/
def Reports (s : State) (l : List Addr) (out : Out) : Prop :=
  ∀ c, c.info ≠ 0#32 → Ends (· = .impossible) (getMallocLeakInfo s (some out) c) fun r =>
    ∃ out', r.1 = some out' ∧ Reported s l out' r.2

/-- The allocator can give the list and the buffer. -/
structure Gives (s : State) (list info : Addr) : Prop where
  forList : MallocLeak.Fresh s.blocks list (4#32 * s.count).toNat
  forInfo : MallocLeak.Fresh ((list, (4#32 * s.count).toNat) :: s.blocks) info (recordSize * s.count).toNat

/-- The variables of the caller after the report. -/
def outOf (s : State) (total : Word) (info : Addr) : Out where
  info := info
  overallSize := recordSize * s.count
  infoSize := recordSize
  totalMemory := total
  backtraceSize := BitVec.ofNat 32 BACKTRACE_SIZE

/-- The state after the report. -/
def stateOf (s : State) (c : Answers) : State :=
  { s with
    mem := writeRecords s.mem c.info c.sorted
    blocks := ((c.info, (recordSize * s.count).toNat) :: (c.list, (4#32 * s.count).toNat) :: s.blocks).filter
      fun b => b.1 ≠ c.list }

section Report

variable {s : State} {chains : ℕ → List Addr} {out : Out} {c : Answers}

theorem dlmalloc_eq {n : Word} {a : Addr} (fresh : MallocLeak.Fresh s.blocks a n.toNat) :
    dlmalloc s n a = .ok { s with blocks := (a, n.toNat) :: s.blocks } := by
  rw [dlmalloc, if_neg fresh.1, if_pos fresh]

section Collected

variable {l : List Addr} {total : Word} (collected : collect s out.totalMemory = .ok (l, total))
  (count : s.count.toNat = l.length) (bound : l.length ≤ 2 ^ 29) (some_entry : s.count ≠ 0#32)

include collected count bound some_entry

/-- The report, once the entries are collected. -/
theorem info_eq (gives : Gives s c.list c.info) (sorts : Sorts s.mem l c.sorted) :
    getMallocLeakInfo s (some out) c = .ok (some (outOf s total c.info), stateOf s c) := by
  have int : s.count.toInt.toNat = s.count.toNat := by
    rw [BitVec.toInt_eq_toNat_of_lt (by omega), Int.toNat_natCast]
  have all : l.take s.count.toNat = l := by rw [count, List.take_length]
  have all' : c.sorted.take s.count.toInt.toNat = c.sorted := by
    rw [int, count, ← sorts.1.length_eq, List.take_length]
  have isBlock : MallocLeak.IsBlock
      ((c.info, (recordSize * s.count).toNat) :: (c.list, (4#32 * s.count).toNat) :: s.blocks) c.list :=
    ⟨_, List.mem_cons_of_mem _ List.mem_cons_self, rfl⟩
  have collected' : collect { s with blocks := (c.list, (4#32 * s.count).toNat) :: s.blocks } out.totalMemory =
      .ok (l, total) := collected
  rw [getMallocLeakInfo]
  dsimp only
  rw [if_neg some_entry, dlmalloc_eq gives.forList, ok_bind, if_neg gives.forList.1, collected', ok_bind]
  dsimp only
  rw [dlmalloc_eq gives.forInfo, ok_bind, if_neg gives.forInfo.1]
  dsimp only
  rw [all, if_neg (not_not.2 sorts), all', dlfree, if_pos isBlock, ok_bind]
  rfl

/-- All other answers are impossible. -/
theorem info_ends {Q : Option Out × State → Prop} (ne : c.info ≠ 0#32)
    (returned : Gives s c.list c.info → Sorts s.mem l c.sorted → Q (some (outOf s total c.info), stateOf s c)) :
    Ends (· = .impossible) (getMallocLeakInfo s (some out) c) Q := by
  have collected' : collect { s with blocks := (c.list, (4#32 * s.count).toNat) :: s.blocks } out.totalMemory =
      .ok (l, total) := collected
  by_cases ok : Gives s c.list c.info ∧ Sorts s.mem l c.sorted
  · rw [info_eq collected count bound some_entry ok.1 ok.2]
    exact returned ok.1 ok.2
  rw [getMallocLeakInfo]
  dsimp only
  rw [if_neg some_entry]
  by_cases null : c.list = 0#32
  · rw [dlmalloc, if_pos null, ok_bind, if_pos null]
    exact rfl
  by_cases forList : MallocLeak.Fresh s.blocks c.list (4#32 * s.count).toNat
  · rw [dlmalloc_eq forList, ok_bind, if_neg null, collected', ok_bind]
    dsimp only
    by_cases forInfo : MallocLeak.Fresh ((c.list, (4#32 * s.count).toNat) :: s.blocks) c.info
        (recordSize * s.count).toNat
    · have all : l.take s.count.toNat = l := by rw [count, List.take_length]
      rw [dlmalloc_eq forInfo, ok_bind, if_neg ne]
      dsimp only
      rw [all, if_pos fun sorts => ok ⟨⟨forList, forInfo⟩, sorts⟩]
      exact rfl
    · rw [dlmalloc, if_neg ne, if_neg forInfo]
      exact rfl
  · rw [dlmalloc, if_neg null, if_neg forList]
    exact rfl

end Collected

/-- The entries do not meet the buffer. -/
theorem Content.apart (h : Content s chains) (gives : Gives s c.list c.info) {e : Addr} (he : e ∈ entriesOf chains) :
    Apart s.mem e c.info (recordSize * s.count).toNat := by
  obtain ⟨n, block, room⟩ := h.block e he
  obtain ⟨-, -, bound⟩ := h.blocks.placed _ block
  dsimp only at bound
  refine ⟨by omega, Set.disjoint_left.2 fun x hx hx' => ?_⟩
  obtain ⟨-, -, bound', meets⟩ := gives.forInfo
  have apart := (meets _ (List.mem_cons_of_mem _ block)).2
  rw [mem_range, BitVec.toNat_sub] at hx hx'
  have := x.isLt
  dsimp only at apart
  omega

theorem Content.overallSize (h : Content s chains) (fits : recordSize.toNat * (entriesOf chains).length < 2 ^ 32) :
    (recordSize * s.count).toNat = recordSize.toNat * (entriesOf chains).length := by
  rw [BitVec.toNat_mul, h.count, Nat.mod_eq_of_lt fits]

/-- The records in the buffer, in the order of the sorted list. -/
theorem Content.records (h : Content s chains) (fits : recordSize.toNat * (entriesOf chains).length < 2 ^ 32)
    (gives : Gives s c.list c.info) (perm : c.sorted.Perm (entriesOf chains)) :
    readRecords (stateOf s c).mem c.info (entriesOf chains).length = c.sorted.map (recordOf s.mem) := by
  rw [← perm.length_eq] at fits ⊢
  refine readRecords_writeRecords (Nat.le_of_lt fits) fun e he => ?_
  have apart := h.apart gives (perm.mem_iff.1 he)
  rwa [h.overallSize (perm.length_eq ▸ fits), ← perm.length_eq] at apart

theorem Content.reported (h : Content s chains) (fits : recordSize.toNat * (entriesOf chains).length < 2 ^ 32)
    (agree : ∀ e ∈ entriesOf chains, ∀ e' ∈ entriesOf chains,
      (recordOf s.mem e).WrappedAhead (recordOf s.mem e') → (recordOf s.mem e).Ahead (recordOf s.mem e'))
    (gives : Gives s c.list c.info) (sorts : Sorts s.mem (entriesOf chains) c.sorted) :
    Reported s (entriesOf chains) (outOf s (BitVec.ofNat 32 (totalSize s.mem (entriesOf chains))) c.info)
      (stateOf s c) where
  totalMemory := rfl
  overallSize := h.overallSize fits
  block _ := by
    have ne : c.info ≠ c.list := (gives.forInfo.2.2.2 _ List.mem_cons_self).1.symm
    exact List.mem_filter.2 ⟨List.mem_cons_self, decide_eq_true ne⟩
  records := by
    rw [show (outOf s _ c.info).info = c.info from rfl, h.records fits gives sorts.1]
    exact sorts.1.map _
  sorted := by
    rw [show (outOf s _ c.info).info = c.info from rfl, h.records fits gives sorts.1, List.pairwise_map]
    refine sorts.2.imp_of_mem fun he he' le => agree _ (sorts.1.mem_iff.1 he) _ (sorts.1.mem_iff.1 he') ?_
    exact hashEntryCompare_le.1 le

/-- The allocator can give the list and the buffer. -/
def Room (s : State) : Prop := ∃ list info, Gives s list info

/-- When the report is right. -/
def Right (s : State) (l : List Addr) (out : Out) : Prop :=
  l = [] ∨ ¬ Room s ∨ out.totalMemory = 0#32 ∧ recordSize.toNat * l.length < 2 ^ 32 ∧
    ∀ e ∈ l, ∀ e' ∈ l,
      (recordOf s.mem e).WrappedAhead (recordOf s.mem e') → (recordOf s.mem e).Ahead (recordOf s.mem e')

theorem Content.count_ne (h : Content s chains) (some_entry : entriesOf chains ≠ []) : s.count ≠ 0#32 := by
  intro zero
  have count := h.count
  rw [zero] at count
  exact some_entry (List.eq_nil_of_length_eq_zero count.symm)

theorem Content.reports (h : Content s chains) (right : Right s (entriesOf chains) out) :
    Reports s (entriesOf chains) out := by
  intro c ne
  by_cases none_there : entriesOf chains = []
  · have zero : s.count = 0#32 := BitVec.eq_of_toNat_eq (by rw [h.count, none_there]; rfl)
    rw [getMallocLeakInfo]
    dsimp only
    rw [if_pos zero, none_there]
    exact ⟨_, rfl, rfl, rfl, fun some_entry => absurd rfl some_entry, .nil, .nil⟩
  · refine info_ends (h.collect_eq out.totalMemory) h.count h.length_lt (h.count_ne none_there) ne fun gives sorts => ?_
    obtain ⟨zero, fits, agree⟩ := (right.resolve_left none_there).resolve_left (not_not.2 ⟨_, _, gives⟩)
    rw [zero, BitVec.zero_add]
    exact ⟨_, rfl, h.reported fits agree gives sorts⟩

theorem Content.right_of_reports (h : Content s chains) (reports : Reports s (entriesOf chains) out) :
    Right s (entriesOf chains) out := by
  by_cases none_there : entriesOf chains = []
  · exact .inl none_there
  by_cases room : Room s
  · obtain ⟨list, info, gives⟩ := room
    have reported {sorted : List Addr} (sorts : Sorts s.mem (entriesOf chains) sorted) :
        Reported s (entriesOf chains)
          (outOf s (out.totalMemory + BitVec.ofNat 32 (totalSize s.mem (entriesOf chains))) info)
          (stateOf s ⟨list, info, sorted⟩) := by
      have ends := reports ⟨list, info, sorted⟩ gives.forInfo.1
      rw [info_eq (h.collect_eq out.totalMemory) h.count h.length_lt (h.count_ne none_there) gives sorts] at ends
      obtain ⟨out', same, reported⟩ := ends
      rwa [← Option.some.inj same] at reported
    have any := reported (sorts_mergeSort (List.Perm.refl _))
    have zero : out.totalMemory = 0#32 := BitVec.add_left_eq_self.1 any.totalMemory
    have fits : recordSize.toNat * (entriesOf chains).length < 2 ^ 32 := any.overallSize ▸ BitVec.isLt _
    refine .inr (.inr ⟨zero, fits, fun e he e' he' ahead => ?_⟩)
    by_cases same : e = e'
    · rw [same]
      exact .inr ⟨rfl, Nat.le_refl _⟩
    · obtain ⟨sorted, sorts, sub⟩ := exists_sorts he he' same ahead
      have pairwise := (reported sorts).sorted
      rw [show (outOf s _ info).info = info from rfl, h.records fits gives sorts.1, List.pairwise_map] at pairwise
      exact List.rel_of_pairwise_cons (pairwise.sublist sub) List.mem_cons_self
  · exact .inr (.inl room)

/-- When `get_malloc_leak_info` reports the heap, for any content of the table and any variables of the caller. -/
theorem reports_iff (h : Content s chains) (out : Out) :
    Reports s (entriesOf chains) out ↔ Right s (entriesOf chains) out :=
  ⟨h.right_of_reports, h.reports⟩

end Report

/-! ### Heaps of the leak checker -/

section Sound

open LinkedRing
open MallocLeak (nextOf prevOf Linked Entry)

variable {s : State} {chains : ℕ → List Addr}

theorem chain_of_path {slot : ℕ} {last a : Addr} {l : List Addr} (path : Path (nextOf s slot) (prevOf s last) a l 0#32)
    (null : 0#32 ∉ l) : Chain s.mem (nextOf s slot a) l := by
  induction l generalizing a with
  | nil => exact path.1
  | cons e l ih =>
      obtain ⟨⟨next, -⟩, rest⟩ := path
      have ne : e ≠ 0#32 := fun zero => null (zero ▸ List.mem_cons_self)
      have behind : nextOf s slot e = word s.mem e nextField := if_neg ne
      have chain := ih rest fun h => null (List.mem_cons_of_mem _ h)
      rw [behind] at chain
      exact ⟨next, ne, chain⟩

theorem sum_range_eq (n : ℕ) (f : ℕ → ℕ) : ∑ i ∈ Finset.range n, f i = ((List.range n).map f).sum := rfl

/-- The table of the leak checker is such a table. -/
theorem content_of_linked (h : Linked s chains) (blocks : MallocLeak.Blocks s.blocks) : Content s chains where
  blocks := blocks
  chain i hi := by
    obtain ⟨last, ring⟩ := h.chained i hi
    have head : nextOf s i 0#32 = s.slots i := if_pos rfl
    exact head ▸ chain_of_path ring.path ring.notMem
  count := by
    rw [h.count, entriesOf, List.length_flatMap]
    exact sum_range_eq HASHTABLE_SIZE fun i => (chains i).length
  nodup := by
    refine List.nodup_flatMap.2 ⟨fun i hi => ?_, ?_⟩
    · obtain ⟨last, ring⟩ := h.chained i (List.mem_range.1 hi)
      exact (List.nodup_cons.1 ring.nodup).2
    · refine List.nodup_range.pairwise_of_forall_ne fun i hi j hj ne => List.disjoint_left.2 fun e at_i at_j => ne ?_
      rw [← (h.slot i (List.mem_range.1 hi) e at_i).2, (h.slot j (List.mem_range.1 hj) e at_j).2]
  block e he := by
    obtain ⟨i, hi, mem⟩ := List.mem_flatMap.1 he
    refine ⟨_, h.block e ⟨i, List.mem_range.1 hi, mem⟩, ?_⟩
    rw [MallocLeak.length_backtraceOf]

open MallocLeak in
/-- A heap with one block of `leak_malloc`, and room for the report. -/
theorem exists_one_entry : ∃ s chains, Content s chains ∧ entriesOf chains ≠ [] ∧ Room s := by
  have run : (step (.init fun _ => 0#8) (.malloc 8#32 ⟨[], by decide, 0x1000#32, 0x2000#32⟩)).toOption.any (fun r =>
      decide (r.state.count = 1#32 ∧ Fresh r.state.blocks 0x3000#32 (4#32 * r.state.count).toNat ∧
        Fresh ((0x3000#32, (4#32 * r.state.count).toNat) :: r.state.blocks) 0x4000#32
          (recordSize * r.state.count).toNat)) = true := by
    decide
  obtain ⟨r, ran, after⟩ := exists_ok_of_any run
  obtain ⟨one, forList, forInfo⟩ := of_decide_eq_true after
  have reach : Reach (fun r call => Unmoved r call ∧ NoWrap call) r := by
    refine .step (.init _) ?_ ran
    exact ⟨trivial, trivial⟩
  obtain ⟨chains, sound⟩ := reach.sound fun _ _ good => good
  have content := content_of_linked sound.table.toLinked sound.blocks
  refine ⟨r.state, chains, content, fun none_there => ?_, _, _, ⟨forList, forInfo⟩⟩
  have count := content.count
  rw [none_there, one] at count
  exact absurd count (by decide)

/-- The report of that heap. -/
theorem reports_iff_one_entry : ∃ s chains, entriesOf chains ≠ [] ∧
    (Reports s (entriesOf chains) ⟨0#32, 0#32, 0#32, 0#32, 0#32⟩ ↔
      Right s (entriesOf chains) ⟨0#32, 0#32, 0#32, 0#32, 0#32⟩) := by
  obtain ⟨s, chains, content, some_entry, -⟩ := exists_one_entry
  exact ⟨s, chains, some_entry, reports_iff content _⟩

/-- What the caller has in `*totalMemory` is added to the report. -/
theorem not_reports_initial : ∃ s chains, Content s chains ∧
    ¬ Reports s (entriesOf chains) ⟨0#32, 0#32, 0#32, 1#32, 0#32⟩ := by
  obtain ⟨s, chains, content, some_entry, room⟩ := exists_one_entry
  refine ⟨s, chains, content, fun reports => ?_⟩
  obtain none_there | no_room | ⟨zero, -⟩ := content.right_of_reports reports
  · exact some_entry none_there
  · exact no_room room
  · exact absurd zero (by decide)

end Sound

end Bionic.MallocInfo
