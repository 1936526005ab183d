import Mathlib
import Bionic.LinkedRing
import Bionic.MallocLeak

/-! # The hash table of the leak checker

`Table` says what the entries of the table are: each is a block of the allocator and stands in the chain of its
backtrace, the chains are linked in both directions (as rings through the null pointer), no two entries have the same
backtrace and size word, and the number of references of each is that of the blocks that point to it.

Each operation changes words of entries only, so that it leaves all other blocks as they are. -/

namespace Bionic.MallocLeak

open ByteMemory LinkedRing StateExcept

/-! ### Blocks -/

section Blocks

/-- Two blocks do not meet. -/
def Apart (b b' : Addr × ℕ) : Prop :=
  b.1 ≠ b'.1 ∧ (b.1.toNat + b.2 ≤ b'.1.toNat ∨ b'.1.toNat + b'.2 ≤ b.1.toNat)

/-- The blocks that the allocator has given out. -/
structure Blocks (l : List (Addr × ℕ)) : Prop where
  placed : ∀ b ∈ l, b.1 ≠ 0#32 ∧ b.1.toNat % 8 = 0 ∧ b.1.toNat + b.2 < 2 ^ 32
  apart : l.Pairwise Apart

instance : Std.Symm Apart := ⟨fun _ _ h => ⟨h.1.symm, h.2.symm⟩⟩

namespace Blocks

variable {l : List (Addr × ℕ)} {b b' : Addr × ℕ} {a : Addr} {n i : ℕ}

theorem nil : Blocks [] := ⟨fun _ h => (List.not_mem_nil h).elim, List.Pairwise.nil⟩

theorem cons (h : Blocks l) (fresh : Fresh l a n) : Blocks ((a, n) :: l) := by
  obtain ⟨ne, aligned, bound, meets⟩ := fresh
  refine ⟨fun b hb => ?_, List.pairwise_cons.2 ⟨fun b hb => ?_, h.apart⟩⟩
  · rcases List.mem_cons.1 hb with rfl | hb
    · exact ⟨ne, aligned, bound⟩
    · exact h.placed b hb
  · exact ⟨(meets b hb).1.symm, (meets b hb).2⟩

theorem filter (h : Blocks l) (p : Addr × ℕ → Bool) : Blocks (l.filter p) :=
  ⟨fun b hb => h.placed b (List.mem_of_mem_filter hb), h.apart.sublist List.filter_sublist⟩

/-- Two blocks are the same, or do not meet. -/
theorem eq_or_apart (h : Blocks l) (hb : b ∈ l) (hb' : b' ∈ l) : b = b' ∨ Apart b b' := by
  by_cases same : b = b'
  · exact .inl same
  · exact .inr (h.apart.forall hb hb' same)

theorem disjoint (h : Blocks l) (hb : b ∈ l) (hb' : b' ∈ l) (ne : b.1 ≠ b'.1) :
    Disjoint (range b.1 b.2) (range b'.1 b'.2) := by
  have apart := ((h.eq_or_apart hb hb').resolve_left fun same => ne (congrArg Prod.fst same)).2
  obtain ⟨-, -, bound⟩ := h.placed b hb
  obtain ⟨-, -, bound'⟩ := h.placed b' hb'
  refine Set.disjoint_left.2 fun x hx hx' => ?_
  rw [mem_range, BitVec.toNat_sub] at hx hx'
  have := x.isLt
  omega

end Blocks

/-- The bytes of a block are the same. -/
def Agree (m m' : Mem) (b : Addr × ℕ) : Prop := ∀ x ∈ range b.1 b.2, m' x = m x

theorem Agree.word {m m' : Mem} {b : Addr × ℕ} (h : Agree m m' b) {i : ℕ} (hi : 4 * i + 4 ≤ b.2) (hb : b.2 ≤ 2 ^ 32) :
    word m' b.1 i = word m b.1 i :=
  read32_congr fun x hx => h x (range_wordAt_subset hi (by omega) hx)

theorem Agree.trans {m m' m'' : Mem} {b : Addr × ℕ} (h : Agree m m' b) (h' : Agree m' m'' b) : Agree m m'' b :=
  fun x hx => (h' x hx).trans (h x hx)

theorem word_setWord_self (m : Mem) (a : Addr) (i : ℕ) (v : Word) : word (setWord m a i v) a i = v := read32_write32 v

theorem word_setWord_of_ne {i j : ℕ} (hij : i ≠ j) (hi : i < 2 ^ 30) (hj : j < 2 ^ 30) (m : Mem) (a : Addr) (v : Word) :
    word (setWord m a j v) a i = word m a i := by
  rw [word, setWord, read32_write32_wordAt v hi hj, if_neg hij]
  rfl

/-- A word of a block is written. -/
theorem agree_setWord {l : List (Addr × ℕ)} (h : Blocks l) {a : Addr} {n i : ℕ} (ha : (a, n) ∈ l) (hi : 4 * i + 4 ≤ n)
    {b : Addr × ℕ} (hb : b ∈ l) (ne : b.1 ≠ a) (m : Mem) (v : Word) : Agree m (setWord m a i v) b := by
  intro x hx
  have bound := (h.placed _ ha).2.2
  have sub : range (wordAt a i) 4 ⊆ range a n := range_wordAt_subset hi (by omega)
  exact write32_of_notMem fun hx' => Set.disjoint_left.1 (h.disjoint hb ha ne) hx (sub hx')

/-- The addresses but null. -/
theorem length_lt_of_nodup {l : List Addr} (nodup : l.Nodup) (ne : 0#32 ∉ l) : l.length < 2 ^ 32 := by
  have all : ((0#32 :: l).map BitVec.toNat).Nodup :=
    (List.nodup_cons.2 ⟨ne, nodup⟩).map fun _ _ h => BitVec.eq_of_toNat_eq h
  have sub : ((0#32 :: l).map BitVec.toNat) ⊆ List.range (2 ^ 32) := by
    intro n hn
    obtain ⟨a, -, rfl⟩ := List.mem_map.1 hn
    exact List.mem_range.2 a.isLt
  have len := (List.subperm_of_subset all sub).length_le
  rw [List.length_map, List.length_range, List.length_cons] at len
  omega

end Blocks

/-! ### The table -/

/-- The pointer to the entry behind `e`, and behind the null pointer the head of the chain. -/
def nextOf (s : State) (slot : ℕ) (e : Addr) : Addr := if e = 0#32 then s.slots slot else word s.mem e nextField

/-- The pointer to the entry in front of `e`, and in front of the null pointer the last one. -/
def prevOf (s : State) (last e : Addr) : Addr := if e = 0#32 then last else word s.mem e prevField

/-- From the head of a slot through the entries `l` to the null pointer, and back to it. -/
def Chained (s : State) (slot : ℕ) (l : List Addr) : Prop := ∃ last, Ring (nextOf s slot) (prevOf s last) 0#32 l

/-- The entry `e` is in one of the chains. -/
def Entry (chains : ℕ → List Addr) (e : Addr) : Prop := ∃ slot < HASHTABLE_SIZE, e ∈ chains slot

/-- The table without the references. -/
structure Linked (s : State) (chains : ℕ → List Addr) : Prop where
  chained : ∀ slot < HASHTABLE_SIZE, Chained s slot (chains slot)
  count : s.count.toNat = ∑ slot ∈ Finset.range HASHTABLE_SIZE, (chains slot).length
  block : ∀ e, Entry chains e → (e, 24 + 4 * (backtraceOf s.mem e).length) ∈ s.blocks
  length_le : ∀ e, Entry chains e → (backtraceOf s.mem e).length ≤ BACKTRACE_SIZE
  slot : ∀ slot < HASHTABLE_SIZE, ∀ e ∈ chains slot,
    word s.mem e slotField = BitVec.ofNat 32 slot ∧ slotOf (backtraceOf s.mem e) = slot
  key : ∀ e e', Entry chains e → Entry chains e' → backtraceOf s.mem e = backtraceOf s.mem e' →
    word s.mem e sizeField = word s.mem e' sizeField → e = e'

/-- The table, where `refs e` blocks point to the entry `e`. -/
structure Table (s : State) (chains : ℕ → List Addr) (refs : Addr → ℕ) : Prop extends Linked s chains where
  allocations : ∀ e, Entry chains e → (word s.mem e allocationsField).toNat = refs e ∧ refs e ≠ 0
  others : ∀ e, ¬ Entry chains e → refs e = 0

section Frame

variable {s s' : State} {chains : ℕ → List Addr} {refs : Addr → ℕ} {e x : Addr} {m m' : Mem}

theorem length_backtraceOf (m : Mem) (e : Addr) : (backtraceOf m e).length = (word m e numEntriesField).toNat := by
  rw [backtraceOf, List.length_map, List.length_range]

theorem backtraceOf_congr (num : word m' e numEntriesField = word m e numEntriesField)
    (words : ∀ i < (backtraceOf m e).length, word m' e (backtraceField + i) = word m e (backtraceField + i)) :
    backtraceOf m' e = backtraceOf m e := by
  rw [length_backtraceOf] at words
  rw [backtraceOf, backtraceOf, num]
  exact List.map_congr_left fun i hi => words i (List.mem_range.1 hi)

namespace Linked

theorem ne_zero (h : Linked s chains) (he : Entry chains e) : e ≠ 0#32 := by
  obtain ⟨slot, hslot, hmem⟩ := he
  obtain ⟨last, ring⟩ := h.chained slot hslot
  exact fun zero => ring.notMem (zero ▸ hmem)

/-- An entry is in one chain only. -/
theorem slot_eq (h : Linked s chains) {i j : ℕ} (hi : i < HASHTABLE_SIZE) (hj : j < HASHTABLE_SIZE)
    (hei : e ∈ chains i) (hej : e ∈ chains j) : i = j :=
  (h.slot i hi e hei).2.symm.trans (h.slot j hj e hej).2

/-- What has the same words in its entries, but for the number of allocations. -/
theorem congr (h : Linked s chains) (slots : s'.slots = s.slots) (count : s'.count = s.count)
    (blocks : ∀ e, Entry chains e → ∀ n, (e, n) ∈ s.blocks → (e, n) ∈ s'.blocks)
    (fields : ∀ e, Entry chains e → ∀ i < allocationsField, word s'.mem e i = word s.mem e i)
    (trace : ∀ e, Entry chains e → backtraceOf s'.mem e = backtraceOf s.mem e) : Linked s' chains where
  chained slot hslot := by
    obtain ⟨last, ring⟩ := h.chained slot hslot
    refine ⟨last, ring.congr (fun c hc => ?_) (fun c hc => ?_)⟩
    · by_cases hc0 : c = 0#32
      · rw [nextOf, nextOf, if_pos hc0, if_pos hc0, slots]
      · have entry : Entry chains c := ⟨slot, hslot, (List.mem_cons.1 hc).resolve_left hc0⟩
        rw [nextOf, nextOf, if_neg hc0, if_neg hc0, fields c entry nextField (by decide)]
    · by_cases hc0 : c = 0#32
      · rw [prevOf, prevOf, if_pos hc0, if_pos hc0]
      · have entry : Entry chains c := ⟨slot, hslot, (List.mem_cons.1 hc).resolve_left hc0⟩
        rw [prevOf, prevOf, if_neg hc0, if_neg hc0, fields c entry prevField (by decide)]
  count := by rw [count, h.count]
  block e he := by
    rw [trace e he]
    exact blocks e he _ (h.block e he)
  length_le e he := by
    rw [trace e he]
    exact h.length_le e he
  slot i hi e he := by
    rw [trace e ⟨i, hi, he⟩, fields e ⟨i, hi, he⟩ slotField (by decide)]
    exact h.slot i hi e he
  key e e' he he' ht hs := by
    rw [trace e he, trace e' he'] at ht
    rw [fields e he sizeField (by decide), fields e' he' sizeField (by decide)] at hs
    exact h.key e e' he he' ht hs

/-- The bytes of an entry that are the same. -/
theorem fields_of_agree (h : Linked s chains) (he : Entry chains e)
    (agree : Agree s.mem m (e, 24 + 4 * (backtraceOf s.mem e).length)) :
    (∀ i ≤ allocationsField, word m e i = word s.mem e i) ∧ backtraceOf m e = backtraceOf s.mem e := by
  have len := h.length_le e he
  rw [BACKTRACE_SIZE] at len
  have small : ∀ i ≤ allocationsField, word m e i = word s.mem e i := by
    intro i hi
    rw [allocationsField] at hi
    exact agree.word (by simp only; omega) (by simp only; omega)
  refine ⟨small, backtraceOf_congr (small _ (by decide)) fun i hi => ?_⟩
  exact agree.word (by simp only [backtraceField]; omega) (by simp only; omega)

end Linked

/-- What leaves the entries as they are. -/
theorem Table.congr (h : Table s chains refs) (slots : s'.slots = s.slots) (count : s'.count = s.count)
    (blocks : ∀ e, Entry chains e → ∀ n, (e, n) ∈ s.blocks → (e, n) ∈ s'.blocks)
    (agree : ∀ e, Entry chains e → ∀ n, (e, n) ∈ s.blocks → Agree s.mem s'.mem (e, n)) : Table s' chains refs where
  toLinked := h.toLinked.congr slots count blocks
    (fun e he i hi => (h.fields_of_agree he (agree e he _ (h.block e he))).1 i (Nat.le_of_lt hi))
    (fun e he => (h.fields_of_agree he (agree e he _ (h.block e he))).2)
  allocations e he := by
    rw [(h.fields_of_agree he (agree e he _ (h.block e he))).1 allocationsField (Nat.le_refl _)]
    exact h.allocations e he
  others := h.others

end Frame

/-! ### Writing a word of an entry -/

section Write

variable {s : State} {chains : ℕ → List Addr} {refs : Addr → ℕ} {e x : Addr} {i j : ℕ}

namespace Linked

/-- A word of the entry `e` is written, and one of `x` is read. -/
theorem word_setWord (h : Linked s chains) (hb : Blocks s.blocks) (he : Entry chains e) (hx : Entry chains x)
    (hi : i ≤ allocationsField) (hj : 4 * j + 4 ≤ 24 + 4 * (backtraceOf s.mem x).length) (m : Mem) (v : Word) :
    word (setWord m e i v) x j = if x = e ∧ j = i then v else word m x j := by
  have placed := (hb.placed _ (h.block x hx)).2.2
  simp only at placed
  rw [allocationsField] at hi
  by_cases same : x = e
  · subst same
    by_cases hij : j = i
    · rw [if_pos ⟨rfl, hij⟩, hij, word_setWord_self]
    · rw [if_neg fun h => hij h.2, word_setWord_of_ne hij (by omega) (by omega)]
  · rw [if_neg fun h => same h.1]
    exact (agree_setWord hb (h.block e he) (by omega) (h.block x hx) same m v).word hj (by simp only; omega)

/-- A word that is none of the backtrace is written. -/
theorem backtraceOf_setWord (h : Linked s chains) (hb : Blocks s.blocks) (he : Entry chains e) (hx : Entry chains x)
    (hi : i ≤ allocationsField) (num : i ≠ numEntriesField) (m : Mem)
    (hm : backtraceOf m x = backtraceOf s.mem x) (v : Word) :
    backtraceOf (setWord m e i v) x = backtraceOf m x := by
  have hi' : i ≤ 5 := hi
  refine backtraceOf_congr ?_ fun k hk => ?_
  · rw [h.word_setWord hb he hx hi (by simp only [numEntriesField]; omega), if_neg fun h => num h.2.symm]
  · rw [hm] at hk
    rw [h.word_setWord hb he hx hi (by simp only [backtraceField]; omega), if_neg fun h => ?_]
    have := h.2
    simp only [backtraceField] at this
    omega

/-- A word of `a` is written if `a` is not null. -/
theorem store_neighbour (h : Linked s chains) (hb : Blocks s.blocks) {a : Addr} (ha : a = 0#32 ∨ Entry chains a)
    (hx : Entry chains x) (hi : i ≤ allocationsField) (num : i ≠ numEntriesField) {m : Mem}
    (hm : backtraceOf m x = backtraceOf s.mem x) (v : Word) :
    (∀ j ≤ allocationsField,
        word (if a ≠ 0#32 then setWord m a i v else m) x j = if x = a ∧ j = i then v else word m x j) ∧
      backtraceOf (if a ≠ 0#32 then setWord m a i v else m) x = backtraceOf s.mem x := by
  by_cases null : a = 0#32
  · rw [if_neg (not_not.2 null)]
    exact ⟨fun j _ => (if_neg fun same => h.ne_zero hx (same.1.trans null)).symm, hm⟩
  · have entry := ha.resolve_left null
    rw [if_pos null]
    refine ⟨fun j hj => ?_, (h.backtraceOf_setWord hb entry hx hi num m hm v).trans hm⟩
    have hj' : j ≤ 5 := hj
    exact h.word_setWord hb entry hx hi (by omega) m v

end Linked

/-- The number of allocations of an entry changes. -/
theorem Linked.setAllocations (h : Linked s chains) (hb : Blocks s.blocks) (he : Entry chains e) (v : Word) :
    Linked { s with mem := setWord s.mem e allocationsField v } chains := by
  refine h.congr rfl rfl (fun _ _ _ hn => hn) (fun x hx i hi => ?_) fun x hx => ?_
  · have hi' : i < 5 := hi
    rw [h.word_setWord hb he hx (Nat.le_refl _) (by omega), if_neg fun same => absurd same.2 (Nat.ne_of_lt hi)]
  · exact h.backtraceOf_setWord hb he hx (Nat.le_refl _) (by decide) s.mem rfl v

theorem Table.setAllocations (h : Table s chains refs) (hb : Blocks s.blocks) (he : Entry chains e) {v : Word}
    (hv : v ≠ 0#32) :
    Table { s with mem := setWord s.mem e allocationsField v } chains (Function.update refs e v.toNat) where
  toLinked := h.toLinked.setAllocations hb he v
  allocations x hx := by
    rw [h.word_setWord hb he hx (Nat.le_refl _) (by simp only [allocationsField]; omega)]
    by_cases same : x = e
    · rw [if_pos ⟨same, rfl⟩, same, Function.update_self]
      exact ⟨rfl, fun zero => hv (BitVec.eq_of_toNat_eq zero)⟩
    · rw [if_neg fun h => same h.1, Function.update_of_ne same]
      exact h.allocations x hx
  others x hx := by
    have ne : x ≠ e := fun same => hx (same ▸ he)
    rw [Function.update_of_ne ne]
    exact h.others x hx

end Write

/-! ### A new entry -/

section Init

variable {m : Mem} {e : Addr} {l : List (Addr × ℕ)} {n : ℕ}

theorem word_storeBacktrace (backtrace : List Word) (i j : ℕ) (hi : i + backtrace.length ≤ BACKTRACE_SIZE)
    (hj : j < 2 ^ 30) (out : j < backtraceField + i) (m : Mem) :
    word (storeBacktrace m e i backtrace) e j = word m e j := by
  induction backtrace generalizing i m with
  | nil => rfl
  | cons x backtrace ih =>
      rw [List.length_cons] at hi
      rw [storeBacktrace, ih (i + 1) (by omega) (by omega)]
      rw [BACKTRACE_SIZE] at hi
      exact word_setWord_of_ne (by omega) hj (by simp only [backtraceField]; omega) m e x

theorem word_storeBacktrace_get (backtrace : List Word) (i k : ℕ) (hi : i + backtrace.length ≤ BACKTRACE_SIZE)
    (hk : k < backtrace.length) (m : Mem) :
    word (storeBacktrace m e i backtrace) e (backtraceField + (i + k)) = backtrace[k] := by
  induction backtrace generalizing i k m with
  | nil => cases hk
  | cons x backtrace ih =>
      rw [List.length_cons] at hi hk
      have bound : BACKTRACE_SIZE = 32 := rfl
      cases k with
      | zero =>
          rw [storeBacktrace, word_storeBacktrace backtrace (i + 1) _ (by omega)
            (by simp only [backtraceField]; omega) (by omega)]
          exact word_setWord_self m e _ x
      | succ k =>
          have next := ih (i + 1) k (by omega) (by omega) (setWord m e (backtraceField + i) x)
          rw [storeBacktrace, List.getElem_cons_succ, ← next]
          congr 2
          omega

/-- The words of a new entry. -/
theorem word_initEntry (slot : ℕ) (next : Addr) (size : Word) {backtrace : List Word}
    (hlen : backtrace.length ≤ BACKTRACE_SIZE) (m : Mem) (e : Addr) :
    word (initEntry m e slot next size backtrace) e slotField = BitVec.ofNat 32 slot ∧
    word (initEntry m e slot next size backtrace) e prevField = 0#32 ∧
    word (initEntry m e slot next size backtrace) e nextField = next ∧
    word (initEntry m e slot next size backtrace) e sizeField = size ∧
    word (initEntry m e slot next size backtrace) e allocationsField = 1#32 ∧
    backtraceOf (initEntry m e slot next size backtrace) e = backtrace := by
  have field : ∀ j < backtraceField, ∀ m, word (storeBacktrace m e 0 backtrace) e j = word m e j := by
    intro j hj m
    have : backtraceField = 6 := rfl
    exact word_storeBacktrace backtrace 0 j (by omega) (by omega) (by omega) m
  have other : ∀ i < backtraceField, ∀ j < backtraceField, i ≠ j → ∀ m v, word (setWord m e j v) e i = word m e i := by
    intro i hi j hj hij m v
    have : backtraceField = 6 := rfl
    exact word_setWord_of_ne hij (by omega) (by omega) m e v
  have num : word (initEntry m e slot next size backtrace) e numEntriesField = BitVec.ofNat 32 backtrace.length := by
    rw [initEntry, field _ (by decide), other _ (by decide) _ (by decide) (by decide), word_setWord_self]
  refine ⟨?_, ?_, ?_, ?_, ?_, ?_⟩
  · rw [initEntry, field _ (by decide), other _ (by decide) _ (by decide) (by decide),
      other _ (by decide) _ (by decide) (by decide), other _ (by decide) _ (by decide) (by decide),
      other _ (by decide) _ (by decide) (by decide), word_setWord_self]
  · rw [initEntry, field _ (by decide), other _ (by decide) _ (by decide) (by decide),
      other _ (by decide) _ (by decide) (by decide), other _ (by decide) _ (by decide) (by decide), word_setWord_self]
  · rw [initEntry, field _ (by decide), other _ (by decide) _ (by decide) (by decide),
      other _ (by decide) _ (by decide) (by decide), word_setWord_self]
  · rw [initEntry, field _ (by decide), word_setWord_self]
  · rw [initEntry, field _ (by decide), other _ (by decide) _ (by decide) (by decide),
      other _ (by decide) _ (by decide) (by decide), other _ (by decide) _ (by decide) (by decide),
      other _ (by decide) _ (by decide) (by decide), other _ (by decide) _ (by decide) (by decide), word_setWord_self]
  · have len : (BitVec.ofNat 32 backtrace.length).toNat = backtrace.length := by
      rw [BACKTRACE_SIZE] at hlen
      rw [BitVec.toNat_ofNat, Nat.mod_eq_of_lt (by omega)]
    refine List.ext_getElem (by rw [length_backtraceOf, num, len]) fun k hk hk' => ?_
    have get := word_storeBacktrace_get (e := e) backtrace 0 k (by omega) hk'
    rw [Nat.zero_add] at get
    simp only [backtraceOf, List.getElem_map, List.getElem_range, initEntry, get]

/-- Writes to a block do not matter to another one. -/
theorem agree_initEntry (hb : Blocks l) (he : (e, n) ∈ l) (slot : ℕ) (next : Addr) (size : Word)
    {backtrace : List Word} (hn : 24 + 4 * backtrace.length ≤ n) {b : Addr × ℕ} (hb' : b ∈ l) (ne : b.1 ≠ e) (m : Mem) :
    Agree m (initEntry m e slot next size backtrace) b := by
  have one : ∀ i, 4 * i + 4 ≤ n → ∀ m v, Agree m (setWord m e i v) b :=
    fun i hi m v => agree_setWord hb he hi hb' ne m v
  have rest : ∀ (backtrace : List Word) i, 4 * (backtraceField + i + backtrace.length) ≤ n →
      ∀ m, Agree m (storeBacktrace m e i backtrace) b := by
    intro backtrace
    induction backtrace with
    | nil => exact fun _ _ _ _ _ => rfl
    | cons x backtrace ih =>
        intro i hi m
        rw [List.length_cons] at hi
        exact (one _ (by omega) m x).trans (ih (i + 1) (by omega) _)
  have field : ∀ i ≤ allocationsField, ∀ m' v, Agree m m' b → Agree m (setWord m' e i v) b := by
    intro i hi m' v agree
    rw [allocationsField] at hi
    exact agree.trans (one i (by omega) m' v)
  rw [initEntry]
  refine Agree.trans ?_ (rest backtrace 0 (by simp only [backtraceField]; omega) _)
  refine field sizeField (by decide) _ _ (field numEntriesField (by decide) _ _ ?_)
  refine field nextField (by decide) _ _ (field prevField (by decide) _ _ ?_)
  exact field slotField (by decide) _ _ (field allocationsField (by decide) _ _ fun _ _ => rfl)

end Init

section Link

variable {s : State} {chains : ℕ → List Addr} {e x : Addr} {backtrace : List Word} {size : Word}

/-- The state with a block for an entry. -/
def withBlock (s : State) (e : Addr) (backtrace : List Word) : State :=
  { s with blocks := (e, 24 + 4 * backtrace.length) :: s.blocks }

/-- The head of the chain of a backtrace is null or an entry. -/
theorem Linked.head_cases (h : Linked s chains) {slot : ℕ} (hslot : slot < HASHTABLE_SIZE) :
    s.slots slot = 0#32 ∨ s.slots slot ∈ chains slot := by
  obtain ⟨last, ring⟩ := h.chained slot hslot
  exact List.mem_cons.1 (ring.next_mem List.mem_cons_self)

theorem slotOf_lt (backtrace : List Word) : slotOf backtrace < HASHTABLE_SIZE := Nat.mod_lt _ (by decide)

/-- What linking a new entry in does to the other entries. -/
theorem Linked.link_other (h : Linked s chains) (hb : Blocks s.blocks)
    (fresh : Fresh s.blocks e (24 + 4 * backtrace.length)) (size : Word) (hx : Entry chains x) :
    x ≠ e ∧
      (∀ i ≤ allocationsField, word (linkEntry (withBlock s e backtrace) e (slotOf backtrace) size backtrace).mem x i =
        if x = s.slots (slotOf backtrace) ∧ i = prevField then e else word s.mem x i) ∧
      backtraceOf (linkEntry (withBlock s e backtrace) e (slotOf backtrace) size backtrace).mem x =
        backtraceOf s.mem x := by
  have ne : x ≠ e := (fresh.2.2.2 _ (h.block x hx)).1
  have hb' : Blocks (withBlock s e backtrace).blocks := hb.cons fresh
  have agree := agree_initEntry hb' List.mem_cons_self (slotOf backtrace) (s.slots (slotOf backtrace)) size
    (Nat.le_refl _) (List.mem_cons_of_mem _ (h.block x hx)) ne s.mem
  obtain ⟨words, trace⟩ := h.fields_of_agree hx agree
  have head : s.slots (slotOf backtrace) = 0#32 ∨ Entry chains (s.slots (slotOf backtrace)) :=
    (h.head_cases (slotOf_lt _)).imp id fun hmem => ⟨_, slotOf_lt _, hmem⟩
  obtain ⟨write, trace'⟩ := h.store_neighbour hb head hx (i := prevField) (by decide) (by decide) trace e
  refine ⟨ne, fun i hi => ?_, trace'⟩
  rw [← words i hi]
  exact write i hi

/-- The words of the new entry. -/
theorem Linked.link_new (h : Linked s chains) (hb : Blocks s.blocks)
    (fresh : Fresh s.blocks e (24 + 4 * backtrace.length)) (hlen : backtrace.length ≤ BACKTRACE_SIZE)
    (size : Word) :
    let m := (linkEntry (withBlock s e backtrace) e (slotOf backtrace) size backtrace).mem
    word m e slotField = BitVec.ofNat 32 (slotOf backtrace) ∧ word m e prevField = 0#32 ∧
      word m e nextField = s.slots (slotOf backtrace) ∧ word m e sizeField = size ∧
      word m e allocationsField = 1#32 ∧ backtraceOf m e = backtrace := by
  intro m
  have init := word_initEntry (slotOf backtrace) (s.slots (slotOf backtrace)) size hlen s.mem e
  by_cases null : s.slots (slotOf backtrace) = 0#32
  · have mem : m = initEntry s.mem e (slotOf backtrace) (s.slots (slotOf backtrace)) size backtrace :=
      if_neg (not_not.2 null)
    rw [mem]
    exact init
  · have head : Entry chains (s.slots (slotOf backtrace)) :=
      ⟨slotOf backtrace, slotOf_lt _, (h.head_cases (slotOf_lt _)).resolve_left null⟩
    have mem : m = setWord (initEntry s.mem e (slotOf backtrace) (s.slots (slotOf backtrace)) size backtrace)
        (s.slots (slotOf backtrace)) prevField e := if_pos null
    have ne : e ≠ s.slots (slotOf backtrace) := fun same => (h.link_other hb fresh size head).1 same.symm
    have agree : Agree (initEntry s.mem e (slotOf backtrace) (s.slots (slotOf backtrace)) size backtrace) m
        (e, 24 + 4 * backtrace.length) := by
      rw [mem]
      exact agree_setWord (hb.cons fresh) (List.mem_cons_of_mem _ (h.block _ head))
        (by simp only [prevField]; omega) List.mem_cons_self ne _ e
    have bound := fresh.2.2.1
    have fields : ∀ i ≤ allocationsField, word m e i =
        word (initEntry s.mem e (slotOf backtrace) (s.slots (slotOf backtrace)) size backtrace) e i := by
      intro i hi
      have hi' : i ≤ 5 := hi
      exact agree.word (by simp only; omega) (by simp only; omega)
    obtain ⟨hslot, hprev, hnext, hsize, halloc, htrace⟩ := init
    have trace : backtraceOf m e = backtrace := by
      rw [← htrace]
      refine backtraceOf_congr (fields _ (by decide)) fun i hi => ?_
      rw [htrace] at hi
      exact agree.word (by simp only [backtraceField]; omega) (by simp only; omega)
    rw [fields _ (by decide), fields _ (by decide), fields _ (by decide), fields _ (by decide), fields _ (by decide)]
    exact ⟨hslot, hprev, hnext, hsize, halloc, trace⟩

/-- The entries with a new one. -/
theorem entry_update_cons {slot : ℕ} (hslot : slot < HASHTABLE_SIZE) :
    Entry (Function.update chains slot (e :: chains slot)) x ↔ x = e ∨ Entry chains x := by
  constructor
  · rintro ⟨i, hi, hx⟩
    by_cases same : i = slot
    · subst same
      rw [Function.update_self] at hx
      exact (List.mem_cons.1 hx).imp id fun hx => ⟨i, hi, hx⟩
    · rw [Function.update_of_ne same] at hx
      exact .inr ⟨i, hi, hx⟩
  · rintro (rfl | ⟨i, hi, hx⟩)
    · exact ⟨slot, hslot, by rw [Function.update_self]; exact List.mem_cons_self⟩
    · refine ⟨i, hi, ?_⟩
      by_cases same : i = slot
      · rw [same, Function.update_self]
        exact List.mem_cons_of_mem _ (same ▸ hx)
      · rwa [Function.update_of_ne same]

/-- The number of entries. -/
theorem sum_length_update (chains : ℕ → List Addr) {slot : ℕ} (hslot : slot < HASHTABLE_SIZE) (l : List Addr) :
    (∑ i ∈ Finset.range HASHTABLE_SIZE, (Function.update chains slot l i).length) + (chains slot).length =
      (∑ i ∈ Finset.range HASHTABLE_SIZE, (chains i).length) + l.length := by
  have mem : slot ∈ Finset.range HASHTABLE_SIZE := Finset.mem_range.2 hslot
  have update : ∀ i, (Function.update chains slot l i).length =
      Function.update (fun i => (chains i).length) slot l.length i := by
    intro i
    by_cases same : i = slot
    · rw [same, Function.update_self, Function.update_self]
    · rw [Function.update_of_ne same, Function.update_of_ne same]
  have split := Finset.add_sum_erase _ (fun i => (chains i).length) mem
  rw [Finset.sum_congr rfl fun i _ => update i, Finset.sum_update_of_mem mem, ← split, Finset.sdiff_singleton_eq_erase]
  omega

/-- There are fewer entries than addresses. -/
theorem Linked.sum_length_lt (h : Linked s chains) (he : ¬ Entry chains e) (null : e ≠ 0#32) :
    (∑ i ∈ Finset.range HASHTABLE_SIZE, (chains i).length) + 1 < 2 ^ 32 := by
  have flat : ((List.range HASHTABLE_SIZE).flatMap chains).Nodup := by
    refine List.nodup_flatMap.2 ⟨fun i hi => ?_, ?_⟩
    · obtain ⟨last, ring⟩ := h.chained i (List.mem_range.1 hi)
      exact (List.nodup_cons.1 ring.nodup).2
    · refine List.Pairwise.imp_of_mem (fun {i j} hi hj ne => ?_) List.nodup_range
      rw [List.mem_range] at hi hj
      exact fun x hx hx' => ne (h.slot_eq hi hj hx hx')
  have mem : ∀ x, x ∈ (List.range HASHTABLE_SIZE).flatMap chains ↔ Entry chains x := by
    intro x
    simp only [List.mem_flatMap, List.mem_range, Entry]
  have nodup : (e :: (List.range HASHTABLE_SIZE).flatMap chains).Nodup :=
    List.nodup_cons.2 ⟨fun h => he ((mem e).1 h), flat⟩
  have len := length_lt_of_nodup nodup fun hz =>
    (List.mem_cons.1 hz).elim (fun same => null same.symm) fun hz => h.ne_zero ((mem _).1 hz) rfl
  have sum : ∑ i ∈ Finset.range HASHTABLE_SIZE, (chains i).length =
      ((List.range HASHTABLE_SIZE).flatMap chains).length := by
    have range : (List.range HASHTABLE_SIZE).toFinset = Finset.range HASHTABLE_SIZE := by
      ext i
      rw [List.mem_toFinset, List.mem_range, Finset.mem_range]
    rw [List.length_flatMap, ← range, List.sum_toFinset _ List.nodup_range]
  rw [List.length_cons] at len
  omega

/-- The chain of the new entry gets it as its head. -/
theorem Linked.chained_link (h : Linked s chains) (hb : Blocks s.blocks)
    (fresh : Fresh s.blocks e (24 + 4 * backtrace.length)) (hlen : backtrace.length ≤ BACKTRACE_SIZE) :
    Chained (linkEntry (withBlock s e backtrace) e (slotOf backtrace) size backtrace) (slotOf backtrace)
      (e :: chains (slotOf backtrace)) := by
  have hslot := slotOf_lt backtrace
  obtain ⟨-, newPrev, newNext, -⟩ := h.link_new hb fresh hlen size
  obtain ⟨last, ring⟩ := h.chained _ hslot
  have he : e ∉ 0#32 :: chains (slotOf backtrace) := by
    intro he
    rcases List.mem_cons.1 he with null | he
    · exact fresh.1 null
    · exact (h.link_other hb fresh size ⟨_, hslot, he⟩).1 rfl
  have front : nextOf s (slotOf backtrace) 0#32 = s.slots (slotOf backtrace) := if_pos rfl
  refine ⟨Function.update (Function.update (prevOf s last) e 0#32) (nextOf s (slotOf backtrace) 0#32) e 0#32,
    (ring.push_front he).congr (fun c hc => ?_) (fun c hc => ?_)⟩
  · by_cases null : c = 0#32
    · rw [null, Function.update_self]
      exact Function.update_self ..
    · rw [Function.update_of_ne null, nextOf, if_neg null]
      rcases List.mem_cons.1 ((List.mem_cons.1 hc).resolve_left null) with rfl | hc
      · rw [Function.update_self, front, newNext]
      · obtain ⟨ne, words, -⟩ := h.link_other hb fresh size ⟨_, hslot, hc⟩
        rw [Function.update_of_ne ne, words nextField (by decide), if_neg fun same => absurd same.2 (by decide), nextOf,
          if_neg null]
  · by_cases null : c = 0#32
    · rw [prevOf, if_pos null, null]
    · rw [prevOf, if_neg null, front]
      rcases List.mem_cons.1 ((List.mem_cons.1 hc).resolve_left null) with rfl | hc
      · have ne : c ≠ s.slots (slotOf backtrace) := by
          intro same
          rw [← front] at same
          exact he (same ▸ ring.next_mem List.mem_cons_self)
        rw [Function.update_of_ne ne, Function.update_self, newPrev]
      · obtain ⟨ne, words, -⟩ := h.link_other hb fresh size ⟨_, hslot, hc⟩
        rw [words prevField (by decide)]
        by_cases head : c = s.slots (slotOf backtrace)
        · rw [if_pos ⟨head, rfl⟩, head, Function.update_self]
        · rw [if_neg fun same => head same.1, Function.update_of_ne head, Function.update_of_ne ne, prevOf, if_neg null]

/-- The other chains stay. -/
theorem Linked.chained_link_other (h : Linked s chains) (hb : Blocks s.blocks)
    (fresh : Fresh s.blocks e (24 + 4 * backtrace.length)) {i : ℕ} (hi : i < HASHTABLE_SIZE)
    (other : i ≠ slotOf backtrace) :
    Chained (linkEntry (withBlock s e backtrace) e (slotOf backtrace) size backtrace) i (chains i) := by
  obtain ⟨last, ring⟩ := h.chained i hi
  refine ⟨last, ring.congr (fun c hc => ?_) (fun c hc => ?_)⟩
  · by_cases null : c = 0#32
    · rw [nextOf, nextOf, if_pos null, if_pos null]
      exact Function.update_of_ne other ..
    · obtain ⟨-, words, -⟩ := h.link_other hb fresh size ⟨i, hi, (List.mem_cons.1 hc).resolve_left null⟩
      rw [nextOf, nextOf, if_neg null, if_neg null, words nextField (by decide),
        if_neg fun same => absurd same.2 (by decide)]
  · by_cases null : c = 0#32
    · rw [prevOf, prevOf, if_pos null, if_pos null]
    · have hc := (List.mem_cons.1 hc).resolve_left null
      obtain ⟨-, words, -⟩ := h.link_other hb fresh size ⟨i, hi, hc⟩
      rw [prevOf, prevOf, if_neg null, if_neg null, words prevField (by decide), if_neg]
      rintro ⟨head, -⟩
      have hmem := (h.head_cases (slotOf_lt backtrace)).resolve_left (head ▸ null)
      exact other (h.slot_eq hi (slotOf_lt _) hc (head ▸ hmem))

/-- The table with a new entry. -/
theorem Linked.link (h : Linked s chains) (hb : Blocks s.blocks)
    (fresh : Fresh s.blocks e (24 + 4 * backtrace.length)) (hlen : backtrace.length ≤ BACKTRACE_SIZE)
    (new : ∀ x, Entry chains x → backtraceOf s.mem x = backtrace → word s.mem x sizeField ≠ size) :
    Linked (linkEntry (withBlock s e backtrace) e (slotOf backtrace) size backtrace)
      (Function.update chains (slotOf backtrace) (e :: chains (slotOf backtrace))) := by
  have hslot := slotOf_lt backtrace
  have he : ¬ Entry chains e := fun he => (h.link_other hb fresh size he).1 rfl
  obtain ⟨newSlot, -, -, newSize, -, newTrace⟩ := h.link_new hb fresh hlen size
  have other := fun x (hx : Entry chains x) => h.link_other hb fresh size hx
  have field : ∀ x, Entry chains x → ∀ i ≤ allocationsField, i ≠ prevField →
      word (linkEntry (withBlock s e backtrace) e (slotOf backtrace) size backtrace).mem x i = word s.mem x i := by
    intro x hx i hi ne
    rw [(other x hx).2.1 i hi, if_neg fun same => ne same.2]
  refine ⟨fun i hi => ?_, ?_, fun x hx => ?_, fun x hx => ?_, fun i hi x hx => ?_, fun x x' hx hx' trace same => ?_⟩
  · by_cases same : i = slotOf backtrace
    · rw [same, Function.update_self]
      exact h.chained_link hb fresh hlen
    · rw [Function.update_of_ne same]
      exact h.chained_link_other hb fresh hi same
  · have sum := sum_length_update chains hslot (e :: chains (slotOf backtrace))
    have bound := h.sum_length_lt he fresh.1
    have count : (linkEntry (withBlock s e backtrace) e (slotOf backtrace) size backtrace).count = s.count + 1#32 := rfl
    rw [List.length_cons] at sum
    rw [count, BitVec.toNat_add, h.count]
    simp only [BitVec.toNat_ofNat]
    omega
  · rcases (entry_update_cons hslot).1 hx with rfl | hx
    · rw [newTrace]
      exact List.mem_cons_self
    · rw [(other x hx).2.2]
      exact List.mem_cons_of_mem _ (h.block x hx)
  · rcases (entry_update_cons hslot).1 hx with rfl | hx
    · rw [newTrace]
      exact hlen
    · rw [(other x hx).2.2]
      exact h.length_le x hx
  · have old : ∀ x ∈ chains i, word (linkEntry (withBlock s e backtrace) e (slotOf backtrace) size backtrace).mem x
          slotField = BitVec.ofNat 32 i ∧
        slotOf (backtraceOf (linkEntry (withBlock s e backtrace) e (slotOf backtrace) size backtrace).mem x) = i := by
      intro x hx
      rw [field x ⟨i, hi, hx⟩ slotField (by decide) (by decide), (other x ⟨i, hi, hx⟩).2.2]
      exact h.slot i hi x hx
    by_cases same : i = slotOf backtrace
    · subst same
      rw [Function.update_self] at hx
      rcases List.mem_cons.1 hx with rfl | hx
      · rw [newTrace]
        exact ⟨newSlot, rfl⟩
      · exact old x hx
    · rw [Function.update_of_ne same] at hx
      exact old x hx
  · rcases (entry_update_cons hslot).1 hx with rfl | old <;> rcases (entry_update_cons hslot).1 hx' with rfl | old'
    · rfl
    · rw [newTrace, (other x' old').2.2] at trace
      rw [newSize, field x' old' sizeField (by decide) (by decide)] at same
      exact absurd same.symm (new x' old' trace.symm)
    · rw [newTrace, (other x old).2.2] at trace
      rw [newSize, field x old sizeField (by decide) (by decide)] at same
      exact absurd same (new x old trace)
    · rw [(other x old).2.2, (other x' old').2.2] at trace
      rw [field x old sizeField (by decide) (by decide), field x' old' sizeField (by decide) (by decide)] at same
      exact h.key x x' old old' trace same

end Link

/-! ### Removing an entry -/

section Unlink

variable {s : State} {chains : ℕ → List Addr} {e x : Addr} {k : ℕ}

/-- The neighbours of an entry are null, or other entries of its chain. -/
theorem Linked.neighbours (h : Linked s chains) (hk : k < HASHTABLE_SIZE) (he : e ∈ chains k) :
    (word s.mem e prevField ≠ e ∧ (word s.mem e prevField = 0#32 ∨ word s.mem e prevField ∈ chains k)) ∧
      (word s.mem e nextField ≠ e ∧ (word s.mem e nextField = 0#32 ∨ word s.mem e nextField ∈ chains k)) := by
  obtain ⟨last, ring⟩ := h.chained k hk
  have null : e ≠ 0#32 := h.ne_zero ⟨k, hk, he⟩
  have hprev : prevOf s last e = word s.mem e prevField := if_neg null
  have hnext : nextOf s k e = word s.mem e nextField := if_neg null
  rw [← hprev, ← hnext]
  refine ⟨⟨?_, List.mem_cons.1 (ring.prev_mem (List.mem_cons_of_mem _ he))⟩,
    ?_, List.mem_cons.1 (ring.next_mem (List.mem_cons_of_mem _ he))⟩
  · exact ring.prev_ne he
  · exact ring.next_ne he

/-- What removing an entry does to the entries. -/
theorem Linked.unlink_words (h : Linked s chains) (hb : Blocks s.blocks) (hk : k < HASHTABLE_SIZE) (he : e ∈ chains k)
    (hx : Entry chains x) :
    (∀ i ≤ allocationsField, word (removeEntry s e).mem x i =
        if x = word s.mem e prevField ∧ i = nextField then word s.mem e nextField
        else if x = word s.mem e nextField ∧ i = prevField then word s.mem e prevField else word s.mem x i) ∧
      backtraceOf (removeEntry s e).mem x = backtraceOf s.mem x := by
  obtain ⟨⟨-, hprev⟩, -, hnext⟩ := h.neighbours hk he
  have prev := hprev.imp id fun hmem => (⟨k, hk, hmem⟩ : Entry chains _)
  have next := hnext.imp id fun hmem => (⟨k, hk, hmem⟩ : Entry chains _)
  obtain ⟨first, trace⟩ := h.store_neighbour hb prev hx (i := nextField) (by decide) (by decide) rfl
    (word s.mem e nextField)
  obtain ⟨second, trace'⟩ := h.store_neighbour hb next hx (i := prevField) (by decide) (by decide) trace
    (word s.mem e prevField)
  refine ⟨fun i hi => ?_, trace'⟩
  apply (second i hi).trans
  rw [first i hi]
  by_cases isNext : x = word s.mem e nextField ∧ i = prevField
  · rw [if_pos isNext, if_neg fun same => absurd (isNext.2.symm.trans same.2) (by decide), if_pos isNext]
  · rw [if_neg isNext, if_neg isNext]

/-- The entry itself keeps its words. -/
theorem Linked.unlink_self (h : Linked s chains) (hb : Blocks s.blocks) (hk : k < HASHTABLE_SIZE) (he : e ∈ chains k)
    {i : ℕ} (hi : i ≤ allocationsField) : word (removeEntry s e).mem e i = word s.mem e i := by
  obtain ⟨⟨hprev, -⟩, hnext, -⟩ := h.neighbours hk he
  rw [(h.unlink_words hb hk he ⟨k, hk, he⟩).1 i hi, if_neg fun same => hprev same.1.symm,
    if_neg fun same => hnext same.1.symm]

/-- The heads of the chains. -/
theorem Linked.unlink_slots (h : Linked s chains) (hb : Blocks s.blocks) (hk : k < HASHTABLE_SIZE) (he : e ∈ chains k) :
    (removeEntry s e).slots =
      if word s.mem e prevField = 0#32 then Function.update s.slots k (word s.mem e nextField) else s.slots := by
  have hslot : (word (removeEntry s e).mem e slotField).toNat = k := by
    have lt : HASHTABLE_SIZE = 1543 := rfl
    rw [h.unlink_self hb hk he (by decide), (h.slot k hk e he).1, BitVec.toNat_ofNat]
    omega
  have slots : (removeEntry s e).slots = if word s.mem e prevField = 0#32 then
      Function.update s.slots (word (removeEntry s e).mem e slotField).toNat (word (removeEntry s e).mem e nextField)
      else s.slots := rfl
  rw [slots, hslot, h.unlink_self hb hk he (by decide)]

/-- The entries without one. -/
theorem Linked.entry_update_erase (h : Linked s chains) (hk : k < HASHTABLE_SIZE) (he : e ∈ chains k) :
    Entry (Function.update chains k ((chains k).erase e)) x ↔ Entry chains x ∧ x ≠ e := by
  obtain ⟨last, ring⟩ := h.chained k hk
  have nodup := (List.nodup_cons.1 ring.nodup).2
  constructor
  · rintro ⟨i, hi, hx⟩
    by_cases same : i = k
    · subst same
      rw [Function.update_self] at hx
      exact ⟨⟨i, hi, List.mem_of_mem_erase hx⟩, (nodup.mem_erase_iff.1 hx).1⟩
    · rw [Function.update_of_ne same] at hx
      refine ⟨⟨i, hi, hx⟩, fun eq => same (h.slot_eq hi hk hx (eq ▸ he))⟩
  · rintro ⟨⟨i, hi, hx⟩, ne⟩
    refine ⟨i, hi, ?_⟩
    by_cases same : i = k
    · subst same
      rw [Function.update_self]
      exact nodup.mem_erase_iff.2 ⟨ne, hx⟩
    · rwa [Function.update_of_ne same]

/-- The chain of the entry loses it. -/
theorem Linked.chained_unlink (h : Linked s chains) (hb : Blocks s.blocks) (hk : k < HASHTABLE_SIZE)
    (he : e ∈ chains k) : Chained (removeEntry s e) k ((chains k).erase e) := by
  obtain ⟨last, ring⟩ := h.chained k hk
  obtain ⟨l₁, l₂, -, split, erase⟩ := List.exists_erase_eq he
  have null : e ≠ 0#32 := h.ne_zero ⟨k, hk, he⟩
  have hprev : prevOf s last e = word s.mem e prevField := if_neg null
  have hnext : nextOf s k e = word s.mem e nextField := if_neg null
  have sub : ∀ c ∈ l₁ ++ l₂, c ∈ chains k := by
    intro c hc
    rw [← erase] at hc
    exact List.mem_of_mem_erase hc
  rw [erase]
  rw [split] at ring
  have removed := ring.remove
  rw [hprev, hnext] at removed
  refine ⟨Function.update (prevOf s last) (word s.mem e nextField) (word s.mem e prevField) 0#32,
    removed.congr (fun c hc => ?_) (fun c hc => ?_)⟩
  · by_cases hc0 : c = 0#32
    · rw [hc0, nextOf, if_pos rfl, h.unlink_slots hb hk he]
      by_cases first : word s.mem e prevField = 0#32
      · rw [if_pos first, Function.update_self, first, Function.update_self]
      · rw [if_neg first, Function.update_of_ne (Ne.symm first)]
        rfl
    · have entry : Entry chains c := ⟨k, hk, sub c ((List.mem_cons.1 hc).resolve_left hc0)⟩
      rw [nextOf, if_neg hc0, (h.unlink_words hb hk he entry).1 nextField (by decide)]
      by_cases before : c = word s.mem e prevField
      · rw [if_pos ⟨before, rfl⟩, before, Function.update_self]
      · rw [if_neg fun same => before same.1, if_neg fun same => absurd same.2 (by decide),
          Function.update_of_ne before, nextOf, if_neg hc0]
  · by_cases hc0 : c = 0#32
    · rw [prevOf, if_pos hc0, hc0]
    · have entry : Entry chains c := ⟨k, hk, sub c ((List.mem_cons.1 hc).resolve_left hc0)⟩
      rw [prevOf, if_neg hc0, (h.unlink_words hb hk he entry).1 prevField (by decide),
        if_neg fun same => absurd same.2 (by decide)]
      by_cases behind : c = word s.mem e nextField
      · rw [if_pos ⟨behind, rfl⟩, behind, Function.update_self]
      · rw [if_neg fun same => behind same.1, Function.update_of_ne behind, prevOf, if_neg hc0]

/-- The other chains stay. -/
theorem Linked.chained_unlink_other (h : Linked s chains) (hb : Blocks s.blocks) (hk : k < HASHTABLE_SIZE)
    (he : e ∈ chains k) {i : ℕ} (hi : i < HASHTABLE_SIZE) (other : i ≠ k) :
    Chained (removeEntry s e) i (chains i) := by
  obtain ⟨last, ring⟩ := h.chained i hi
  obtain ⟨⟨-, hprev⟩, -, hnext⟩ := h.neighbours hk he
  have slots : (removeEntry s e).slots i = s.slots i := by
    rw [h.unlink_slots hb hk he]
    split
    · exact Function.update_of_ne other ..
    · rfl
  have far : ∀ c ∈ chains i, c ≠ 0#32 → c ≠ word s.mem e prevField ∧ c ≠ word s.mem e nextField := by
    intro c hc null
    refine ⟨fun same => ?_, fun same => ?_⟩
    · exact other (h.slot_eq hi hk hc (same ▸ hprev.resolve_left (same ▸ null)))
    · exact other (h.slot_eq hi hk hc (same ▸ hnext.resolve_left (same ▸ null)))
  refine ⟨last, ring.congr (fun c hc => ?_) (fun c hc => ?_)⟩
  · by_cases null : c = 0#32
    · rw [nextOf, nextOf, if_pos null, if_pos null, slots]
    · have hc := (List.mem_cons.1 hc).resolve_left null
      rw [nextOf, nextOf, if_neg null, if_neg null, (h.unlink_words hb hk he ⟨i, hi, hc⟩).1 nextField (by decide),
        if_neg fun same => (far c hc null).1 same.1, if_neg fun same => (far c hc null).2 same.1]
  · by_cases null : c = 0#32
    · rw [prevOf, prevOf, if_pos null, if_pos null]
    · have hc := (List.mem_cons.1 hc).resolve_left null
      rw [prevOf, prevOf, if_neg null, if_neg null, (h.unlink_words hb hk he ⟨i, hi, hc⟩).1 prevField (by decide),
        if_neg fun same => (far c hc null).1 same.1, if_neg fun same => (far c hc null).2 same.1]

/-- The table without the entry. -/
theorem Linked.unlink (h : Linked s chains) (hb : Blocks s.blocks) (hk : k < HASHTABLE_SIZE) (he : e ∈ chains k) :
    Linked (removeEntry s e) (Function.update chains k ((chains k).erase e)) := by
  have entry := fun {x} => (h.entry_update_erase hk he (x := x)).1
  have field : ∀ x, Entry chains x → ∀ i ≤ allocationsField, i ≠ prevField → i ≠ nextField →
      word (removeEntry s e).mem x i = word s.mem x i := by
    intro x hx i hi prev next
    rw [(h.unlink_words hb hk he hx).1 i hi, if_neg fun same => next same.2, if_neg fun same => prev same.2]
  refine ⟨fun i hi => ?_, ?_, fun x hx => ?_, fun x hx => ?_, fun i hi x hx => ?_, fun x x' hx hx' trace same => ?_⟩
  · by_cases same : i = k
    · rw [same, Function.update_self]
      exact h.chained_unlink hb hk he
    · rw [Function.update_of_ne same]
      exact h.chained_unlink_other hb hk he hi same
  · have sum := sum_length_update chains hk ((chains k).erase e)
    have len := List.length_erase_of_mem he
    have pos := List.length_pos_of_mem he
    have count : (removeEntry s e).count = s.count - 1#32 := rfl
    have bound := s.count.isLt
    rw [count, BitVec.toNat_sub]
    have hcount := h.count
    simp only [BitVec.toNat_ofNat]
    omega
  · rw [(h.unlink_words hb hk he (entry hx).1).2]
    exact h.block x (entry hx).1
  · rw [(h.unlink_words hb hk he (entry hx).1).2]
    exact h.length_le x (entry hx).1
  · have hx' := (entry ⟨i, hi, hx⟩).1
    rw [field x hx' slotField (by decide) (by decide) (by decide), (h.unlink_words hb hk he hx').2]
    apply h.slot i hi x
    by_cases same : i = k
    · subst same
      rw [Function.update_self] at hx
      exact List.mem_of_mem_erase hx
    · rwa [Function.update_of_ne same] at hx
  · rw [(h.unlink_words hb hk he (entry hx).1).2, (h.unlink_words hb hk he (entry hx').1).2] at trace
    rw [field x (entry hx).1 sizeField (by decide) (by decide) (by decide),
      field x' (entry hx').1 sizeField (by decide) (by decide) (by decide)] at same
    exact h.key x x' (entry hx).1 (entry hx').1 trace same

end Unlink

end Bionic.MallocLeak
