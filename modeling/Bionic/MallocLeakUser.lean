import Mathlib.Data.List.Perm.Basic
import Bionic.MallocLeakOps

/-! # The blocks of the user

`Sound` relates the table to the blocks that the user has: each has a header that points to an entry, and the number of
references of an entry is that of the headers that point to it.  The operations keep it, `leak_free` finds the header of
each block, and the bytes of the other blocks stay. -/

namespace Bionic.MallocLeak

open ByteMemory StateExcept

/-- A block that the user has: its header, the pointer of the user, the bytes asked for, and whether `leak_memalign` has
returned it. -/
structure Live where
  home : Addr
  ptr : Addr
  bytes : Word
  memalign : Bool
deriving DecidableEq, Repr

/-- The number of bytes behind a header. -/
def areaOf (m : Mem) (home : Addr) : ℕ := (word m (word m home entryField) sizeField &&& ~~~SIZE_FLAG_MASK).toNat

/-- The pointer of the user is `k` words behind the header. -/
structure Placed (m : Mem) (l : Live) (area k : ℕ) : Prop where
  ptr : l.ptr = wordAt l.home k
  two_le : 2 ≤ k
  le : 4 * k + l.bytes.toNat ≤ 8 + area
  moved : k ≠ 2 → 4 ≤ k ∧ l.memalign = true ∧ word m l.home (k - 1) = MEMALIGN_GUARD ∧
    word m l.home (k - 2) = wordAt l.home 2

structure Header (s : State) (chains : ℕ → List Addr) (l : Live) : Prop where
  block : (l.home, 8 + areaOf s.mem l.home) ∈ s.blocks
  other : ¬ Entry chains l.home
  entry : Entry chains (word s.mem l.home entryField)
  guard : word s.mem l.home guardField = GUARD
  placed : ∃ k, Placed s.mem l (areaOf s.mem l.home) k

/-- The number of headers that point to an entry. -/
def refsOf (m : Mem) (live : List Live) (e : Addr) : ℕ := live.countP fun l => word m l.home entryField = e

/-- The table and the blocks of the user. -/
structure Sound (s : State) (chains : ℕ → List Addr) (live : List Live) : Prop where
  blocks : Blocks s.blocks
  table : Table s chains (refsOf s.mem live)
  headers : ∀ l ∈ live, Header s chains l
  nodup : (live.map Live.home).Nodup

/-- The bytes of a block of the user are as before. -/
structure Same (m m' : Mem) (l : Live) : Prop where
  area : areaOf m' l.home = areaOf m l.home
  agree : Agree m m' (l.home, 8 + areaOf m l.home)

theorem Same.trans {m m' m'' : Mem} {l : Live} (h : Same m m' l) (h' : Same m' m'' l) : Same m m'' l := by
  have agree := h'.agree
  rw [h.area] at agree
  exact ⟨h'.area.trans h.area, h.agree.trans agree⟩

section Headers

variable {s s' : State} {chains chains' : ℕ → List Addr} {live : List Live} {l l' : Live} {m : Mem} {k : ℕ}

/-- Pointers to the words of a block. -/
theorem wordAt_sub {a : Addr} {i j : ℕ} (h : j ≤ i) : wordAt a i - BitVec.ofNat 32 (4 * j) = wordAt a (i - j) := by
  have split : wordAt a i = wordAt a (i - j) + BitVec.ofNat 32 (4 * j) := by
    rw [wordAt, wordAt, offset_add]
    congr 2
    omega
  rw [split, BitVec.add_sub_cancel]

theorem areaOf_lt (m : Mem) (home : Addr) : areaOf m home < 2 ^ 31 := by
  have mask : (~~~SIZE_FLAG_MASK).toNat = 2 ^ 31 - 1 := by decide
  have le : areaOf m home ≤ (~~~SIZE_FLAG_MASK).toNat := by
    rw [areaOf, BitVec.toNat_and]
    exact Nat.and_le_right
  omega

namespace Placed

variable {area : ℕ}

/-- Only the words in front of the bytes of the user tell where they are. -/
theorem keep (placed : Placed s.mem l area k) (words : ∀ i < k, word m l.home i = word s.mem l.home i) :
    Placed m l area k := by
  refine ⟨placed.ptr, placed.two_le, placed.le, fun hk => ?_⟩
  obtain ⟨four, memalign, guard, base⟩ := placed.moved hk
  exact ⟨four, memalign, (words _ (by omega)).trans guard, (words _ (by omega)).trans base⟩

/-- The words in front of the bytes of the user are none of these. -/
theorem front (placed : Placed s.mem l area k) (lt : area < 2 ^ 31)
    (hm : ∀ x ∉ range l.ptr l.bytes.toNat, m x = s.mem x) {i : ℕ} (hi : i < k) :
    word m l.home i = word s.mem l.home i := by
  have le := placed.le
  refine read32_congr fun x hx => hm x fun hx' => ?_
  have start : l.ptr = wordAt l.home i + BitVec.ofNat 32 (4 * (k - i)) := by
    rw [placed.ptr, wordAt, wordAt, offset_add]
    congr 2
    omega
  rw [start] at hx'
  exact Set.disjoint_left.1 (disjoint_range (by omega) (by omega)) hx hx'

end Placed

namespace Header

/-- A header in a block whose bytes are as before. -/
theorem congr (h : Header s chains l) (same : Same s.mem s'.mem l)
    (block : (l.home, 8 + areaOf s.mem l.home) ∈ s'.blocks) (other : ¬ Entry chains' l.home)
    (entry : Entry chains' (word s.mem l.home entryField)) : Header s' chains' l := by
  have lt := areaOf_lt s.mem l.home
  have words : ∀ i, 4 * i + 4 ≤ 8 + areaOf s.mem l.home → word s'.mem l.home i = word s.mem l.home i :=
    fun i hi => same.agree.word hi (by simp only; omega)
  obtain ⟨k, placed⟩ := h.placed
  have le := placed.le
  refine ⟨same.area ▸ block, other, ?_, ?_, k, same.area ▸ placed.keep fun i hi => words i (by omega)⟩
  · rw [words entryField (by simp only [entryField]; omega)]
    exact entry
  · rw [words guardField (by simp only [guardField]; omega)]
    exact h.guard

/-- The bytes of the user are in the block. -/
theorem range_subset (h : Header s chains l) :
    range l.ptr l.bytes.toNat ⊆ range l.home (8 + areaOf s.mem l.home) := by
  obtain ⟨k, placed⟩ := h.placed
  have lt := areaOf_lt s.mem l.home
  have le := placed.le
  rw [placed.ptr]
  exact range_add_subset le (by omega)

theorem ptr_ne_zero (h : Header s chains l) (hb : Blocks s.blocks) : l.ptr ≠ 0#32 := by
  obtain ⟨k, placed⟩ := h.placed
  have bound := (hb.placed _ h.block).2.2
  have le := placed.le
  have two := placed.two_le
  simp only at bound
  intro zero
  have toNat := congrArg BitVec.toNat (placed.ptr.symm.trans zero)
  rw [wordAt, BitVec.toNat_add, BitVec.toNat_ofNat, BitVec.toNat_ofNat] at toNat
  omega

/-- The word in front of a pointer that has moved. -/
theorem guard_of_moved (h : Header s chains l) (moved : l.ptr ≠ wordAt l.home 2) :
    word s.mem (l.ptr - 8#32) guardField = MEMALIGN_GUARD ∧ read32 .little s.mem (l.ptr - 4#32) = MEMALIGN_GUARD ∧
      read32 .little s.mem (l.ptr - 8#32) = wordAt l.home 2 := by
  obtain ⟨k, placed⟩ := h.placed
  have two := placed.two_le
  obtain ⟨four, -, guard, base⟩ := placed.moved fun two => moved (two ▸ placed.ptr)
  have eight : l.ptr - 8#32 = wordAt l.home (k - 2) := by
    rw [placed.ptr]
    exact wordAt_sub (j := 2) two
  have second : l.ptr - 4#32 = wordAt l.home (k - 1) := by
    rw [placed.ptr]
    exact wordAt_sub (j := 1) (by omega)
  have index : k - 2 + 1 = k - 1 := by omega
  rw [second, eight, word, guardField, wordAt_wordAt, index]
  exact ⟨guard, guard, base⟩

/-- `leak_free` finds the header. -/
theorem findHeader_eq (h : Header s chains l) : findHeader s.mem l.ptr = l.home := by
  have back : wordAt l.home 2 - 8#32 = l.home := BitVec.add_sub_cancel ..
  by_cases unmoved : l.ptr = wordAt l.home 2
  · rw [findHeader, unmoved, back, if_neg]
    exact fun moved => moved.1 h.guard
  · obtain ⟨first, second, base⟩ := h.guard_of_moved unmoved
    have ne : word s.mem (l.ptr - 8#32) guardField ≠ GUARD := by
      rw [first]
      decide
    rw [findHeader, if_pos ⟨ne, second⟩, base, back]

end Header

/-! ### What keeps the table and the blocks -/

namespace Sound

theorem perm (h : Sound s chains live) {live' : List Live} (p : live.Perm live') : Sound s chains live' where
  blocks := h.blocks
  table := by
    have refs : refsOf s.mem live' = refsOf s.mem live := funext fun e => (p.countP_eq _).symm
    rw [refs]
    exact h.table
  headers l hl := h.headers l (p.mem_iff.2 hl)
  nodup := (p.map _).nodup_iff.1 h.nodup

theorem home_inj (h : Sound s chains live) (hl : l ∈ live) (hl' : l' ∈ live) (home : l'.home = l.home) : l' = l :=
  List.inj_on_of_nodup_map h.nodup hl' hl home

/-- The number of blocks. -/
theorem length_lt (h : Sound s chains live) {a : Addr} (null : a ≠ 0#32) (new : ∀ b ∈ s.blocks, b.1 ≠ a) :
    live.length + 1 < 2 ^ 32 := by
  have nodup : (a :: live.map Live.home).Nodup := by
    refine List.nodup_cons.2 ⟨fun hmem => ?_, h.nodup⟩
    obtain ⟨l, hl, home⟩ := List.mem_map.1 hmem
    exact new _ (h.headers l hl).block home
  have lt := length_lt_of_nodup nodup fun hmem => ?_
  · rwa [List.length_cons, List.length_map] at lt
  · rcases List.mem_cons.1 hmem with zero | hmem
    · exact null zero.symm
    · obtain ⟨l, hl, home⟩ := List.mem_map.1 hmem
      exact (h.blocks.placed _ (h.headers l hl).block).1 home

/-- The bytes of the user are written. -/
theorem write (h : Sound s chains live) (hl : l ∈ live) (hm : ∀ x ∉ range l.ptr l.bytes.toNat, m x = s.mem x) :
    Sound { s with mem := m } chains live ∧ ∀ l' ∈ live, l' ≠ l → Same s.mem m l' := by
  have header := h.headers l hl
  have lt := areaOf_lt s.mem l.home
  have agree : ∀ b ∈ s.blocks, b.1 ≠ l.home → Agree s.mem m b := by
    intro b hb ne x hx
    refine hm x fun hx' => ?_
    exact Set.disjoint_left.1 (h.blocks.disjoint hb header.block ne) hx (header.range_subset hx')
  have entryWords : ∀ e, Entry chains e → word m e sizeField = word s.mem e sizeField := by
    intro e he
    have ne : e ≠ l.home := fun same => header.other (same ▸ he)
    have len := h.table.length_le e he
    rw [BACKTRACE_SIZE] at len
    exact (agree _ (h.table.block e he) ne).word (by simp only [sizeField]; omega) (by simp only; omega)
  obtain ⟨k, placed⟩ := header.placed
  have two := placed.two_le
  have front : ∀ i < k, word m l.home i = word s.mem l.home i := fun i hi => placed.front lt hm hi
  have entryWord : ∀ l' ∈ live, word m l'.home entryField = word s.mem l'.home entryField := by
    intro l' hl'
    by_cases home : l'.home = l.home
    · rw [home]
      exact front entryField (by simp only [entryField]; omega)
    · have lt' := areaOf_lt s.mem l'.home
      exact (agree _ (h.headers l' hl').block home).word (by simp only [entryField]; omega) (by simp only; omega)
  have area : ∀ l' ∈ live, areaOf m l'.home = areaOf s.mem l'.home := by
    intro l' hl'
    rw [areaOf, areaOf, entryWord l' hl', entryWords _ (h.headers l' hl').entry]
  have same : ∀ l' ∈ live, l' ≠ l → Same s.mem m l' := fun l' hl' ne =>
    ⟨area l' hl', agree _ (h.headers l' hl').block fun home => ne (h.home_inj hl hl' home)⟩
  have refs : refsOf m live = refsOf s.mem live := by
    refine funext fun e => List.countP_congr fun l' hl' => ?_
    rw [entryWord l' hl']
  refine ⟨⟨h.blocks, ?_, fun l' hl' => ?_, h.nodup⟩, same⟩
  · show Table { s with mem := m } chains (refsOf m live)
    rw [refs]
    refine h.table.congr rfl rfl (fun _ _ _ hn => hn) fun e he n hn => ?_
    exact agree _ hn fun home => header.other (home ▸ he)
  · by_cases isl : l' = l
    · subst isl
      refine ⟨?_, header.other, ?_, ?_, k, ?_⟩
      · show (l'.home, 8 + areaOf m l'.home) ∈ s.blocks
        rw [area l' hl']
        exact header.block
      · show Entry chains (word m l'.home entryField)
        rw [entryWord l' hl']
        exact header.entry
      · exact (front guardField (by simp only [guardField]; omega)).trans header.guard
      · show Placed m l' (areaOf m l'.home) k
        rw [area l' hl']
        exact placed.keep front
    · exact (h.headers l' hl').congr (same l' hl' isl) (h.headers l' hl').block (h.headers l' hl').other
        (h.headers l' hl').entry

/-- The user gets another part of the block. -/
theorem replace (h : Sound s chains (l :: live)) (l' : Live) (home : l'.home = l.home)
    (placed : ∃ k, Placed s.mem l' (areaOf s.mem l.home) k) : Sound s chains (l' :: live) where
  blocks := h.blocks
  table := by
    have refs : refsOf s.mem (l' :: live) = refsOf s.mem (l :: live) := by
      refine funext fun e => ?_
      rw [refsOf, refsOf, List.countP_cons, List.countP_cons, home]
    rw [refs]
    exact h.table
  headers l₁ hl₁ := by
    rcases List.mem_cons.1 hl₁ with rfl | hl₁
    · have header := h.headers l List.mem_cons_self
      rw [← home] at placed
      exact ⟨home ▸ header.block, home ▸ header.other, home ▸ header.entry, home ▸ header.guard, placed⟩
    · exact h.headers l₁ (List.mem_cons_of_mem _ hl₁)
  nodup := by
    have nodup := h.nodup
    rwa [List.map_cons, ← home, ← List.map_cons] at nodup

end Sound

/-! ### `leak_malloc` -/

/-- What an allocation returns: the null pointer, or a pointer in a new block. -/
inductive Got (s : State) (live : List Live) (home : Addr) (bytes : Word) (memalign : Bool) : Addr × State → Prop
  | null : Got s live home bytes memalign (0#32, s)
  | block {p s'} (chains : ℕ → List Addr) (sound : Sound s' chains (⟨home, p, bytes, memalign⟩ :: live))
      (same : ∀ l ∈ live, Same s.mem s'.mem l) : Got s live home bytes memalign (p, s')

theorem toNat_lt_of_masked {x bytes : Word} (h : x &&& ~~~SIZE_FLAG_MASK = bytes) : bytes.toNat < 2 ^ 31 := by
  have mask : (~~~SIZE_FLAG_MASK).toNat = 2 ^ 31 - 1 := by decide
  have le : bytes.toNat ≤ (~~~SIZE_FLAG_MASK).toNat := by
    rw [← h, BitVec.toNat_and]
    exact Nat.and_le_right
  omega

/-- A new block points to `e`, and the old ones to the same entries as before. -/
theorem refsOf_cons {e : Addr} (new : word m l.home entryField = e)
    (old : ∀ l ∈ live, word m l.home entryField = word s.mem l.home entryField) :
    refsOf m (l :: live) = Function.update (refsOf s.mem live) e (refsOf s.mem live e + 1) := by
  refine funext fun x => ?_
  have rest : live.countP (fun l => word m l.home entryField = x) = refsOf s.mem live x :=
    List.countP_congr fun l hl => by rw [old l hl]
  rw [refsOf, List.countP_cons, new, rest]
  by_cases hx : x = e
  · rw [hx, Function.update_self, if_pos (decide_eq_true rfl)]
  · rw [Function.update_of_ne hx, if_neg fun same => hx (of_decide_eq_true same).symm]
    rfl

section Grow

variable {a e : Addr} {bytes : Word} {n : ℕ} {s₂ : State} (h : Sound s chains live) (fresh : Fresh s.blocks a n)
  (recorded : Recorded { s with blocks := (a, n) :: s.blocks } chains (refsOf s.mem live) bytes e s₂ chains')
  (header : ∀ b ∈ s₂.blocks, b.1 ≠ a → Agree s₂.mem m b)

include h fresh recorded in
/-- A new block is no entry. -/
theorem Sound.new_ne {x : Addr} (hx : Entry chains' x) : x ≠ a := by
  intro same
  rcases recorded.origin x hx with hx | hx
  · exact (fresh.2.2.2 _ (h.table.block x hx)).1 same
  · exact hx _ List.mem_cons_self same.symm

include h fresh recorded header

theorem Sound.size_grow {x : Addr} (hx : Entry chains' x) : word m x sizeField = word s₂.mem x sizeField := by
  have small := recorded.table.length_le x hx
  rw [BACKTRACE_SIZE] at small
  exact (header _ (recorded.table.block x hx) (h.new_ne fresh recorded hx)).word (by simp only [sizeField]; omega)
    (by simp only; omega)

/-- The old blocks are as before. -/
theorem Sound.same_grow (hl : l ∈ live) :
    word m l.home entryField = word s.mem l.home entryField ∧ Same s.mem m l := by
  have lt := areaOf_lt s.mem l.home
  have block : (l.home, 8 + areaOf s.mem l.home) ∈ (a, n) :: s.blocks :=
    List.mem_cons_of_mem _ (h.headers l hl).block
  have ne : l.home ≠ a := (fresh.2.2.2 _ (h.headers l hl).block).1
  have agree := (recorded.frame _ block (h.headers l hl).other).trans (header _ (recorded.sub _ block) ne)
  have entryWord := agree.word (i := entryField) (by simp only [entryField]; omega) (by simp only; omega)
  obtain ⟨entry, size⟩ := recorded.keep _ (h.headers l hl).entry
  refine ⟨entryWord, ?_, agree⟩
  rw [areaOf, areaOf, entryWord, h.size_grow fresh recorded header entry, size]

/-- The backtrace of a new block has been recorded, and its header written. -/
theorem Sound.grow (hn : n = (bytes + 8#32).toNat) (entryWord : word m a entryField = e)
    (guardWord : word m a guardField = GUARD) (memalign : Bool) :
    Got s live a bytes memalign (a + 8#32, { s₂ with mem := m }) := by
  have lt := toNat_lt_of_masked recorded.size
  have len : n = 8 + bytes.toNat := by
    rw [hn, BitVec.toNat_add]
    simp only [BitVec.toNat_ofNat]
    omega
  have area : areaOf m a = bytes.toNat := by
    rw [areaOf, entryWord, h.size_grow fresh recorded header recorded.entry, recorded.size]
  refine .block chains' ⟨recorded.blocks, ?_, fun l hl => ?_, ?_⟩ fun l hl => (h.same_grow fresh recorded header hl).2
  · show Table { s₂ with mem := m } chains' (refsOf m _)
    rw [refsOf_cons (s := s) (l := ⟨a, a + 8#32, bytes, memalign⟩) entryWord fun l hl =>
      (h.same_grow fresh recorded header hl).1]
    exact recorded.table.congr rfl rfl (fun _ _ _ hn => hn) fun x hx n hn => header _ hn (h.new_ne fresh recorded hx)
  · rcases List.mem_cons.1 hl with rfl | hl
    · refine ⟨?_, fun hx => h.new_ne fresh recorded hx rfl, ?_, guardWord, 2, rfl, Nat.le_refl _, ?_,
        fun two => absurd rfl two⟩
      · show (a, 8 + areaOf m a) ∈ s₂.blocks
        rw [area, ← len]
        exact recorded.sub _ List.mem_cons_self
      · show Entry chains' (word m a entryField)
        rw [entryWord]
        exact recorded.entry
      · show 4 * 2 + bytes.toNat ≤ 8 + areaOf m a
        rw [area]
    · have block : (l.home, 8 + areaOf s.mem l.home) ∈ (a, n) :: s.blocks :=
        List.mem_cons_of_mem _ (h.headers l hl).block
      refine (h.headers l hl).congr (h.same_grow fresh recorded header hl).2 (recorded.sub _ block) (fun hx => ?_)
        (recorded.keep _ (h.headers l hl).entry).1
      rcases recorded.origin _ hx with hx | hx
      · exact (h.headers l hl).other hx
      · exact hx _ block rfl
  · refine List.nodup_cons.2 ⟨fun hmem => ?_, h.nodup⟩
    obtain ⟨l, hl, home⟩ := List.mem_map.1 hmem
    exact (fresh.2.2.2 _ (h.headers l hl).block).1 home

end Grow

variable {A : Fault → Prop}

theorem Sound.leakMalloc_ends (h : Sound s chains live) (impossible : A .impossible) (bytes : Word) (c : Alloc)
    (abort : bytes &&& SIZE_FLAG_MASK ≠ 0#32 → c.base ≠ 0#32 → A .abort)
    (nullEntry : Entryless s bytes c → c.base ≠ 0#32 → A .nullEntry) (memalign : Bool) :
    Ends A (leakMalloc s bytes c) (Got s live c.base bytes memalign) := by
  unfold leakMalloc
  by_cases null : c.base = 0#32
  · rw [dlmalloc, if_pos null]
    refine Ends.bind (P := (· = s)) (ends_ok.2 rfl) fun t ht => ?_
    rw [if_pos null, ht]
    exact .null
  · rw [dlmalloc, if_neg null]
    by_cases fresh : Fresh s.blocks c.base (bytes + 8#32).toNat
    · rw [if_pos fresh]
      refine Ends.bind (P := (· = _)) (ends_ok.2 rfl) fun t ht => ?_
      have table : Table { s with blocks := (c.base, (bytes + 8#32).toNat) :: s.blocks } chains (refsOf s.mem live) :=
        h.table.congr rfl rfl (fun _ _ _ hn => List.mem_cons_of_mem _ hn) fun _ _ _ _ _ _ => rfl
      have bound : ∀ e, refsOf s.mem live e + 1 < 2 ^ 32 := by
        intro e
        have le : refsOf s.mem live e ≤ live.length := List.countP_le_length
        have := h.length_lt null fun b hb => (fresh.2.2.2 b hb).1
        omega
      rw [if_neg null, ht]
      refine (recordBacktrace_ends table (h.blocks.cons fresh) bound impossible bytes (fun flag => abort flag null)
        c fun less => nullEntry less null).bind fun p recorded => ?_
      obtain ⟨chains', recorded⟩ := recorded
      have new : (c.base, (bytes + 8#32).toNat) ∈ p.2.blocks := recorded.sub _ List.mem_cons_self
      have lt := toNat_lt_of_masked recorded.size
      have len : (bytes + 8#32).toNat = bytes.toNat + 8 := by
        rw [BitVec.toNat_add]
        simp only [BitVec.toNat_ofNat]
        omega
      refine h.grow fresh recorded (fun b hb ne => ?_) rfl ?_ (word_setWord_self ..) memalign
      · exact (agree_setWord recorded.blocks new (by simp only [entryField]; omega) hb ne _ _).trans
          (agree_setWord recorded.blocks new (by simp only [guardField]; omega) hb ne _ _)
      · rw [word_setWord_of_ne (by decide) (by decide) (by decide), word_setWord_self]
    · rw [if_neg fresh]
      exact impossible

/-- The bytes of the user in a new block are written. -/
theorem Got.write {home p : Addr} {bytes : Word} {memalign : Bool}
    (sound : Sound s' chains (⟨home, p, bytes, memalign⟩ :: live)) (same : ∀ l ∈ live, Same s.mem s'.mem l)
    (hm : ∀ x ∉ range p bytes.toNat, m x = s'.mem x) : Got s live home bytes memalign (p, { s' with mem := m }) := by
  obtain ⟨sound', same'⟩ := sound.write List.mem_cons_self hm
  refine .block chains sound' fun l hl => (same l hl).trans (same' l (List.mem_cons_of_mem _ hl) ?_)
  rintro rfl
  exact (List.nodup_cons.1 sound.nodup).1 (List.mem_map_of_mem hl)

/-! ### `leak_free` -/

theorem Sound.leakFree_spec (h : Sound s chains (l :: live)) :
    ∃ s' chains', leakFree s l.ptr = .ok s' ∧ Sound s' chains' live ∧ ∀ l' ∈ live, Same s.mem s'.mem l' := by
  have header := h.headers l List.mem_cons_self
  have rest := fun l' (hl' : l' ∈ live) => h.headers l' (List.mem_cons_of_mem _ hl')
  obtain ⟨s', chains', run, released⟩ := release_spec h.table h.blocks ⟨_, header.block, rfl⟩ header.other header.entry
  have freed : leakFree s l.ptr = .ok s' := by
    unfold leakFree
    rw [if_neg (header.ptr_ne_zero h.blocks), header.findHeader_eq]
    dsimp only
    rw [if_pos header.guard, run]
  have ne : ∀ l' ∈ live, l'.home ≠ l.home := fun l' hl' home =>
    (List.nodup_cons.1 h.nodup).1 (home ▸ List.mem_map_of_mem hl')
  have agree := fun l' (hl' : l' ∈ live) => released.frame _ (rest l' hl').block (rest l' hl').other
  have entryWord : ∀ l' ∈ live, word s'.mem l'.home entryField = word s.mem l'.home entryField := by
    intro l' hl'
    have lt := areaOf_lt s.mem l'.home
    exact (agree l' hl').word (by simp only [entryField]; omega) (by simp only; omega)
  have refs : Function.update (refsOf s.mem (l :: live)) (word s.mem l.home entryField)
      (refsOf s.mem (l :: live) (word s.mem l.home entryField) - 1) = refsOf s'.mem live := by
    have old : refsOf s'.mem live = refsOf s.mem live :=
      funext fun e => List.countP_congr fun l' hl' => by rw [entryWord l' hl']
    rw [refsOf_cons (s := s) (m := s.mem) (l := l) rfl fun _ _ => rfl, Function.update_self, Nat.add_sub_cancel,
      Function.update_idem, Function.update_eq_self, old]
  have table := released.table
  rw [refs] at table
  have entry : ∀ l' ∈ live, Entry chains' (word s.mem l'.home entryField) := by
    intro l' hl'
    by_contra gone
    exact List.countP_eq_zero.1 (table.others _ gone) l' hl' (decide_eq_true (entryWord l' hl'))
  have same : ∀ l' ∈ live, Same s.mem s'.mem l' := by
    intro l' hl'
    refine ⟨?_, agree l' hl'⟩
    rw [areaOf, areaOf, entryWord l' hl', (released.keep _ (entry l' hl')).2]
  refine ⟨s', chains', freed, ⟨released.blocks, table, fun l' hl' => ?_, (List.nodup_cons.1 h.nodup).2⟩, same⟩
  have block := released.sub _ (rest l' hl').block (rest l' hl').other (ne l' hl')
  exact (rest l' hl').congr (same l' hl') block (fun hx => (rest l' hl').other (released.keep _ hx).1) (entry l' hl')

/-! ### `leak_calloc` -/

theorem Sound.leakCalloc_ends (h : Sound s chains live) (impossible : A .impossible) (abort : A .abort)
    (nullEntry : A .nullEntry) (n elem : Word) (c : Alloc) :
    Ends A (leakCalloc s n elem c) (Got s live c.base (n * elem) false) := by
  unfold leakCalloc
  by_cases overflow : n ≠ 0#32 ∧ BitVec.allOnes 32 / n < elem
  · rw [if_pos overflow]
    exact .null
  · rw [if_neg overflow]
    refine (h.leakMalloc_ends impossible (n * elem) c (fun _ _ => abort) (fun _ _ => nullEntry) false).bind fun p got => ?_
    cases got with
    | null =>
        dsimp only
        rw [if_neg (not_not.2 rfl)]
        exact .null
    | @block p s' chains' sound same =>
        dsimp only
        rw [if_pos ((sound.headers _ List.mem_cons_self).ptr_ne_zero sound.blocks)]
        exact Got.write sound same fun x hx => fill_of_notMem hx

/-! ### `leak_memalign` -/

theorem powerOfTwo_spec {alignment : Word} (h : 8 < alignment.toNat) :
    ∃ j, 3 ≤ j ∧ j < 32 ∧ (powerOfTwo alignment).toNat = 2 ^ j := by
  have ne : alignment.toNat ≠ 0 := by omega
  have lt : Nat.log2 alignment.toNat < 32 := (Nat.log2_lt ne).2 alignment.isLt
  have three : 3 ≤ Nat.log2 alignment.toNat := (Nat.le_log2 ne).2 (by omega)
  unfold powerOfTwo
  split
  · refine ⟨_, three, lt, ?_⟩
    rw [BitVec.toNat_ofNat, Nat.mod_eq_of_lt (Nat.pow_lt_pow_right (by omega) lt)]
  · next power =>
    have pred : (alignment - 1#32).toNat = alignment.toNat - 1 := by
      have := alignment.isLt
      rw [BitVec.toNat_sub]
      simp only [BitVec.toNat_ofNat]
      omega
    have zero := congrArg BitVec.toNat (not_not.1 power)
    rw [BitVec.toNat_and, pred] at zero
    obtain ⟨j, hj⟩ := (Nat.and_sub_one_eq_zero_iff_isPowerOfTwo ne).1 zero
    rw [hj, Nat.log2_two_pow] at lt three
    exact ⟨j, three, lt, hj⟩

theorem dvd_two_pow {alignment : Word} {j : ℕ} (power : alignment.toNat = 2 ^ j) : alignment.toNat ∣ 2 ^ 32 := by
  have lt := alignment.isLt
  rw [power] at lt ⊢
  exact Nat.pow_dvd_pow 2 (Nat.le_of_lt ((Nat.pow_lt_pow_iff_right (by omega)).1 lt))

/-- How far the pointer moves. -/
theorem moved_spec {p alignment : Word} {j : ℕ} (hj : 3 ≤ j) (power : alignment.toNat = 2 ^ j) (aligned : p.toNat % 8 = 0)
    (ne : p % alignment ≠ 0#32) :
    ∃ d, 2 ≤ d ∧ 4 * d + 8 ≤ alignment.toNat ∧ -p % alignment = BitVec.ofNat 32 (4 * d) := by
  obtain ⟨i, rfl⟩ := Nat.exists_eq_add_of_le hj
  have lt := alignment.isLt
  have dvd := dvd_two_pow power
  have eight : 8 ∣ alignment.toNat := by
    rw [power, Nat.pow_add]
    exact Nat.dvd_mul_right 8 _
  have toNat : (-p % alignment).toNat = (2 ^ 32 - p.toNat) % alignment.toNat := by
    rw [BitVec.toNat_umod, BitVec.toNat_neg, Nat.mod_mod_of_dvd _ dvd]
  have pos : (-p % alignment).toNat ≠ 0 := by
    intro zero
    rw [toNat] at zero
    refine ne (BitVec.eq_of_toNat_eq ?_)
    have le := Nat.le_of_lt p.isLt
    rw [BitVec.toNat_umod]
    exact Nat.mod_eq_zero_of_dvd ((Nat.dvd_sub_iff_right le dvd).1 (Nat.dvd_of_mod_eq_zero zero))
  have less : (-p % alignment).toNat < alignment.toNat := by
    rw [toNat]
    exact Nat.mod_lt _ (power ▸ Nat.two_pow_pos _)
  have multiple : 8 ∣ (-p % alignment).toNat := by
    rw [toNat]
    exact (Nat.dvd_mod_iff eight).2 (by omega)
  refine ⟨(-p % alignment).toNat / 4, by omega, by omega, BitVec.eq_of_toNat_eq ?_⟩
  rw [BitVec.toNat_ofNat]
  omega

/-- The pointer of a block that `leak_memalign` has not returned. -/
theorem Header.ptr_of_not_memalign (h : Header s chains l) (plain : l.memalign = false) :
    l.ptr = wordAt l.home 2 ∧ l.bytes.toNat ≤ areaOf s.mem l.home := by
  obtain ⟨k, placed⟩ := h.placed
  have unmoved : k = 2 := by
    by_contra moved
    exact Bool.false_ne_true (plain.symm.trans (placed.moved moved).2.1)
  have le := placed.le
  subst unmoved
  exact ⟨placed.ptr, by omega⟩

/-- The words in front of a pointer that moves. -/
theorem Sound.moved {home p : Addr} {size : Word} (bytes : Word) {d : ℕ}
    (sound : Sound s' chains (⟨home, p, size, false⟩ :: live)) (same : ∀ l ∈ live, Same s.mem s'.mem l) (hd : 2 ≤ d)
    (le : 4 * d + bytes.toNat ≤ size.toNat) :
    Got s live home bytes true (wordAt p d,
      { s' with mem := setWord (setWord s'.mem p (d - 1) MEMALIGN_GUARD) p (d - 2) p }) := by
  have lt := size.isLt
  obtain ⟨ptr, -⟩ := (sound.headers _ List.mem_cons_self).ptr_of_not_memalign rfl
  simp only at ptr
  have at_p : ∀ m i, word m home (2 + i) = word m p i := by
    intro m i
    rw [word, word, ptr, wordAt_wordAt]
  have inside : ∀ x ∉ range p size.toNat,
      setWord (setWord s'.mem p (d - 1) MEMALIGN_GUARD) p (d - 2) p x = s'.mem x := by
    intro x hx
    have out : ∀ i, 4 * i + 4 ≤ size.toNat → x ∉ range (wordAt p i) 4 := fun i hi hx' =>
      hx (range_wordAt_subset hi (by omega) hx')
    exact (write32_of_notMem (out _ (by omega))).trans (write32_of_notMem (out _ (by omega)))
  cases Got.write (s := s) sound same inside with
  | block chains sound same =>
      obtain ⟨-, area⟩ := (sound.headers _ List.mem_cons_self).ptr_of_not_memalign rfl
      refine .block chains (sound.replace ⟨home, wordAt p d, bytes, true⟩ rfl ⟨2 + d, ?_⟩) same
      refine ⟨?_, by omega, ?_, fun _ => ⟨by omega, rfl, ?_, ?_⟩⟩
      · exact (congrArg (wordAt · d) ptr).trans wordAt_wordAt
      · simp only at area ⊢
        omega
      · have index : 2 + d - 1 = 2 + (d - 1) := by omega
        simp only
        rw [index, at_p, word_setWord_of_ne (by omega) (by omega) (by omega), word_setWord_self]
      · have index : 2 + d - 2 = 2 + (d - 2) := by omega
        simp only
        rw [index, at_p, word_setWord_self, ptr]
  | null => exact absurd rfl ((sound.headers _ List.mem_cons_self).ptr_ne_zero sound.blocks)

/-- The size that `leak_memalign` asks for does not wrap around. -/
def Fits (alignment bytes : Word) : Prop :=
  MALLOC_ALIGNMENT < alignment → (powerOfTwo alignment).toNat - 8 + bytes.toNat < 2 ^ 32

instance (alignment bytes : Word) : Decidable (Fits alignment bytes) := inferInstanceAs (Decidable (_ → _))

theorem Sound.leakMemalign_ends (h : Sound s chains live) (impossible : A .impossible) (abort : A .abort)
    (nullEntry : A .nullEntry) (alignment bytes : Word) (c : Alloc) (fits : Fits alignment bytes ∨ c.base = 0#32) :
    Ends A (leakMemalign s alignment bytes c) (Got s live c.base bytes true) := by
  unfold leakMemalign
  by_cases small : alignment ≤ MALLOC_ALIGNMENT
  · rw [if_pos small]
    exact h.leakMalloc_ends impossible bytes c (fun _ _ => abort) (fun _ _ => nullEntry) true
  · rw [if_neg small]
    have large := BitVec.not_le.1 small
    have eight : MALLOC_ALIGNMENT.toNat = 8 := rfl
    obtain ⟨j, hj, -, power⟩ := powerOfTwo_spec (BitVec.lt_def.1 large)
    have least : 2 ^ 3 ≤ (powerOfTwo alignment).toNat := by
      rw [power]
      exact Nat.pow_le_pow_right (by decide) hj
    refine (h.leakMalloc_ends impossible _ c (fun _ _ => abort) (fun _ _ => nullEntry) false).bind fun p got => ?_
    cases got with
    | null =>
        dsimp only
        rw [if_pos rfl]
        exact .null
    | @block p s' chains' sound same =>
        have header := sound.headers _ List.mem_cons_self
        obtain ⟨ptr, area⟩ := header.ptr_of_not_memalign rfl
        obtain ⟨null, aligned, bound⟩ := sound.blocks.placed _ header.block
        have size : (powerOfTwo alignment - MALLOC_ALIGNMENT + bytes).toNat =
            (powerOfTwo alignment).toNat - 8 + bytes.toNat := by
          have sum := fits.resolve_right null large
          have := (powerOfTwo alignment).isLt
          rw [BitVec.toNat_add, BitVec.toNat_sub, eight]
          omega
        dsimp only at ptr area ⊢
        rw [if_neg (header.ptr_ne_zero sound.blocks)]
        by_cases luck : p % powerOfTwo alignment = 0#32
        · rw [if_pos luck]
          refine .block chains' (sound.replace ⟨c.base, p, bytes, true⟩ rfl ⟨2, ?_⟩) same
          refine ⟨ptr, Nat.le_refl _, ?_, fun two => absurd rfl two⟩
          simp only at area ⊢
          omega
        · rw [if_neg luck]
          have aligned' : p.toNat % 8 = 0 := by
            rw [ptr, wordAt, BitVec.toNat_add, BitVec.toNat_ofNat]
            simp only at aligned bound
            omega
          obtain ⟨d, two, le, distance⟩ := moved_spec hj power aligned' luck
          have moved := sound.moved bytes same two (by omega)
          have guard : wordAt p d - 4#32 = wordAt p (d - 1) := wordAt_sub (j := 1) (by omega)
          have base : wordAt p d - 8#32 = wordAt p (d - 2) := wordAt_sub (j := 2) two
          rw [distance, ← wordAt, guard, base]
          exact moved

/-! ### `leak_realloc` -/

/-- What `leak_realloc` returns: the null pointer, or a pointer in a new block with the bytes of the old one. -/
inductive Resized (s : State) (l : Live) (live : List Live) (home : Addr) (bytes : Word) : Addr × State → Prop
  | null : Resized s l live home bytes (0#32, s)
  | block {q s'} (chains : ℕ → List Addr) (sound : Sound s' chains (⟨home, q, bytes, false⟩ :: live))
      (copy : ∀ i < min l.bytes.toNat bytes.toNat, s'.mem (q + BitVec.ofNat 32 i) = s.mem (l.ptr + BitVec.ofNat 32 i)) :
      Resized s l live home bytes (q, s')

theorem Sound.leakRealloc_ends (h : Sound s chains (l :: live)) (unmoved : l.ptr = l.home + 8#32)
    (impossible : A .impossible) (bytes : Word) (c : Alloc)
    (abort : bytes &&& SIZE_FLAG_MASK ≠ 0#32 → c.base ≠ 0#32 → A .abort)
    (nullEntry : Entryless s bytes c → c.base ≠ 0#32 → A .nullEntry) :
    Ends A (leakRealloc s l.ptr bytes c) (Resized s l live c.base bytes) := by
  have header := h.headers l List.mem_cons_self
  have home : l.ptr - 8#32 = l.home := by rw [unmoved, BitVec.add_sub_cancel]
  obtain ⟨null, -, -⟩ := h.blocks.placed _ header.block
  unfold leakRealloc
  rw [if_neg (header.ptr_ne_zero h.blocks), home]
  dsimp only
  rw [if_pos ⟨null, header.guard⟩]
  refine (h.leakMalloc_ends impossible bytes c abort nullEntry false).bind fun p got => ?_
  cases got with
  | null =>
      dsimp only
      rw [if_pos rfl]
      exact .null
  | @block q s₁ chains₁ sound same =>
      have new := sound.headers _ List.mem_cons_self
      obtain ⟨ptr, area⟩ := new.ptr_of_not_memalign rfl
      have area' : l.bytes.toNat ≤ areaOf s.mem l.home := by
        obtain ⟨k, placed⟩ := header.placed
        have le := placed.le
        have two := placed.two_le
        omega
      dsimp only at ptr area ⊢
      rw [if_neg (new.ptr_ne_zero sound.blocks)]
      have size : ∀ old : Word, (if old ≤ bytes then old else bytes).toNat = min old.toNat bytes.toNat := by
        intro old
        split
        · next le => exact (Nat.min_eq_left (BitVec.le_def.1 le)).symm
        · next lt => exact (Nat.min_eq_right (Nat.le_of_not_le fun le => lt (BitVec.le_def.2 le))).symm
      rw [size, ← areaOf]
      have lt := bytes.isLt
      obtain ⟨copied, same'⟩ := sound.write
        (m := memcpy s₁.mem q l.ptr (min (areaOf s.mem l.home) bytes.toNat)) List.mem_cons_self fun x hx =>
          memcpy_of_notMem fun hx' => hx (Nat.lt_of_lt_of_le (mem_range.1 hx') (Nat.min_le_right _ _))
      obtain ⟨s', chains', run, sound', kept⟩ := (copied.perm (List.Perm.swap _ _ _)).leakFree_spec
      rw [run]
      refine .block chains' sound' fun i hi => ?_
      rw [Nat.lt_min] at hi
      have newByte : q + BitVec.ofNat 32 i ∈ range c.base (8 + areaOf
          (memcpy s₁.mem q l.ptr (min (areaOf s.mem l.home) bytes.toNat)) c.base) :=
        (copied.headers _ List.mem_cons_self).range_subset (add_mem_range hi.2 (Nat.le_of_lt lt))
      have oldByte : l.ptr + BitVec.ofNat 32 i ∈ range l.home (8 + areaOf s.mem l.home) :=
        header.range_subset (add_mem_range hi.1 (Nat.le_of_lt l.bytes.isLt))
      calc s'.mem (q + BitVec.ofNat 32 i)
          = memcpy s₁.mem q l.ptr (min (areaOf s.mem l.home) bytes.toNat) (q + BitVec.ofNat 32 i) :=
            (kept _ List.mem_cons_self).agree _ newByte
        _ = s₁.mem (l.ptr + BitVec.ofNat 32 i) := memcpy_add (by omega) (by omega)
        _ = s.mem (l.ptr + BitVec.ofNat 32 i) := (same l List.mem_cons_self).agree _ oldByte

end Headers

end Bionic.MallocLeak
