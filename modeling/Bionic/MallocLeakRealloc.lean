import Bionic.MallocLeakRun

/-! # `leak_realloc`

`leak_realloc` takes the eight bytes in front of the pointer for the header.  In front of a pointer that `leak_memalign`
has moved stand other words, with another guard.  `leak_free` follows them to the header, but `leak_realloc` gives the
pointer to `dlrealloc`, which has not returned it. -/

namespace Bionic.MallocLeak

open ByteMemory StateExcept

/-- `leak_realloc` returns the null pointer and leaves all as it is, or it returns a pointer in a block, with the bytes of
the old one. -/
def Resizes (s : State) (l : Live) (bytes : Word) (x : Except Fault (Addr × State)) : Prop :=
  ∃ q s', x = .ok (q, s') ∧
    (q = 0#32 ∧ s' = s ∨
      q ≠ 0#32 ∧ (∃ b ∈ s'.blocks, range q bytes.toNat ⊆ range b.1 b.2) ∧
        ∀ i < min l.bytes.toNat bytes.toNat, s'.mem (q + BitVec.ofNat 32 i) = s.mem (l.ptr + BitVec.ofNat 32 i))

/-- The header stands in front of the pointer, and `record_backtrace` takes the size and gets an entry.  A pointer that has
moved goes to `dlrealloc`, and is the address of a block by chance only. -/
def Served (s : State) (l : Live) (bytes : Word) (c : Alloc) : Prop :=
  if l.ptr = l.home + 8#32 then bytes &&& SIZE_FLAG_MASK = 0#32 ∧ ¬ Entryless s bytes c ∨ c.base = 0#32
  else IsBlock s.blocks l.ptr

section Realloc

variable {s : State} {chains : ℕ → List Addr} {live : List Live} {l : Live} {bytes : Word} {c : Alloc}

/-- A size that has the bit of the flag, or a backtrace without an entry. -/
theorem leakMalloc_stops (bad : bytes &&& SIZE_FLAG_MASK ≠ 0#32 ∨ Entryless s bytes c) (memory : c.base ≠ 0#32) :
    ∃ f, leakMalloc s bytes c = .error f := by
  unfold leakMalloc
  rw [dlmalloc, if_neg memory]
  by_cases fresh : Fresh s.blocks c.base (bytes + 8#32).toNat
  · rw [if_pos fresh]
    by_cases flag : bytes &&& SIZE_FLAG_MASK ≠ 0#32
    · refine ⟨.abort, ?_⟩
      show (if c.base = 0#32 then _ else _) = _
      rw [if_neg memory, recordBacktrace]
      dsimp only
      rw [if_pos flag]
      rfl
    · obtain ⟨null, missing⟩ := bad.resolve_left flag
      refine ⟨.nullEntry, ?_⟩
      have stops : recordBacktrace { s with blocks := (c.base, (bytes + 8#32).toNat) :: s.blocks } bytes c =
          .error .nullEntry := by
        unfold recordBacktrace
        dsimp only
        rw [if_neg flag]
        refine (congrArg (· >>= _) missing).trans ?_
        exact if_pos null
      show (if c.base = 0#32 then _ else _) = _
      rw [if_neg memory, stops]
      rfl
  · rw [if_neg fresh]
    exact ⟨.impossible, rfl⟩

/-- The pointer has not moved. -/
theorem resizes_unmoved (h : Sound s chains (l :: live)) (unmoved : l.ptr = l.home + 8#32)
    (possible : leakRealloc s l.ptr bytes c ≠ .error .impossible) :
    Resizes s l bytes (leakRealloc s l.ptr bytes c) ↔
      bytes &&& SIZE_FLAG_MASK = 0#32 ∧ ¬ Entryless s bytes c ∨ c.base = 0#32 := by
  have header := h.headers l List.mem_cons_self
  constructor
  · rintro ⟨q, s', run, -⟩
    by_contra bad
    obtain ⟨recorded, memory⟩ := not_or.1 bad
    obtain ⟨f, stops⟩ := leakMalloc_stops ((not_and_or.1 recorded).imp_right not_not.1) memory
    have home : l.ptr - 8#32 = l.home := by rw [unmoved, BitVec.add_sub_cancel]
    obtain ⟨null, -, -⟩ := h.blocks.placed _ header.block
    unfold leakRealloc at run
    rw [if_neg (header.ptr_ne_zero h.blocks), home] at run
    dsimp only at run
    rw [if_pos ⟨null, header.guard⟩, stops] at run
    cases run
  · intro fine
    have ends := h.leakRealloc_ends (A := (· = .impossible)) unmoved rfl bytes c
      (fun flag memory => (flag (fine.resolve_right memory).1).elim)
      fun less memory => ((fine.resolve_right memory).2 less).elim
    cases run : leakRealloc s l.ptr bytes c with
    | error f => exact absurd (run.trans (congrArg _ (ends.of_error run))) possible
    | ok p =>
        cases ends.of_ok run with
        | null => exact ⟨_, _, rfl, .inl ⟨rfl, rfl⟩⟩
        | @block q s' chains' sound copy =>
            have new := sound.headers _ List.mem_cons_self
            exact ⟨_, _, rfl, .inr ⟨new.ptr_ne_zero sound.blocks, ⟨_, new.block, new.range_subset⟩, copy⟩⟩

/-- A pointer at which another block starts has no bytes. -/
theorem Header.bytes_of_isBlock (h : Header s chains l) (hb : Blocks s.blocks) (isBlock : IsBlock s.blocks l.ptr) :
    l.bytes.toNat = 0 := by
  obtain ⟨b, hmem, ptr⟩ := isBlock
  obtain ⟨k, placed⟩ := h.placed
  have le := placed.le
  have two := placed.two_le
  have bound := (hb.placed _ h.block).2.2
  have start : l.ptr.toNat = l.home.toNat + 4 * k := by
    rw [placed.ptr, wordAt, BitVec.toNat_add, BitVec.toNat_ofNat]
    simp only at bound
    omega
  have ne : b ≠ (l.home, 8 + areaOf s.mem l.home) := by
    rintro rfl
    have same : l.home.toNat = l.ptr.toNat := congrArg BitVec.toNat ptr
    omega
  have apart := ((hb.eq_or_apart hmem h.block).resolve_left ne).2
  rw [ptr] at apart
  simp only at apart
  omega

/-- The pointer has moved. -/
theorem resizes_moved (h : Sound s chains (l :: live)) (moved : l.ptr ≠ l.home + 8#32)
    (possible : leakRealloc s l.ptr bytes c ≠ .error .impossible) :
    Resizes s l bytes (leakRealloc s l.ptr bytes c) ↔ IsBlock s.blocks l.ptr := by
  have header := h.headers l List.mem_cons_self
  have other : ¬ (l.ptr - 8#32 ≠ 0#32 ∧ word s.mem (l.ptr - 8#32) guardField = GUARD) := by
    rintro ⟨-, guard⟩
    exact absurd (guard.symm.trans (header.guard_of_moved moved).1) (by decide)
  have run : leakRealloc s l.ptr bytes c = dlrealloc s l.ptr bytes c.base := by
    unfold leakRealloc
    rw [if_neg (header.ptr_ne_zero h.blocks)]
    exact if_neg other
  rw [run] at possible ⊢
  unfold dlrealloc at possible ⊢
  cases found : s.blocks.find? fun b => b.1 = l.ptr with
  | none =>
      constructor
      · rintro ⟨q, s', stops, -⟩
        cases stops
      · rintro ⟨b, hmem, ptr⟩
        exact absurd (decide_eq_true ptr) (List.find?_eq_none.1 found b hmem)
  | some b =>
      have isBlock : IsBlock s.blocks l.ptr :=
        ⟨b, List.mem_of_find?_eq_some found, by simpa using List.find?_some found⟩
      refine iff_of_true ?_ isBlock
      rw [found] at possible
      dsimp only at possible ⊢
      by_cases null : c.base = 0#32
      · rw [if_pos null]
        exact ⟨_, _, rfl, .inl ⟨rfl, rfl⟩⟩
      · rw [if_neg null] at possible ⊢
        by_cases fresh : Fresh (s.blocks.filter fun b => b.1 ≠ l.ptr) c.base bytes.toNat
        · rw [if_pos fresh]
          refine ⟨_, _, rfl, .inr ⟨null, ⟨_, List.mem_cons_self, fun x hx => hx⟩, fun i hi => ?_⟩⟩
          have empty := header.bytes_of_isBlock h.blocks isBlock
          omega
        · rw [if_neg fresh] at possible
          exact absurd rfl possible

/-- `leak_realloc` does what it is for if and only if `leak_memalign` has not moved the pointer, and the size has not the
bit of the flag and its backtrace gets an entry, or there is no memory for the block. -/
theorem leakRealloc_iff {r : Run} (h : Reach (fun r call => Unmoved r call ∧ NoWrap call) r) (hl : l ∈ r.live)
    (possible : leakRealloc r.state l.ptr bytes c ≠ .error .impossible) :
    Resizes r.state l bytes (leakRealloc r.state l.ptr bytes c) ↔ Served r.state l bytes c := by
  obtain ⟨chains, sound⟩ := h.sound fun _ _ good => good
  have sound := sound.perm (List.perm_cons_erase hl)
  unfold Served
  split
  · next unmoved => exact resizes_unmoved sound unmoved possible
  · next moved => exact resizes_moved sound moved possible

end Realloc

/-- A block of `leak_malloc` gets smaller. -/
theorem leakRealloc_shrinks :
    ∃ (r : Run) (l : Live) (c : Alloc), l ∈ r.live ∧ l.bytes = 8#32 ∧ Resizes r.state l 4#32
      (leakRealloc r.state l.ptr 4#32 c) := by
  have run : (step (.init fun _ => 0#8) (.malloc 8#32 ⟨[], by decide, 0x1000#32, 0x2000#32⟩)).toOption.any (fun r =>
      r.live.any fun l => decide (l.ptr = l.home + 8#32 ∧ l.bytes = 8#32) &&
        (leakRealloc r.state l.ptr 4#32 ⟨[], by decide, 0x3000#32, 0x4000#32⟩).toOption.isSome) = true := by
    decide +kernel
  obtain ⟨r, ran, after⟩ := exists_ok_of_any run
  rw [List.any_eq_true] at after
  obtain ⟨l, hl, after⟩ := after
  rw [Bool.and_eq_true] at after
  obtain ⟨unmoved, bytes⟩ := of_decide_eq_true after.1
  have reach : Reach (fun r call => Unmoved r call ∧ NoWrap call) r := by
    refine .step (.init _) ?_ ran
    exact ⟨trivial, trivial⟩
  refine ⟨r, l, ⟨[], by decide, 0x3000#32, 0x4000#32⟩, hl, bytes, (leakRealloc_iff reach hl fun stops => ?_).2 ?_⟩
  · rw [stops] at after
    exact Bool.false_ne_true after.2
  · rw [Served, if_pos unmoved]
    exact .inl ⟨by decide, fun less => absurd less.1 (by decide)⟩

/-- `leak_memalign(16, 8)` moves its pointer, and `leak_realloc` gives it to `dlrealloc`. -/
theorem leakRealloc_bad_pointer :
    ∃ (r : Run) (l : Live) (c : Alloc), Reach (fun r call => Unmoved r call ∧ NoWrap call) r ∧ l ∈ r.live ∧
      leakRealloc r.state l.ptr 4#32 c = .error .badPointer ∧
        ¬ Resizes r.state l 4#32 (leakRealloc r.state l.ptr 4#32 c) := by
  have run : (step (.init fun _ => 0#8)
      (.memalign 16#32 8#32 ⟨[], by decide, 0x1000#32, 0x2000#32⟩)).toOption.any (fun r => r.live.any fun l =>
        match leakRealloc r.state l.ptr 4#32 ⟨[], by decide, 0x3000#32, 0x4000#32⟩ with
        | .error f => decide (f = .badPointer)
        | .ok _ => false) = true := by
    decide
  obtain ⟨r, ran, after⟩ := exists_ok_of_any run
  rw [List.any_eq_true] at after
  obtain ⟨l, hl, after⟩ := after
  have reach : Reach (fun r call => Unmoved r call ∧ NoWrap call) r := by
    refine .step (.init _) ?_ ran
    exact ⟨trivial, .inl (by decide)⟩
  refine ⟨r, l, ⟨[], by decide, 0x3000#32, 0x4000#32⟩, reach, hl, ?_⟩
  split at after
  · next f stops =>
    rw [stops, of_decide_eq_true after]
    refine ⟨rfl, ?_⟩
    rintro ⟨q, s', ends, -⟩
    cases ends
  · cases after

end Bionic.MallocLeak
