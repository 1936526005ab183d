import Bionic.MallocLeakTable

/-! # Recording and dropping a block

`record_backtrace` adds one to the references of an entry, that of the backtrace and the size, and `release` takes one
from the entry of a header.  Both leave all blocks that are no entries as they are. -/

namespace Bionic.MallocLeak

open ByteMemory LinkedRing StateExcept

/-! ### The operations -/

section Operations

variable {s : State} {chains : ℕ → List Addr} {refs : Addr → ℕ} {e x : Addr} {backtrace : List Word} {size : Word}
  {b : Addr × ℕ} {k : ℕ}

/-- What `find_entry` looks for. -/
def Matches (m : Mem) (backtrace : List Word) (size : Word) (x : Addr) : Prop :=
  word m x sizeField = size ∧ backtraceOf m x = backtrace

/-- The search from behind the node `a` of a chain. -/
theorem findEntryFrom_path (backtrace : List Word) (size : Word) {slot : ℕ} {last a : Addr} {l : List Addr} {fuel : ℕ}
    (path : Path (nextOf s slot) (prevOf s last) a l 0#32) (null : 0#32 ∉ l) (hfuel : l.length < fuel) :
    ∃ r, findEntryFrom s.mem backtrace size fuel (nextOf s slot a) = .ok r ∧
      (∀ x ∈ r, x ∈ l ∧ Matches s.mem backtrace size x) ∧ (r = none → ∀ x ∈ l, ¬ Matches s.mem backtrace size x) := by
  induction l generalizing a fuel with
  | nil =>
      obtain ⟨fuel, rfl⟩ := Nat.exists_eq_add_of_le' hfuel
      refine ⟨none, ?_, by rintro x ⟨⟩, fun _ x hx => (List.not_mem_nil hx).elim⟩
      rw [path.1]
      exact if_pos rfl
  | cons c l ih =>
      obtain ⟨fuel, rfl⟩ := Nat.exists_eq_add_of_le' (Nat.lt_of_le_of_lt (Nat.zero_le _) hfuel)
      have ne : c ≠ 0#32 := fun zero => null (zero ▸ List.mem_cons_self)
      obtain ⟨⟨hnext, -⟩, rest⟩ := path
      rw [hnext, findEntryFrom, if_neg ne]
      by_cases found : word s.mem c sizeField = size ∧ backtraceOf s.mem c = backtrace
      · rw [if_pos found]
        refine ⟨some c, rfl, ?_, fun h => nomatch h⟩
        rintro x ⟨⟩
        exact ⟨List.mem_cons_self, found⟩
      · rw [if_neg found]
        have behind : nextOf s slot c = word s.mem c nextField := if_neg ne
        obtain ⟨r, run, hit, miss⟩ := ih rest (fun h => null (List.mem_cons_of_mem _ h))
          (Nat.lt_of_succ_lt_succ hfuel)
        rw [behind] at run
        refine ⟨r, run, fun x hx => ⟨List.mem_cons_of_mem _ (hit x hx).1, (hit x hx).2⟩, fun none x hx => ?_⟩
        rcases List.mem_cons.1 hx with rfl | hx
        · exact found
        · exact miss none x hx

/-- `find_entry` finds the entry of the backtrace and the size, if there is one. -/
theorem Linked.findEntry (h : Linked s chains) (backtrace : List Word) (size : Word) :
    ∃ r, findEntry s (slotOf backtrace) backtrace size = .ok r ∧
      (∀ x ∈ r, Entry chains x ∧ Matches s.mem backtrace size x) ∧
      (r = none → ∀ x, Entry chains x → ¬ Matches s.mem backtrace size x) := by
  have hslot := slotOf_lt backtrace
  obtain ⟨last, ring⟩ := h.chained _ hslot
  have bound : (chains (slotOf backtrace)).length < 2 ^ 32 :=
    length_lt_of_nodup (List.nodup_cons.1 ring.nodup).2 ring.notMem
  obtain ⟨r, run, hit, miss⟩ := findEntryFrom_path backtrace size ring.path ring.notMem bound
  have head : nextOf s (slotOf backtrace) 0#32 = s.slots (slotOf backtrace) := if_pos rfl
  rw [head] at run
  refine ⟨r, run, fun x hx => ⟨⟨_, hslot, (hit x hx).1⟩, (hit x hx).2⟩, fun none x hx found => ?_⟩
  obtain ⟨i, hi, hmem⟩ := hx
  have same : i = slotOf backtrace := by rw [← (h.slot i hi x hmem).2, found.2]
  exact miss none x (same ▸ hmem) found

/-- Linking a new entry in leaves the blocks that are no entries as they are. -/
theorem Linked.agree_link (h : Linked s chains) (hb : Blocks s.blocks)
    (fresh : Fresh s.blocks e (24 + 4 * backtrace.length)) (size : Word) (hmem : b ∈ s.blocks)
    (other : ¬ Entry chains b.1) :
    Agree s.mem (linkEntry (withBlock s e backtrace) e (slotOf backtrace) size backtrace).mem b := by
  have hb' : Blocks (withBlock s e backtrace).blocks := hb.cons fresh
  have init := agree_initEntry hb' List.mem_cons_self (slotOf backtrace) (s.slots (slotOf backtrace)) size
    (Nat.le_refl _) (List.mem_cons_of_mem _ hmem) (fresh.2.2.2 b hmem).1 s.mem
  rcases h.head_cases (slotOf_lt backtrace) with null | head
  · have mem : (linkEntry (withBlock s e backtrace) e (slotOf backtrace) size backtrace).mem =
        initEntry s.mem e (slotOf backtrace) (s.slots (slotOf backtrace)) size backtrace := if_neg (not_not.2 null)
    rw [mem]
    exact init
  · have entry : Entry chains (s.slots (slotOf backtrace)) := ⟨_, slotOf_lt _, head⟩
    have mem : (linkEntry (withBlock s e backtrace) e (slotOf backtrace) size backtrace).mem =
        setWord (initEntry s.mem e (slotOf backtrace) (s.slots (slotOf backtrace)) size backtrace)
          (s.slots (slotOf backtrace)) prevField e := if_pos (h.ne_zero entry)
    rw [mem]
    exact init.trans (agree_setWord hb (h.block _ entry) (by simp only [prevField]; omega) hmem
      (fun same => other (same ▸ entry)) _ e)

/-- So does removing an entry. -/
theorem Linked.agree_unlink (h : Linked s chains) (hb : Blocks s.blocks) (hk : k < HASHTABLE_SIZE) (he : e ∈ chains k)
    (hmem : b ∈ s.blocks) (other : ¬ Entry chains b.1) : Agree s.mem (removeEntry s e).mem b := by
  obtain ⟨⟨-, hprev⟩, -, hnext⟩ := h.neighbours hk he
  have store : ∀ a, (a = 0#32 ∨ a ∈ chains k) → ∀ i ≤ allocationsField, ∀ m v,
      Agree m (if a ≠ 0#32 then setWord m a i v else m) b := by
    intro a ha i hi m v
    rcases ha with null | ha
    · rw [if_neg (not_not.2 null)]
      exact fun _ _ => rfl
    · have entry : Entry chains a := ⟨k, hk, ha⟩
      have hi' : i ≤ 5 := hi
      rw [if_pos (h.ne_zero entry)]
      exact agree_setWord hb (h.block a entry) (by omega) hmem (fun same => other (same ▸ entry)) m v
  exact (store _ hprev nextField (by decide) _ _).trans (store _ hnext prevField (by decide) _ _)

theorem size_masked {bytes : Word} (h : bytes &&& SIZE_FLAG_MASK = 0#32) :
    bytes &&& ~~~SIZE_FLAG_MASK = bytes ∧ (bytes ||| SIZE_FLAG_MASK) &&& ~~~SIZE_FLAG_MASK = bytes := by
  have bit : ∀ i, (hi : i < 32) → (bytes[i] && SIZE_FLAG_MASK[i]) = false := by
    intro i hi
    have at_i := congrArg (fun v : Word => v[i]) h
    simpa only [BitVec.getElem_and, BitVec.getElem_zero] using at_i
  constructor
  · ext i hi
    have := bit i hi
    rw [BitVec.getElem_and, BitVec.getElem_not]
    cases hx : bytes[i] <;> cases hm : SIZE_FLAG_MASK[i] <;> simp_all
  · ext i hi
    have := bit i hi
    rw [BitVec.getElem_and, BitVec.getElem_or, BitVec.getElem_not]
    cases hx : bytes[i] <;> cases hm : SIZE_FLAG_MASK[i] <;> simp_all

theorem Linked.size_setAllocations (h : Linked s chains) (hb : Blocks s.blocks) (he : Entry chains e) (v : Word)
    (hx : Entry chains x) : word (setWord s.mem e allocationsField v) x sizeField = word s.mem x sizeField := by
  rw [h.word_setWord hb he hx (Nat.le_refl _) (by simp only [sizeField]; omega),
    if_neg fun same => absurd same.2 (by decide)]

theorem Linked.agree_setAllocations (h : Linked s chains) (hb : Blocks s.blocks) (he : Entry chains e) (v : Word)
    (hmem : b ∈ s.blocks) (other : ¬ Entry chains b.1) : Agree s.mem (setWord s.mem e allocationsField v) b :=
  agree_setWord hb (h.block e he) (by simp only [allocationsField]; omega) hmem (fun same => other (same ▸ he)) _ v

/-- What `record_backtrace` leaves. -/
structure Recorded (s : State) (chains : ℕ → List Addr) (refs : Addr → ℕ) (bytes : Word) (e : Addr) (s' : State)
    (chains' : ℕ → List Addr) : Prop where
  table : Table s' chains' (Function.update refs e (refs e + 1))
  blocks : Blocks s'.blocks
  entry : Entry chains' e
  size : word s'.mem e sizeField &&& ~~~SIZE_FLAG_MASK = bytes
  sub : ∀ b ∈ s.blocks, b ∈ s'.blocks
  keep : ∀ x, Entry chains x → Entry chains' x ∧ word s'.mem x sizeField = word s.mem x sizeField
  origin : ∀ x, Entry chains' x → Entry chains x ∨ ∀ b ∈ s.blocks, b.1 ≠ x
  frame : ∀ b ∈ s.blocks, ¬ Entry chains b.1 → Agree s.mem s'.mem b

/-- Where there is an entry already. -/
theorem recorded_found (h : Table s chains refs) (hb : Blocks s.blocks) (bound : ∀ e, refs e + 1 < 2 ^ 32)
    (he : Entry chains e) {bytes : Word} (hsize : word s.mem e sizeField &&& ~~~SIZE_FLAG_MASK = bytes) :
    Recorded s chains refs bytes e
      { s with mem := setWord s.mem e allocationsField (word s.mem e allocationsField + 1#32) } chains := by
  have allocations := (h.allocations e he).1
  have next : (word s.mem e allocationsField + 1#32).toNat = refs e + 1 := by
    have := bound e
    rw [BitVec.toNat_add, allocations]
    simp only [BitVec.toNat_ofNat]
    omega
  have ne : word s.mem e allocationsField + 1#32 ≠ 0#32 := by
    intro zero
    rw [zero] at next
    simp only [BitVec.toNat_ofNat] at next
    omega
  have table := h.setAllocations hb he ne
  rw [next] at table
  refine ⟨table, hb, he, ?_, fun b hb' => hb', fun x hx => ⟨hx, h.size_setAllocations hb he _ hx⟩,
    fun x hx => .inl hx, fun b hb' other => h.agree_setAllocations hb he _ hb' other⟩
  rw [h.size_setAllocations hb he _ he]
  exact hsize

/-- Where there is none, and the allocator has a block for it. -/
theorem recorded_new (h : Table s chains refs) (hb : Blocks s.blocks)
    (fresh : Fresh s.blocks e (24 + 4 * backtrace.length)) (hlen : backtrace.length ≤ BACKTRACE_SIZE) {bytes : Word}
    (hsize : size &&& ~~~SIZE_FLAG_MASK = bytes) (new : ∀ x, Entry chains x → ¬ Matches s.mem backtrace size x) :
    Recorded s chains refs bytes e (linkEntry (withBlock s e backtrace) e (slotOf backtrace) size backtrace)
      (Function.update chains (slotOf backtrace) (e :: chains (slotOf backtrace))) := by
  have hslot := slotOf_lt backtrace
  have linked := h.link hb fresh hlen fun x hx trace same => new x hx ⟨same, trace⟩
  have other := fun x (hx : Entry chains x) => h.link_other hb fresh size hx
  have he : ¬ Entry chains e := fun he => (other e he).1 rfl
  obtain ⟨-, -, -, newSize, newAllocations, -⟩ := h.link_new hb fresh hlen size
  have field : ∀ x, Entry chains x → ∀ i ≤ allocationsField, i ≠ prevField →
      word (linkEntry (withBlock s e backtrace) e (slotOf backtrace) size backtrace).mem x i = word s.mem x i := by
    intro x hx i hi ne
    rw [(other x hx).2.1 i hi, if_neg fun same => ne same.2]
  refine ⟨⟨linked, fun x hx => ?_, fun x hx => ?_⟩, hb.cons fresh, (entry_update_cons hslot).2 (.inl rfl), ?_,
    fun b hb' => List.mem_cons_of_mem _ hb', fun x hx => ?_, fun x hx => ?_, fun b hb' hx => ?_⟩
  · rcases (entry_update_cons hslot).1 hx with rfl | old
    · rw [newAllocations, Function.update_self, h.others x he]
      exact ⟨rfl, Nat.succ_ne_zero 0⟩
    · rw [field x old allocationsField (by decide) (by decide), Function.update_of_ne (other x old).1]
      exact h.allocations x old
  · have ne : x ≠ e := fun same => hx ((entry_update_cons hslot).2 (.inl same))
    rw [Function.update_of_ne ne]
    exact h.others x fun old => hx ((entry_update_cons hslot).2 (.inr old))
  · rw [newSize]
    exact hsize
  · exact ⟨(entry_update_cons hslot).2 (.inr hx), field x hx sizeField (by decide) (by decide)⟩
  · rcases (entry_update_cons hslot).1 hx with rfl | old
    · exact .inr fun b hb' => (fresh.2.2.2 b hb').1
    · exact .inl old
  · exact h.agree_link hb fresh size hb' hx

variable {A : Fault → Prop}

theorem recordBacktrace_ends (h : Table s chains refs) (hb : Blocks s.blocks) (bound : ∀ e, refs e + 1 < 2 ^ 32)
    (impossible : A .impossible) (bytes : Word) (abort : bytes &&& SIZE_FLAG_MASK ≠ 0#32 → A .abort) (c : Alloc)
    (nullEntry : Entryless s bytes c → A .nullEntry) :
    Ends A (recordBacktrace s bytes c) fun p => ∃ chains', Recorded s chains refs bytes p.1 p.2 chains' := by
  unfold recordBacktrace
  dsimp only
  by_cases flag : bytes &&& SIZE_FLAG_MASK ≠ 0#32
  · rw [if_pos flag]
    exact abort flag
  · rw [if_neg flag]
    obtain ⟨plain, flagged⟩ := size_masked (not_not.1 flag)
    have hsize : (if s.zygoteChild then bytes ||| SIZE_FLAG_MASK else bytes) &&& ~~~SIZE_FLAG_MASK = bytes := by
      split
      · exact flagged
      · exact plain
    obtain ⟨r, run, hit, miss⟩ := h.findEntry c.backtrace (if s.zygoteChild then bytes ||| SIZE_FLAG_MASK else bytes)
    have ran : Ends A (findEntry s (slotOf c.backtrace) c.backtrace
        (if s.zygoteChild then bytes ||| SIZE_FLAG_MASK else bytes)) (· = r) := by
      rw [run]
      exact rfl
    refine ran.bind fun r' hr => ?_
    subst hr
    cases r' with
    | some e =>
        obtain ⟨he, hmatch⟩ := hit e rfl
        exact ⟨chains, recorded_found h hb bound he (hmatch.1 ▸ hsize)⟩
    | none =>
        dsimp only
        by_cases null : c.entry = 0#32
        · rw [if_pos null]
          exact nullEntry ⟨null, run⟩
        · rw [if_neg null]
          have len : (BitVec.ofNat 32 (24 + 4 * c.backtrace.length)).toNat = 24 + 4 * c.backtrace.length := by
            have := c.length_le
            rw [BACKTRACE_SIZE] at this
            rw [BitVec.toNat_ofNat]
            omega
          rw [dlmalloc, if_neg null, len]
          by_cases fresh : Fresh s.blocks c.entry (24 + 4 * c.backtrace.length)
          · rw [if_pos fresh]
            exact ⟨_, recorded_new h hb fresh c.length_le hsize (miss rfl)⟩
          · rw [if_neg fresh]
            exact impossible

/-! ### Dropping a block -/

/-- The state without a block. -/
def withoutBlock (s : State) (a : Addr) : State := { s with blocks := s.blocks.filter fun b => b.1 ≠ a }

theorem dlfree_of_isBlock {a : Addr} (h : IsBlock s.blocks a) : dlfree s a = .ok (withoutBlock s a) := if_pos h

theorem mem_withoutBlock {a : Addr} : b ∈ (withoutBlock s a).blocks ↔ b ∈ s.blocks ∧ b.1 ≠ a := by
  rw [withoutBlock, List.mem_filter, decide_eq_true_iff]

/-- A block that is no entry goes. -/
theorem Table.without (h : Table s chains refs) {a : Addr} (other : ¬ Entry chains a) :
    Table (withoutBlock s a) chains refs := by
  refine h.congr rfl rfl (fun x hx n hn => ?_) fun _ _ _ _ _ _ => rfl
  exact mem_withoutBlock.2 ⟨hn, fun same => other (same ▸ hx)⟩

/-- An entry without references goes. -/
theorem Linked.remove (h : Linked s chains) (hb : Blocks s.blocks) (hk : k < HASHTABLE_SIZE) (he : e ∈ chains k)
    (allocations : ∀ x, Entry chains x → x ≠ e → (word s.mem x allocationsField).toNat = refs x ∧ refs x ≠ 0)
    (others : ∀ x, ¬ Entry chains x → refs x = 0) :
    Table (removeEntry s e) (Function.update chains k ((chains k).erase e)) (Function.update refs e 0) := by
  refine ⟨h.unlink hb hk he, fun x hx => ?_, fun x hx => ?_⟩
  · obtain ⟨old, ne⟩ := (h.entry_update_erase hk he).1 hx
    rw [(h.unlink_words hb hk he old).1 allocationsField (Nat.le_refl _),
      if_neg fun same => absurd same.2 (by decide), if_neg fun same => absurd same.2 (by decide),
      Function.update_of_ne ne]
    exact allocations x old ne
  · by_cases same : x = e
    · rw [same, Function.update_self]
    · rw [Function.update_of_ne same]
      exact others x fun old => hx ((h.entry_update_erase hk he).2 ⟨old, same⟩)

/-- What `release` leaves. -/
structure Released (s : State) (chains : ℕ → List Addr) (refs : Addr → ℕ) (header e : Addr) (s' : State)
    (chains' : ℕ → List Addr) : Prop where
  table : Table s' chains' (Function.update refs e (refs e - 1))
  blocks : Blocks s'.blocks
  sub : ∀ b ∈ s.blocks, ¬ Entry chains b.1 → b.1 ≠ header → b ∈ s'.blocks
  keep : ∀ x, Entry chains' x → Entry chains x ∧ word s'.mem x sizeField = word s.mem x sizeField
  frame : ∀ b ∈ s.blocks, ¬ Entry chains b.1 → Agree s.mem s'.mem b

section Release

variable {header : Addr}

/-- Where other blocks point to the entry. -/
theorem released_more (h : Table s chains refs) (hb : Blocks s.blocks) (other : ¬ Entry chains header)
    (he : Entry chains e) {v : Word} (hv : v ≠ 0#32) (left : v.toNat = refs e - 1) :
    Released s chains refs header e (withoutBlock { s with mem := setWord s.mem e allocationsField v } header)
      chains := by
  have table := h.setAllocations hb he hv
  rw [left] at table
  exact ⟨table.without other, hb.filter _, fun b hbs _ ne => mem_withoutBlock.2 ⟨hbs, ne⟩,
    fun x hx => ⟨hx, h.size_setAllocations hb he v hx⟩, fun b hbs ne => h.agree_setAllocations hb he v hbs ne⟩

/-- Where the block is the last one of the entry, and `t` the state when its number of allocations is zero. -/
theorem released_last {t : State} (h : Linked t chains) (hb : Blocks t.blocks) (blocks : t.blocks = s.blocks)
    (allocations : ∀ x, Entry chains x → x ≠ e → (word t.mem x allocationsField).toNat = refs x ∧ refs x ≠ 0)
    (others : ∀ x, ¬ Entry chains x → refs x = 0)
    (size : ∀ x, Entry chains x → word t.mem x sizeField = word s.mem x sizeField)
    (frame : ∀ b ∈ s.blocks, ¬ Entry chains b.1 → Agree s.mem t.mem b) (other : ¬ Entry chains header)
    (hk : k < HASHTABLE_SIZE) (he : e ∈ chains k) (left : refs e - 1 = 0) :
    Released s chains refs header e (withoutBlock (withoutBlock (removeEntry t e) e) header)
      (Function.update chains k ((chains k).erase e)) := by
  have entry : Entry chains e := ⟨k, hk, he⟩
  have left_iff := fun {x} => (h.entry_update_erase hk he (x := x))
  have removed := h.remove hb hk he allocations others
  refine ⟨?_, (hb.filter _).filter _, fun b hbs ne ne' => ?_, fun x hx => ?_, fun b hbs ne => ?_⟩
  · rw [left]
    exact (removed.without fun hx => (left_iff.1 hx).2 rfl).without fun hx => other (left_iff.1 hx).1
  · rw [← blocks] at hbs
    exact mem_withoutBlock.2 ⟨mem_withoutBlock.2 ⟨hbs, fun same => ne (same ▸ entry)⟩, ne'⟩
  · obtain ⟨old, -⟩ := left_iff.1 hx
    have words := (h.unlink_words hb hk he old).1 sizeField (by decide)
    rw [if_neg fun same => absurd same.2 (by decide), if_neg fun same => absurd same.2 (by decide)] at words
    exact ⟨old, words.trans (size x old)⟩
  · exact (frame b hbs ne).trans (h.agree_unlink hb hk he (blocks ▸ hbs) ne)

theorem release_spec (h : Table s chains refs) (hb : Blocks s.blocks) (hheader : IsBlock s.blocks header)
    (other : ¬ Entry chains header) (he : Entry chains (word s.mem header entryField)) :
    ∃ s' chains', release s header = .ok s' ∧
      Released s chains refs header (word s.mem header entryField) s' chains' := by
  unfold release
  dsimp only
  generalize word s.mem header entryField = e at he
  obtain ⟨allocations, pos⟩ := h.allocations e he
  have left : (word s.mem e allocationsField - 1#32).toNat = refs e - 1 := by
    have := (word s.mem e allocationsField).isLt
    rw [BitVec.toNat_sub, allocations]
    simp only [BitVec.toNat_ofNat]
    omega
  rw [word_setWord_self]
  by_cases last : word s.mem e allocationsField - 1#32 = 0#32
  · have linked := h.toLinked.setAllocations hb he 0#32
    rw [last] at left
    rw [if_pos last, last]
    generalize ht : ({ s with mem := setWord s.mem e allocationsField 0#32 } : State) = t at linked ⊢
    have mem : t.mem = setWord s.mem e allocationsField 0#32 := by rw [← ht]
    have blocks : t.blocks = s.blocks := by rw [← ht]
    obtain ⟨k, hk, hmem⟩ := he
    have he : Entry chains e := ⟨k, hk, hmem⟩
    obtain ⟨b, hbs, rfl⟩ := hheader
    have isBlock : IsBlock (removeEntry t e).blocks e := ⟨_, linked.block e he, rfl⟩
    have headerLeft : IsBlock (withoutBlock (removeEntry t e) e).blocks b.1 :=
      ⟨b, mem_withoutBlock.2 ⟨blocks ▸ hbs, fun same => other (same ▸ he)⟩, rfl⟩
    rw [dlfree_of_isBlock isBlock]
    refine ⟨_, _, dlfree_of_isBlock headerLeft, released_last linked (blocks ▸ hb) blocks (fun x hx ne => ?_) h.others
      (fun x hx => ?_) (fun b hbs ne => ?_) other hk hmem left.symm⟩
    · rw [mem, h.word_setWord hb he hx (Nat.le_refl _) (by simp only [allocationsField]; omega),
        if_neg fun same => ne same.1]
      exact h.allocations x hx
    · rw [mem]
      exact h.size_setAllocations hb he _ hx
    · rw [mem]
      exact h.agree_setAllocations hb he _ hbs ne
  · rw [if_neg last]
    have isBlock :
        IsBlock ({ s with mem := setWord s.mem e allocationsField (word s.mem e allocationsField - 1#32) } : State).blocks
          header := hheader
    exact ⟨_, _, dlfree_of_isBlock isBlock, released_more h hb other he last left⟩

end Release

end Operations

end Bionic.MallocLeak
