import Bionic.MallocLeakUser

/-! # Runs of the leak checker

A run is a sequence of calls with pointers that the user has, of stores in the blocks of the user, and of changes of
`gMallocLeakZygoteChild`.  The table accounts for the blocks of the user in each state that is reached, if no sum of
`leak_memalign` wraps around (`accounts_of_reach`).  `leak_calloc` checks its product, but `leak_memalign` does not check
its sum: after one that wraps around it writes the words in front of the pointer outside of the block
(`not_accounts_of_wrap`). -/

namespace Bionic.MallocLeak

open ByteMemory LinkedRing StateExcept

structure Run where
  state : State
  live : List Live

/-- The table is empty at first, and the user has no blocks. -/
def Run.init (m : Mem) : Run where
  state := { mem := m, count := 0#32, slots := fun _ => 0#32, zygoteChild := false, blocks := [] }
  live := []

inductive Call
  | malloc (bytes : Word) (c : Alloc)
  | calloc (n elem : Word) (c : Alloc)
  | realloc (p : Addr) (bytes : Word) (c : Alloc)
  | memalign (alignment bytes : Word) (c : Alloc)
  | free (p : Addr)
  /-- `gMallocLeakZygoteChild` is set. -/
  | zygote (child : Bool)
  /-- The user writes the byte `i` of a block. -/
  | store (p : Addr) (i : ℕ) (v : BitVec 8)

/-- The blocks of the user with a new one, unless the pointer is null. -/
def granted (live : List Live) (home : Addr) (bytes : Word) (memalign : Bool) (p : Addr) : List Live :=
  if p = 0#32 then live else ⟨home, p, bytes, memalign⟩ :: live

/-- The block with the pointer `p`. -/
def Run.block (r : Run) (p : Addr) : Except Fault Live :=
  match r.live.find? fun l => l.ptr = p with
  | some l => .ok l
  | none => .error .impossible

def step (r : Run) : Call → Except Fault Run
  | .malloc bytes c => do
      let (p, s) ← leakMalloc r.state bytes c
      return ⟨s, granted r.live c.base bytes false p⟩
  | .calloc n elem c => do
      let (p, s) ← leakCalloc r.state n elem c
      return ⟨s, granted r.live c.base (n * elem) false p⟩
  | .realloc p bytes c =>
      if p = 0#32 then do
        let (q, s) ← leakRealloc r.state p bytes c
        return ⟨s, granted r.live c.base bytes false q⟩
      else do
        let l ← r.block p
        let (q, s) ← leakRealloc r.state p bytes c
        return ⟨s, if q = 0#32 then r.live else ⟨c.base, q, bytes, false⟩ :: r.live.erase l⟩
  | .memalign alignment bytes c => do
      let (p, s) ← leakMemalign r.state alignment bytes c
      return ⟨s, granted r.live c.base bytes true p⟩
  | .free p =>
      if p = 0#32 then do
        let s ← leakFree r.state p
        return ⟨s, r.live⟩
      else do
        let l ← r.block p
        let s ← leakFree r.state p
        return ⟨s, r.live.erase l⟩
  | .zygote child => .ok { r with state := { r.state with zygoteChild := child } }
  | .store p i v => do
      let l ← r.block p
      if l.bytes.toNat ≤ i then throw .impossible
      return { r with state := { r.state with mem := fill r.state.mem (p + BitVec.ofNat 32 i) 1 fun _ => v } }

/-- `leak_realloc` gets no pointer that `leak_memalign` has moved. -/
def Unmoved (r : Run) : Call → Prop
  | .realloc p _ _ => ∀ l ∈ r.live, l.ptr = p → l.memalign = true → l.ptr = l.home + 8#32
  | _ => True

/-- No sum of `leak_memalign` wraps around, unless there is no memory. -/
def NoWrap : Call → Prop
  | .memalign alignment bytes c => Fits alignment bytes ∨ c.base = 0#32
  | _ => True

/-- The states that are reached by steps that meet the condition. -/
inductive Reach (P : Run → Call → Prop) : Run → Prop
  | init (m : Mem) : Reach P (.init m)
  | step {r call r'} (h : Reach P r) (good : P r call) (run : step r call = .ok r') : Reach P r'

/-! ### What a step keeps -/

/-- The invariant of the runs. -/
def Run.Sound (r : Run) : Prop := ∃ chains, MallocLeak.Sound r.state chains r.live

theorem sound_init (m : Mem) : (Run.init m).Sound := by
  have noEntry : ∀ e, ¬ Entry (fun _ => []) e := fun e ⟨_, _, he⟩ => (List.not_mem_nil he).elim
  have linked : Linked (Run.init m).state fun _ => [] := {
    chained := fun _ _ => ⟨0#32, .nil rfl rfl⟩
    count := (Finset.sum_const_zero (s := Finset.range HASHTABLE_SIZE)).symm
    block := fun e he => (noEntry e he).elim
    length_le := fun e he => (noEntry e he).elim
    slot := fun _ _ _ he => (List.not_mem_nil he).elim
    key := fun e _ he => (noEntry e he).elim }
  exact ⟨_, .nil, ⟨linked, fun e he => (noEntry e he).elim, fun _ _ => rfl⟩, fun _ hl => (List.not_mem_nil hl).elim,
    List.nodup_nil⟩

section Step

variable {r r' : Run} {s : State} {chains : ℕ → List Addr} {live : List Live} {l : Live} {home : Addr} {bytes : Word}
  {memalign : Bool} {p : Addr × State} {A : Fault → Prop}

/-- After an allocation. -/
theorem Got.sound (got : Got s live home bytes memalign p) (h : Sound s chains live) :
    Run.Sound ⟨p.2, granted live home bytes memalign p.1⟩ := by
  cases got with
  | null => exact ⟨chains, h⟩
  | block chains' sound same =>
      refine ⟨chains', ?_⟩
      rw [granted, if_neg ((sound.headers _ List.mem_cons_self).ptr_ne_zero sound.blocks)]
      exact sound

/-- The block of a pointer, and the others. -/
theorem block_ends (h : Sound r.state chains r.live) (impossible : A .impossible) (q : Addr) :
    Ends A (r.block q) fun l => l ∈ r.live ∧ l.ptr = q ∧ Sound r.state chains (l :: r.live.erase l) := by
  unfold Run.block
  cases found : r.live.find? fun l => l.ptr = q with
  | none => exact impossible
  | some l =>
      have hl := List.mem_of_find?_eq_some found
      have ptr : l.ptr = q := by simpa using List.find?_some found
      exact ⟨hl, ptr, h.perm (List.perm_cons_erase hl)⟩

theorem step_ends (h : r.Sound) (impossible : A .impossible) (abort : A .abort) (nullEntry : A .nullEntry)
    (call : Call) (unmoved : Unmoved r call) (noWrap : NoWrap call) : Ends A (step r call) Run.Sound := by
  obtain ⟨chains, h⟩ := h
  cases call with
  | malloc bytes c =>
      refine (h.leakMalloc_ends impossible bytes c (fun _ _ => abort) (fun _ _ => nullEntry) false).bind fun p got => ?_
      exact got.sound h
  | calloc n elem c => exact (h.leakCalloc_ends impossible abort nullEntry n elem c).bind fun p got => got.sound h
  | memalign alignment bytes c =>
      exact (h.leakMemalign_ends impossible abort nullEntry alignment bytes c noWrap).bind fun p got => got.sound h
  | realloc q bytes c =>
      unfold step
      dsimp only
      by_cases null : q = 0#32
      · rw [if_pos null, leakRealloc, if_pos null]
        refine (h.leakMalloc_ends impossible bytes c (fun _ _ => abort) (fun _ _ => nullEntry) false).bind
          fun p got => ?_
        exact got.sound h
      · rw [if_neg null]
        refine (block_ends h impossible q).bind fun l hl => ?_
        obtain ⟨hmem, rfl, sound⟩ := hl
        have plain : l.ptr = l.home + 8#32 := by
          cases memalign : l.memalign with
          | true => exact unmoved l hmem rfl memalign
          | false => exact ((h.headers l hmem).ptr_of_not_memalign memalign).1
        refine (sound.leakRealloc_ends plain impossible bytes c (fun _ _ => abort) fun _ _ => nullEntry).bind
          fun p resized => ?_
        cases resized with
        | null => exact ⟨chains, h⟩
        | block chains' sound' copy =>
            refine ⟨chains', ?_⟩
            rw [if_neg ((sound'.headers _ List.mem_cons_self).ptr_ne_zero sound'.blocks)]
            exact sound'
  | free q =>
      unfold step
      dsimp only
      by_cases null : q = 0#32
      · rw [if_pos null, leakFree, if_pos null]
        exact ⟨chains, h⟩
      · rw [if_neg null]
        refine (block_ends h impossible q).bind fun l hl => ?_
        obtain ⟨-, rfl, sound⟩ := hl
        obtain ⟨s', chains', run, sound', -⟩ := sound.leakFree_spec
        rw [run]
        exact ⟨chains', sound'⟩
  | zygote child =>
      have table : Table { r.state with zygoteChild := child } chains (refsOf r.state.mem r.live) :=
        h.table.congr rfl rfl (fun _ _ _ hn => hn) fun _ _ _ _ _ _ => rfl
      refine ⟨chains, h.blocks, table, fun l hl => ?_, h.nodup⟩
      obtain ⟨block, other, entry, guard, placed⟩ := h.headers l hl
      exact ⟨block, other, entry, guard, placed⟩
  | store q i v =>
      unfold step
      dsimp only
      refine (block_ends h impossible q).bind fun l hl => ?_
      obtain ⟨hmem, rfl, -⟩ := hl
      by_cases out : l.bytes.toNat ≤ i
      · rw [if_pos out]
        exact impossible
      · rw [if_neg out]
        have lt := l.bytes.isLt
        refine ⟨chains, (h.write hmem fun x hx => fill_of_notMem fun hx' => hx ?_).1⟩
        exact range_add_subset (by omega) (by omega) hx'

theorem Reach.sound {P : Run → Call → Prop} (good : ∀ r call, P r call → Unmoved r call ∧ NoWrap call)
    (h : Reach P r) : r.Sound := by
  induction h with
  | init m => exact sound_init m
  | @step r call r' _ hp run ih =>
      obtain ⟨unmoved, noWrap⟩ := good r call hp
      exact (step_ends (A := fun _ => True) ih trivial trivial trivial call unmoved noWrap).of_ok run

end Step

/-! ### The accounts -/

/-- The table accounts for the blocks of the user. -/
structure Accounts (r : Run) (chains : ℕ → List Addr) : Prop where
  count : r.state.count.toNat = ∑ slot ∈ Finset.range HASHTABLE_SIZE, (chains slot).length
  chained : ∀ slot < HASHTABLE_SIZE, Chained r.state slot (chains slot)
  slot : ∀ slot < HASHTABLE_SIZE, ∀ e ∈ chains slot,
    (getHash (backtraceOf r.state.mem e)).toNat % HASHTABLE_SIZE = slot
  key : ∀ e e', Entry chains e → Entry chains e' → backtraceOf r.state.mem e = backtraceOf r.state.mem e' →
    word r.state.mem e sizeField = word r.state.mem e' sizeField → e = e'
  allocations : ∀ e, Entry chains e → (word r.state.mem e allocationsField).toNat =
    (r.live.countP fun l => word r.state.mem (findHeader r.state.mem l.ptr) entryField = e)
  used : ∀ e, Entry chains e → word r.state.mem e allocationsField ≠ 0#32

theorem Run.Sound.accounts {r : Run} (h : r.Sound) : ∃ chains, Accounts r chains := by
  obtain ⟨chains, h⟩ := h
  refine ⟨chains, h.table.count, h.table.chained, fun slot hslot e he => (h.table.slot slot hslot e he).2, h.table.key,
    fun e he => ?_, fun e he zero => ?_⟩
  · rw [(h.table.allocations e he).1]
    refine List.countP_congr fun l hl => ?_
    rw [(h.headers l hl).findHeader_eq]
  · obtain ⟨allocations, pos⟩ := h.table.allocations e he
    rw [zero] at allocations
    exact pos allocations.symm

/-- If no sum of `leak_memalign` wraps around, the table accounts for the blocks, and no call gets lost. -/
theorem accounts_of_reach {r : Run} (h : Reach (fun r call => Unmoved r call ∧ NoWrap call) r) :
    (∃ chains, Accounts r chains) ∧
      ∀ call f, Unmoved r call → NoWrap call → step r call = .error f →
        f = .impossible ∨ f = .abort ∨ f = .nullEntry := by
  have sound := h.sound fun _ _ good => good
  refine ⟨sound.accounts, fun call f unmoved noWrap run => ?_⟩
  exact (step_ends (A := fun f => f = .impossible ∨ f = .abort ∨ f = .nullEntry) sound (.inl rfl) (.inr (.inl rfl))
    (.inr (.inr rfl)) call unmoved noWrap).of_error run

/-- A block of `leak_malloc`, and one of `leak_memalign` whose pointer moves. -/
theorem accounts_of_two_blocks :
    ∃ r, (∃ l ∈ r.live, l.ptr ≠ l.home + 8#32) ∧ r.live.length = 2 ∧ (∃ chains, Accounts r chains) ∧
      ∀ call f, Unmoved r call → NoWrap call → step r call = .error f →
        f = .impossible ∨ f = .abort ∨ f = .nullEntry := by
  have run : ((step (.init fun _ => 0#8) (.malloc 8#32 ⟨[], by decide, 0x1000#32, 0x2000#32⟩)).bind fun r =>
      step r (.memalign 16#32 8#32 ⟨[], by decide, 0x3000#32, 0x4000#32⟩)).toOption.any (fun r =>
        r.live.any (fun l => l.ptr ≠ l.home + 8#32) && decide (r.live.length = 2)) = true := by decide
  obtain ⟨r, ran, after⟩ := exists_ok_of_any run
  obtain ⟨r₁, first, second⟩ := bind_eq_ok.1 ran
  rw [Bool.and_eq_true, List.any_eq_true] at after
  obtain ⟨⟨l, hl, moved⟩, length⟩ := after
  have reach : Reach (fun r call => Unmoved r call ∧ NoWrap call) r := by
    refine .step (.step (.init _) ?_ first) ?_ second
    · exact ⟨trivial, trivial⟩
    · exact ⟨trivial, .inl (by decide)⟩
  exact ⟨r, ⟨l, hl, of_decide_eq_true moved⟩, of_decide_eq_true length, accounts_of_reach reach⟩

/-- `leak_memalign(4096, 2^32 - 4088)` asks for 0 bytes, and the words in front of its pointer are those of the entry. -/
theorem not_accounts_of_wrap : ∃ r, Reach Unmoved r ∧ ¬ ∃ chains, Accounts r chains := by
  have run : (step (.init fun _ => 0#8)
      (.memalign 4096#32 (BitVec.ofNat 32 (2 ^ 32 - 4088)) ⟨[], by decide, 0x1010#32, 0x1FE8#32⟩)).toOption.any (fun r =>
        decide (r.state.slots 0 = 0x1FE8#32 ∧ r.live.length = 1 ∧
          word r.state.mem 0x1FE8#32 allocationsField = MEMALIGN_GUARD)) = true := by decide
  obtain ⟨r, ran, after⟩ := exists_ok_of_any run
  obtain ⟨head, length, guard⟩ := of_decide_eq_true after
  have reach : Reach Unmoved r := by
    refine .step (.init _) ?_ ran
    exact trivial
  refine ⟨r, reach, fun ⟨chains, accounts⟩ => ?_⟩
  obtain ⟨last, ring⟩ := accounts.chained 0 (by decide)
  have first : nextOf r.state 0 0#32 = 0x1FE8#32 := (if_pos rfl).trans head
  have entry : 0x1FE8#32 ∈ chains 0 :=
    (List.mem_cons.1 (first ▸ ring.next_mem List.mem_cons_self)).resolve_left (by decide)
  have allocations := accounts.allocations _ ⟨0, by decide, entry⟩
  rw [guard] at allocations
  have le := List.countP_le_length (l := r.live)
    (p := fun l => word r.state.mem (findHeader r.state.mem l.ptr) entryField = 0x1FE8#32)
  rw [← allocations, length] at le
  exact absurd le (by decide)

end Bionic.MallocLeak
