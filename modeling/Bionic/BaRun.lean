import Bionic.BaRefine

/-! # Runs of the buddy allocator

A run is any finite sequence of `ba_allocate(len)` and `ba_free(i)` after `ba_init`, where `i` is
a block that `ba_allocate` returned and that has not been freed since (`Sys.live`).  The invariant
`Inv` of a run is that the bitmap holds a coalesced buddy tree whose allocated blocks are the live
ones; `step_inv` keeps it, under the condition that the entry behind the bitmap, which the merge
loop reads when the last live block is freed, does not look like a free block of order 8.

* `live_blocks_tile`: tiling, alignment and disjointness of the blocks;
* `coalesced_and_complete`: no two free buddies, `ba_allocate` fails only for want of an aligned
  free run, and freeing everything gives back the block structure of `ba_init`;
* `touched_lt_iff`: which runs stay inside the bitmap. -/

namespace Bionic.Ba

open Buddy Buddy.BTree

inductive Op where
  | allocate (len : ℕ)
  | free (i : ℕ)
deriving DecidableEq, Repr

/-- The allocator together with the blocks its callers hold. -/
structure Sys where
  ba : State
  live : List ℕ

/-- One call; `none` for a `ba_free` of an index that is not a live block. -/
def step (s : Sys) : Op → Option Sys
  | .allocate len =>
      some ⟨(baAllocate len s.ba).2, (baAllocate len s.ba).1.toList ++ s.live⟩
  | .free i => if i ∈ s.live then some ⟨(baFree i s.ba).2, s.live.erase i⟩ else none

def run : List Op → Sys → Option Sys
  | [], s => some s
  | op :: ops, s => (step s op).bind (run ops)

/-- The state after `ba_init`, with the memory `beyond` behind the bitmap. -/
def boot (beyond : ℕ → BaBits) : Sys := ⟨start beyond, []⟩

/-! ### The walk over the blocks -/

/-- The indices reached from `curr` by `BA_NEXT_INDEX`, up to the end of the bitmap. -/
def walk (ba : State) : ℕ → ℕ → List ℕ
  | 0, _ => []
  | fuel + 1, curr =>
      if curr < numEntries then curr :: walk ba fuel (curr + 1 <<< (ba.bitmap curr).order) else []

/-- The heads of the blocks. -/
def heads (ba : State) : List ℕ := walk ba numEntries 0

/-- The block whose head is `i`. -/
def blockAt (ba : State) (i : ℕ) : Block := ⟨i, (ba.bitmap i).order, (ba.bitmap i).allocated⟩

/-- The unit `u` lies in no allocated block. -/
def UnitFree (ba : State) (u : ℕ) : Prop :=
  ∀ i ∈ heads ba, (blockAt ba i).Covers u → (ba.bitmap i).allocated = false

/-- The block structure: the heads and their orders. -/
def structureOf (ba : State) : List (ℕ × ℕ) := (heads ba).map fun i => (i, (ba.bitmap i).order)

theorem walk_eq {ba : State} : ∀ {bs : List Block} {fuel curr : ℕ}, Chain curr bs numEntries →
    bs.length ≤ fuel → (∀ b ∈ bs, ba.bitmap b.start = ⟨b.allocated, b.order⟩) →
    walk ba fuel curr = bs.map Block.start
  | [], 0, _, _, _, _ => rfl
  | [], fuel + 1, curr, h, _, _ => by
      have h' : curr = numEntries := h
      simp [walk, h']
  | b :: bs, 0, _, _, hf, _ => by simp at hf
  | b :: bs, fuel + 1, curr, h, hf, hb => by
      obtain ⟨rfl, hc⟩ := h
      have hlt : b.start < numEntries := by
        have h1 := hc.le
        have h2 := Nat.two_pow_pos b.order
        omega
      have ih := walk_eq hc (by simpa using hf) fun c hc => hb c (List.mem_cons_of_mem _ hc)
      simp only [walk, hlt, if_true, hb b List.mem_cons_self, Nat.one_shiftLeft, List.map_cons]
      rw [ih]

theorem Rep.heads_eq {ba : State} {t : BTree 8} (h : Rep ba.bitmap t 0) :
    heads ba = (t.blocks 0).map Block.start := by
  have hc : Chain 0 (t.blocks 0) numEntries := chain_blocks t 0
  exact walk_eq hc (by have := chain_length_le hc; omega) h.block

theorem Rep.blocks_eq {ba : State} {t : BTree 8} (h : Rep ba.bitmap t 0) :
    (heads ba).map (blockAt ba) = t.blocks 0 := by
  rw [h.heads_eq, List.map_map]
  conv_rhs => rw [← List.map_id (t.blocks 0)]
  refine List.map_congr_left fun b hb => ?_
  simp [blockAt, h.block b hb]

theorem Rep.mem_heads {ba : State} {t : BTree 8} (h : Rep ba.bitmap t 0) {i : ℕ} :
    i ∈ heads ba ↔ blockAt ba i ∈ t.blocks 0 := by
  rw [h.heads_eq, List.mem_map]
  constructor
  · rintro ⟨b, hb, rfl⟩
    simpa [blockAt, h.block b hb] using hb
  · intro hb
    exact ⟨_, hb, rfl⟩

/-! ### The invariant -/

/-- The bitmap holds a coalesced tree whose allocated blocks are the live ones. -/
structure Holds (s : Sys) (t : BTree 8) : Prop where
  rep : Rep s.ba.bitmap t 0
  coalesced : t.Coalesced
  nodup : s.live.Nodup
  live : ∀ i, i ∈ s.live ↔ t.Allocated 0 i

def Inv (s : Sys) : Prop := ∃ t, Holds s t

theorem start_eq (beyond : ℕ → BaBits) :
    start beyond = ⟨Function.update (zeroed beyond).bitmap 0 ⟨false, 8⟩, [0, 0]⟩ := by
  simp [start, baInit, initLoop, nextIndex, order, setOrder, bits, bind, StateT.bind, pure,
    StateT.pure, numEntries, zeroed, Nat.testBit, Nat.shiftRight_eq_div_pow]

theorem boot_holds (beyond : ℕ → BaBits) : Holds (boot beyond) (leaf false) := by
  have hn : numEntries = 2 ^ 8 := rfl
  refine ⟨?_, trivial, List.nodup_nil, fun i => ?_⟩
  · rw [boot, start_eq]
    refine ⟨rfl, fun j h1 h2 => ?_⟩
    have hj : Function.update (zeroed beyond).bitmap 0 ⟨false, 8⟩ j = ⟨false, 0⟩ := by
      rw [Function.update_of_ne (by omega)]
      exact if_pos (by omega)
    exact congrArg BaBits.allocated hj
  · rw [allocated_leaf]
    simp [boot]

/-- A `ba_free` of `i` leaves some block allocated. -/
def KeepsOne (s : Sys) : Op → Prop
  | .allocate _ => True
  | .free i => ∃ j ∈ s.live, j ≠ i

/-- The entry behind the bitmap does not look like a free block of order 8. -/
def Fenced (ba : State) : Prop :=
  ¬ ((ba.bitmap numEntries).allocated = false ∧ (ba.bitmap numEntries).order = 8)

theorem step_free_iff {s s' : Sys} {i : ℕ} :
    step s (.free i) = some s' ↔ i ∈ s.live ∧ s' = ⟨(baFree i s.ba).2, s.live.erase i⟩ := by
  rw [step]
  generalize (baFree i s.ba).2 = ba
  by_cases hi : i ∈ s.live
  · simp [hi, eq_comm]
  · simp [hi]

theorem step_allocate_iff {s s' : Sys} {len : ℕ} {r : Option ℕ} {ba : State}
    (h : baAllocate len s.ba = (r, ba)) :
    step s (.allocate len) = some s' ↔ s' = ⟨ba, r.toList ++ s.live⟩ := by
  rw [step, h, Option.some.injEq]
  exact eq_comm

/-- What `ba_allocate` does to the state and to the log, in terms of the tree; freeing the block at
once would give the old tree back. -/
theorem allocate_holds {ba : State} {l : List ℕ} {t : BTree 8} (h : Holds ⟨ba, l⟩ t) (len : ℕ) :
    ∃ r ba', baAllocate len ba = (r, ba') ∧ ba'.bitmap numEntries = ba.bitmap numEntries ∧
      (∀ j ∈ ba'.touched, j ∈ ba.touched ∨ j < numEntries) ∧
      ((r = none ∧ Holds ⟨ba', l⟩ t) ∨
        ∃ i t', r = some i ∧ Holds ⟨ba', i :: l⟩ t' ∧ t'.release i 0 = t) := by
  obtain ⟨bm', tl, htl, hfr, ⟨heq, hbm, -⟩ | ⟨i, m, heq, hfree, -, hrep⟩⟩ := baAllocate_rep len h.rep
  · refine ⟨_, _, heq, hfr numEntries (le_refl numEntries),
      fun j hj => (List.mem_append.mp hj).symm.imp_right (htl j),
      Or.inl ⟨rfl, ?_, h.coalesced, h.nodup, h.live⟩⟩
    rw [hbm]
    exact h.rep
  · refine ⟨_, _, heq, hfr numEntries (le_refl numEntries),
      fun j hj => (List.mem_append.mp hj).symm.imp_right (htl j),
      Or.inr ⟨i, _, rfl, ⟨hrep, coalesced_acquire _ _ _ hfree h.coalesced, ?_, fun j => ?_⟩,
        release_acquire _ _ _ hfree h.coalesced⟩⟩
    · refine List.nodup_cons.mpr ⟨fun hi => ?_, h.nodup⟩
      obtain ⟨b, hb, ha, hst⟩ := (h.live i).mp hi
      have := (chain_blocks t 0).eq_of_start hb hfree hst
      rw [this] at ha
      exact absurd ha Bool.false_ne_true
    · rw [allocated_acquire _ _ _ _ hfree, ← h.live]
      exact List.mem_cons.trans or_comm

theorem step_allocate {s s' : Sys} {t : BTree 8} {len : ℕ} (h : Holds s t)
    (hs : step s (.allocate len) = some s') :
    Inv s' ∧ s'.ba.bitmap numEntries = s.ba.bitmap numEntries ∧
      (∀ j ∈ s'.ba.touched, j ∈ s.ba.touched ∨ j < numEntries) := by
  obtain ⟨r, ba', heq, hfr, htl, hres⟩ := allocate_holds h len
  obtain rfl := (step_allocate_iff heq).mp hs
  refine ⟨?_, hfr, htl⟩
  obtain ⟨rfl, h'⟩ | ⟨i, t', rfl, h', -⟩ := hres
  · exact ⟨t, h'⟩
  · exact ⟨t', h'⟩

theorem step_free {s s' : Sys} {t : BTree 8} {i : ℕ} (h : Holds s t)
    (hs : step s (.free i) = some s') (hk : Fenced s.ba ∨ KeepsOne s (.free i)) :
    Holds s' (t.release i 0) ∧ s'.ba.bitmap numEntries = s.ba.bitmap numEntries := by
  obtain ⟨hi, rfl⟩ := step_free_iff.mp hs
  have ha := (h.live i).mp hi
  obtain ⟨bm', tl, hrep, hfr, htl, hne, he⟩ := baFree_rep h.rep ha
  have hbm : (baFree i s.ba).2.bitmap = bm' := by
    by_cases hr : t.release i 0 = leaf false
    · refine (he hr).2 (hk.resolve_right ?_)
      rintro ⟨j, hj, hji⟩
      exact ((allocated_release i j ha).mpr ⟨(h.live j).mp hj, hji⟩).ne_leaf hr
    · rw [hne hr]
  refine ⟨⟨by rw [hbm]; exact hrep, coalesced_release i h.coalesced, h.nodup.erase i, fun j => ?_⟩, ?_⟩
  · rw [allocated_release i j ha, ← h.live, h.nodup.mem_erase_iff]
    exact and_comm
  · rw [hbm]
    exact hfr numEntries (le_refl numEntries)

/-- The accesses of a `ba_free`: inside the bitmap iff another block stays allocated. -/
theorem step_free_touched {s s' : Sys} {t : BTree 8} {i : ℕ} (h : Holds s t)
    (hs : step s (.free i) = some s') :
    (KeepsOne s (.free i) → ∀ j ∈ s'.ba.touched, j ∈ s.ba.touched ∨ j < numEntries) ∧
    (¬ KeepsOne s (.free i) → numEntries ∈ s'.ba.touched) := by
  obtain ⟨hi, rfl⟩ := step_free_iff.mp hs
  have ha := (h.live i).mp hi
  obtain ⟨bm', tl, hrep, hfr, htl, hne, he⟩ := baFree_rep h.rep ha
  have hleaf : t.release i 0 = leaf false ↔ ¬ KeepsOne s (.free i) := by
    rw [(coalesced_release i h.coalesced).eq_leaf_iff 0]
    constructor
    · rintro hall ⟨j, hj, hji⟩
      exact hall j ((allocated_release i j ha).mpr ⟨(h.live j).mp hj, hji⟩)
    · intro hk j hj
      obtain ⟨h1, h2⟩ := (allocated_release i j ha).mp hj
      exact hk ⟨j, (h.live j).mpr h1, h2⟩
  constructor
  · intro hk j hj
    rw [hne fun h' => hleaf.mp h' hk] at hj
    exact (List.mem_append.mp hj).symm.imp_right (htl j)
  · intro hk
    exact (he (hleaf.mpr hk)).1

theorem step_inv {s s' : Sys} {op : Op} (h : Inv s) (hs : step s op = some s')
    (hk : Fenced s.ba ∨ KeepsOne s op) :
    Inv s' ∧ s'.ba.bitmap numEntries = s.ba.bitmap numEntries := by
  obtain ⟨t, h⟩ := h
  cases op with
  | allocate len =>
      obtain ⟨h1, h2, -⟩ := step_allocate h hs
      exact ⟨h1, h2⟩
  | free i =>
      obtain ⟨h1, h2⟩ := step_free h hs hk
      exact ⟨⟨_, h1⟩, h2⟩

theorem run_inv : ∀ {ops : List Op} {s s' : Sys}, Inv s → Fenced s.ba → run ops s = some s' →
    Inv s' ∧ Fenced s'.ba
  | [], s, s', h, hf, hr => by
      rw [run, Option.some.injEq] at hr
      exact hr ▸ ⟨h, hf⟩
  | op :: ops, s, s', h, hf, hr => by
      obtain ⟨s1, hs, hr⟩ := Option.bind_eq_some_iff.mp hr
      obtain ⟨h1, h2⟩ := step_inv h hs (Or.inl hf)
      exact run_inv h1 (by unfold Fenced; rw [h2]; exact hf) hr

theorem boot_fenced {beyond : ℕ → BaBits} (hb : (beyond numEntries).allocated = true) :
    Fenced (boot beyond).ba := by
  rintro ⟨h, -⟩
  rw [boot, start_eq] at h
  simp only [Function.update_of_ne (show numEntries ≠ 0 by decide), zeroed, lt_irrefl, if_false] at h
  rw [hb] at h
  exact absurd h (by decide)

theorem run_holds {beyond : ℕ → BaBits} (hb : (beyond numEntries).allocated = true) {ops : List Op}
    {s : Sys} (h : run ops (boot beyond) = some s) : Inv s ∧ Fenced s.ba :=
  run_inv ⟨_, boot_holds beyond⟩ (boot_fenced hb) h

/-! ### Tiling and disjointness -/

/-- The addresses of the block `i`. -/
def addrRange (a : Arch) (ba : State) (i : ℕ) : Set ℕ :=
  Set.Ico (baStartAddr a i) (baStartAddr a i + baLen ba i)

/-- Inside the bitmap the address arithmetic does not wrap. -/
theorem Rep.addrRange_eq {ba : State} {t : BTree 8} (h : Rep ba.bitmap t 0) (a : Arch) {b : Block}
    (hb : b ∈ t.blocks 0) : addrRange a ba b.start =
      Set.Ico (b.start * LIBINC + LIBBASE a) ((b.start + 2 ^ b.order) * LIBINC + LIBBASE a) := by
  have hle := mem_bounds hb
  have hbase : LIBBASE a ≤ 0x80000000 := by cases a <;> decide
  have hstart : baStartAddr a b.start = b.start * LIBINC + LIBBASE a := by
    have hp := Nat.two_pow_pos b.order
    unfold baStartAddr LIBINC
    exact Nat.mod_eq_of_lt (by omega)
  have hlen : baLen ba b.start = 2 ^ b.order * LIBINC := by
    simp only [baLen, h.block b hb, Nat.one_shiftLeft, LIBINC]
    exact Nat.mod_eq_of_lt (by omega)
  rw [addrRange, hstart, hlen, Nat.add_mul, Nat.add_right_comm]

theorem Rep.addrRange_subset {ba : State} {t : BTree 8} (h : Rep ba.bitmap t 0) (a : Arch)
    {b : Block} (hb : b ∈ t.blocks 0) : addrRange a ba b.start ⊆ Set.Ico (LIBBASE a) (LIBLAST a) := by
  have hle := (mem_bounds hb).2
  have hlast : LIBLAST a = 256 * LIBINC + LIBBASE a := by cases a <;> rfl
  have hmul := Nat.mul_le_mul_right LIBINC hle
  rw [h.addrRange_eq a hb, hlast]
  apply Set.Ico_subset_Ico (by omega)
  simpa using hmul

theorem Rep.addrRange_disjoint {ba : State} {t : BTree 8} (h : Rep ba.bitmap t 0) (a : Arch)
    {b c : Block} (hb : b ∈ t.blocks 0) (hc : c ∈ t.blocks 0) (hne : b.start ≠ c.start) :
    Disjoint (addrRange a ba b.start) (addrRange a ba c.start) := by
  have hpb := Nat.two_pow_pos b.order
  have hpc := Nat.two_pow_pos c.order
  have hun : b.start + 2 ^ b.order ≤ c.start ∨ c.start + 2 ^ c.order ≤ b.start := by
    by_contra hcon
    have := (chain_blocks t 0).unique b hb c hc (max b.start c.start)
      ⟨le_max_left _ _, by omega⟩ ⟨le_max_right _ _, by omega⟩
    exact hne (by rw [this])
  rw [h.addrRange_eq a hb, h.addrRange_eq a hc, Set.disjoint_left]
  intro x hx hy
  rw [Set.mem_Ico] at hx hy
  rcases hun with hun | hun
  · have := Nat.mul_le_mul_right LIBINC hun
    omega
  · have := Nat.mul_le_mul_right LIBINC hun
    omega

/-- The walk over `BA_NEXT_INDEX` tiles the bitmap exactly, blocks are aligned, only heads are
marked allocated, and the live blocks are disjoint address ranges between `LIBBASE` and
`LIBLAST`. -/
structure Tiled (a : Arch) (s : Sys) : Prop where
  walk : Chain 0 ((heads s.ba).map (blockAt s.ba)) numEntries
  cover : ∀ u < numEntries, ∃! i, i ∈ heads s.ba ∧ (blockAt s.ba i).Covers u
  aligned : ∀ i ∈ heads s.ba, 2 ^ (s.ba.bitmap i).order ∣ i
  marked : ∀ i < numEntries, (s.ba.bitmap i).allocated = true → i ∈ heads s.ba
  disjoint : s.live.Pairwise fun i j => Disjoint (addrRange a s.ba i) (addrRange a s.ba j)
  inside : ∀ i ∈ s.live, addrRange a s.ba i ⊆ Set.Ico (LIBBASE a) (LIBLAST a)

/-- **Tiling and disjointness** after every run. -/
theorem live_blocks_tile (a : Arch) {beyond : ℕ → BaBits}
    (hb : (beyond numEntries).allocated = true) {ops : List Op} {s : Sys}
    (h : run ops (boot beyond) = some s) : Tiled a s := by
  obtain ⟨⟨t, hrep, -, hnd, hlive⟩, -⟩ := run_holds hb h
  have hchain : Chain 0 (t.blocks 0) numEntries := chain_blocks t 0
  refine ⟨by rw [hrep.blocks_eq]; exact hchain, fun u hu => ?_, fun i hi => ?_, fun i hi hal => ?_, ?_,
    fun i hi => ?_⟩
  · obtain ⟨b, hb, hcov⟩ := hchain.cover u (Nat.zero_le u) hu
    have hat : blockAt s.ba b.start = b := by simp [blockAt, hrep.block b hb]
    refine ⟨b.start, ⟨hrep.mem_heads.mpr (by rw [hat]; exact hb), by rw [hat]; exact hcov⟩, ?_⟩
    rintro j ⟨hj, hcov'⟩
    exact congrArg Block.start (hchain.unique _ (hrep.mem_heads.mp hj) b hb u hcov' hcov)
  · exact aligned_of_mem t 0 (dvd_zero _) _ (hrep.mem_heads.mp hi)
  · obtain ⟨b, hb, -, rfl⟩ := (hrep.allocated i (Nat.zero_le i) (lt_of_lt_of_eq hi (by decide))).mp hal
    rw [hrep.heads_eq]
    exact List.mem_map_of_mem hb
  · refine hnd.pairwise_of_forall_ne fun i hi j hj hij => ?_
    obtain ⟨b, hb, -, rfl⟩ := (hlive i).mp hi
    obtain ⟨c, hc, -, rfl⟩ := (hlive j).mp hj
    exact hrep.addrRange_disjoint a hb hc hij
  · obtain ⟨b, hb, -, rfl⟩ := (hlive i).mp hi
    exact hrep.addrRange_subset a hb

theorem live_blocks_tile_example : ∃ s,
    run [.allocate 0x8000000, .allocate 0x7f00001, .free 0] (boot fun _ => ⟨true, 0⟩) = some s ∧
      s.live = [128] ∧ Tiled .arm s := by
  obtain ⟨s, hs⟩ := Option.isSome_iff_exists.mp (show
    (run [.allocate 0x8000000, .allocate 0x7f00001, .free 0] (boot fun _ => ⟨true, 0⟩)).isSome = true by
      decide +kernel)
  refine ⟨s, hs, ?_, live_blocks_tile .arm rfl hs⟩
  have hlive : (run [.allocate 0x8000000, .allocate 0x7f00001, .free 0]
      (boot fun _ => ⟨true, 0⟩)).map Sys.live = some [128] := by decide +kernel
  rw [hs] at hlive
  exact Option.some.inj hlive

/-! ### Coalescing and completeness -/

/-- No two free buddies coexist, `ba_allocate` fails exactly when there is no aligned free run of
`2 ^ ba_order(len)` units, and freeing all live blocks in any order gives back the structure of
`ba_init`. -/
structure Complete (beyond : ℕ → BaBits) (s : Sys) : Prop where
  no_free_buddies : ∀ i ∈ heads s.ba, ∀ j ∈ heads s.ba, (s.ba.bitmap i).allocated = false →
    (s.ba.bitmap j).allocated = false → (s.ba.bitmap i).order = (s.ba.bitmap j).order →
    j ≠ i ^^^ (1 <<< (s.ba.bitmap i).order)
  fails_iff : ∀ len, (baAllocate len s.ba).1 = none ↔ ¬ ∃ u, 2 ^ baOrder len ∣ u ∧
    u + 2 ^ baOrder len ≤ numEntries ∧ ∀ v, u ≤ v → v < u + 2 ^ baOrder len → UnitFree s.ba v
  restores : ∀ l : List ℕ, l.Perm s.live → ∃ s', run (l.map .free) s = some s' ∧ s'.live = [] ∧
    structureOf s'.ba = structureOf (boot beyond).ba

theorem Holds.no_free_buddies {s : Sys} {t : BTree 8} (h : Holds s t) {i j : ℕ}
    (hi : i ∈ heads s.ba) (hj : j ∈ heads s.ba) (hfi : (s.ba.bitmap i).allocated = false)
    (hfj : (s.ba.bitmap j).allocated = false)
    (ho : (s.ba.bitmap i).order = (s.ba.bitmap j).order) :
    j ≠ i ^^^ (1 <<< (s.ba.bitmap i).order) := by
  have hbi := h.rep.mem_heads.mp hi
  have hbj := h.rep.mem_heads.mp hj
  have hd := aligned_of_mem t 0 (dvd_zero _) _ hbi
  have hno := h.coalesced.no_free_buddies (dvd_zero (2 ^ 8))
  rw [Nat.one_shiftLeft]
  simp only [blockAt] at hbi hbj hd
  generalize hk : (s.ba.bitmap i).order = k at *
  obtain ⟨q, hq⟩ := hd
  rcases Nat.even_or_odd' q with ⟨p, rfl | rfl⟩
  · have hdvd : 2 ^ (k + 1) ∣ i := ⟨p, by rw [hq, pow_succ]; ring⟩
    rw [xor_two_pow_of_dvd hdvd]
    exact hno _ hbi _ hbj hfi hfj ho hdvd
  · have hdvd : 2 ^ (k + 1) ∣ 2 ^ (k + 1) * p := dvd_mul_right _ _
    have hip : i = 2 ^ (k + 1) * p + 2 ^ k := by rw [hq, pow_succ]; ring
    rw [hip, xor_two_pow_of_dvd' hdvd]
    intro hj'
    refine hno _ hbj _ hbi hfj hfi ho.symm ?_ ?_
    · simp only
      rw [← ho, hj']
      exact hdvd
    · simp only
      rw [← ho, hj', hip]

theorem Holds.unitFree_iff {s : Sys} {t : BTree 8} (h : Holds s t) {u : ℕ} :
    UnitFree s.ba u ↔ ∀ b ∈ t.blocks 0, b.Covers u → b.allocated = false := by
  constructor
  · intro hu b hb hcov
    have hat : blockAt s.ba b.start = b := by simp [blockAt, h.rep.block b hb]
    have := hu b.start (h.rep.mem_heads.mpr (by rw [hat]; exact hb)) (by rw [hat]; exact hcov)
    rwa [h.rep.block b hb] at this
  · intro hu i hi hcov
    exact hu _ (h.rep.mem_heads.mp hi) hcov

theorem Holds.fails_iff {s : Sys} {t : BTree 8} (h : Holds s t) (len : ℕ) :
    (baAllocate len s.ba).1 = none ↔ ¬ ∃ u, 2 ^ baOrder len ∣ u ∧ u + 2 ^ baOrder len ≤ numEntries ∧
      ∀ v, u ≤ v → v < u + 2 ^ baOrder len → UnitFree s.ba v := by
  have hrun : (∃ u, 2 ^ baOrder len ∣ u ∧ u + 2 ^ baOrder len ≤ numEntries ∧
      ∀ v, u ≤ v → v < u + 2 ^ baOrder len → UnitFree s.ba v) ↔
      ∃ i j, t.FreeAt 0 i j ∧ baOrder len ≤ j := by
    rw [exists_free_block_iff (dvd_zero _) h.coalesced]
    refine exists_congr fun u => ?_
    simp only [FreeRun, h.unitFree_iff, Nat.zero_le, true_and, Nat.zero_add]
    rfl
  rw [hrun]
  obtain ⟨bm', tl, -, -, ⟨heq, -, hno⟩ | ⟨i, m, heq, hfree, hle, -⟩⟩ := baAllocate_rep len h.rep
  · rw [heq]
    apply iff_of_true rfl
    rintro ⟨i, j, hij, hj⟩
    exact absurd (hno i j hij) (Nat.not_lt.mpr hj)
  · rw [heq]
    exact iff_of_false (by simp) (not_not.mpr ⟨i, m, hfree, hle⟩)

/-- Without live block the bitmap is one free block of order 8. -/
theorem Holds.structure_eq {s : Sys} {t : BTree 8} (h : Holds s t) (hl : s.live = []) :
    structureOf s.ba = [(0, 8)] := by
  have ht : t = leaf false := by
    refine (h.coalesced.eq_leaf_iff 0).mpr fun i hi => ?_
    have := (h.live i).mpr hi
    rw [hl] at this
    exact absurd this List.not_mem_nil
  have hrep := h.rep
  rw [ht] at hrep
  rw [structureOf, hrep.heads_eq]
  simp [blocks, hrep.1]

/-- Freeing the live blocks in any order is possible and ends without live block. -/
theorem run_free_all : ∀ (l : List ℕ) (s : Sys), Inv s → Fenced s.ba → l.Perm s.live →
    ∃ s', run (l.map .free) s = some s' ∧ s'.live = []
  | [], s, _, _, hp => ⟨s, rfl, List.nil_perm.mp hp⟩
  | i :: l, s, h, hf, hp => by
      have hi : i ∈ s.live := hp.subset List.mem_cons_self
      have hs : step s (.free i) = some ⟨(baFree i s.ba).2, s.live.erase i⟩ :=
        step_free_iff.mpr ⟨hi, rfl⟩
      obtain ⟨h1, h2⟩ := step_inv h hs (Or.inl hf)
      have hp' : l.Perm (s.live.erase i) := by
        have := hp.erase i
        rwa [List.erase_cons_head] at this
      obtain ⟨s', hr, hl⟩ := run_free_all l _ h1 (by unfold Fenced; rw [h2]; exact hf) hp'
      exact ⟨s', by rw [List.map_cons, run, hs]; exact hr, hl⟩

/-- **Coalescing and completeness** after every run. -/
theorem coalesced_and_complete {beyond : ℕ → BaBits} (hb : (beyond numEntries).allocated = true)
    {ops : List Op} {s : Sys} (h : run ops (boot beyond) = some s) : Complete beyond s := by
  obtain ⟨hinv, hf⟩ := run_holds hb h
  obtain ⟨t, ht⟩ := hinv
  refine ⟨fun i hi j hj => ht.no_free_buddies hi hj, ht.fails_iff, fun l hl => ?_⟩
  obtain ⟨s', hr, hl'⟩ := run_free_all l s ⟨t, ht⟩ hf hl
  obtain ⟨⟨t', ht'⟩, -⟩ := run_inv ⟨t, ht⟩ hf hr
  refine ⟨s', hr, hl', ?_⟩
  rw [ht'.structure_eq hl', (boot_holds beyond).structure_eq rfl]

theorem coalesced_and_complete_example : ∃ s,
    run [.allocate 0x8000000, .allocate 0x7f00001] (boot fun _ => ⟨true, 0⟩) = some s ∧
      s.live = [128, 0] ∧ Complete (fun _ => ⟨true, 0⟩) s := by
  obtain ⟨s, hs⟩ := Option.isSome_iff_exists.mp (show
    (run [.allocate 0x8000000, .allocate 0x7f00001] (boot fun _ => ⟨true, 0⟩)).isSome = true by
      decide)
  refine ⟨s, hs, ?_, coalesced_and_complete rfl hs⟩
  have hlive : (run [.allocate 0x8000000, .allocate 0x7f00001]
      (boot fun _ => ⟨true, 0⟩)).map Sys.live = some [128, 0] := by decide +kernel
  rw [hs] at hlive
  exact Option.some.inj hlive

/-! ### Accesses -/

/-- Every `ba_free` of the run is called while another block is live. -/
def FreesKeepOne : List Op → Sys → Prop
  | [], _ => True
  | op :: ops, s => KeepsOne s op ∧ ∀ s', step s op = some s' → FreesKeepOne ops s'

theorem step_grows {s s' : Sys} {op : Op} (hs : step s op = some s') :
    s.ba.touched ⊆ s'.ba.touched := by
  cases op with
  | allocate len =>
      have hg := grows_baAllocate len s.ba
      cases hr : baAllocate len s.ba with
      | mk r ba =>
          rw [hr] at hg
          obtain rfl := (step_allocate_iff hr).mp hs
          exact hg
  | free i =>
      have hg := grows_baFree i s.ba
      obtain ⟨-, rfl⟩ := step_free_iff.mp hs
      exact hg

theorem run_grows : ∀ {ops : List Op} {s s' : Sys}, run ops s = some s' →
    s.ba.touched ⊆ s'.ba.touched
  | [], s, s', hr => by
      rw [run, Option.some.injEq] at hr
      rw [hr]
      exact List.Subset.refl _
  | op :: ops, s, s', hr => by
      obtain ⟨s1, hs, hr⟩ := Option.bind_eq_some_iff.mp hr
      exact List.Subset.trans (step_grows hs) (run_grows hr)

/-- The accesses of one call stay inside the bitmap iff it keeps a block allocated. -/
theorem step_touched_iff {s s' : Sys} {op : Op} (h : Inv s) (hs : step s op = some s')
    (hin : ∀ j ∈ s.ba.touched, j < numEntries) :
    (∀ j ∈ s'.ba.touched, j < numEntries) ↔ KeepsOne s op := by
  obtain ⟨t, h⟩ := h
  cases op with
  | allocate len =>
      refine iff_of_true (fun j hj => ?_) trivial
      exact ((step_allocate h hs).2.2 j hj).elim (hin j) id
  | free i =>
      obtain ⟨h1, h2⟩ := step_free_touched h hs
      constructor
      · intro hall
        by_contra hk
        exact absurd (hall _ (h2 hk)) (lt_irrefl _)
      · intro hk j hj
        exact (h1 hk j hj).elim (hin j) id

theorem run_touched_iff : ∀ {ops : List Op} {s s' : Sys}, Inv s →
    (∀ j ∈ s.ba.touched, j < numEntries) → run ops s = some s' →
    ((∀ j ∈ s'.ba.touched, j < numEntries) ↔ FreesKeepOne ops s)
  | [], s, s', _, hin, hr => by
      rw [run, Option.some.injEq] at hr
      rw [← hr]
      exact iff_of_true hin trivial
  | op :: ops, s, s', h, hin, hr => by
      obtain ⟨s1, hs, hr⟩ := Option.bind_eq_some_iff.mp hr
      have hstep := step_touched_iff h hs hin
      constructor
      · intro hall
        have hin1 : ∀ j ∈ s1.ba.touched, j < numEntries := fun j hj => hall j (run_grows hr hj)
        have hk := hstep.mp hin1
        refine ⟨hk, fun s2 hs2 => ?_⟩
        rw [hs, Option.some.injEq] at hs2
        rw [← hs2]
        exact (run_touched_iff (step_inv h hs (Or.inr hk)).1 hin1 hr).mp hall
      · rintro ⟨hk, hrest⟩
        exact (run_touched_iff (step_inv h hs (Or.inr hk)).1 (hstep.mpr hk) hr).mpr (hrest s1 hs)

/-- **Accesses.**  Whatever lies behind the bitmap, a run accesses only entries of the bitmap iff
each of its `ba_free` calls is made while another block is live: freeing the last live block
merges the whole bitmap into one block and then reads entry `num_entries`. -/
theorem touched_lt_iff {beyond : ℕ → BaBits} {ops : List Op} {s : Sys}
    (h : run ops (boot beyond) = some s) :
    (∀ j ∈ s.ba.touched, j < numEntries) ↔ FreesKeepOne ops (boot beyond) := by
  refine run_touched_iff ⟨_, boot_holds beyond⟩ (fun j hj => ?_) h
  rw [boot, start_eq] at hj
  have : j = 0 := by simpa using hj
  rw [this]
  decide

theorem touched_lt_iff_example : ∃ s,
    run [.allocate 0x8000000, .allocate 0x8000000, .free 0] (boot fun _ => ⟨true, 0⟩) = some s ∧
      (∀ j ∈ s.ba.touched, j < numEntries) ∧
      FreesKeepOne [.allocate 0x8000000, .allocate 0x8000000, .free 0] (boot fun _ => ⟨true, 0⟩) := by
  obtain ⟨s, hs⟩ := Option.isSome_iff_exists.mp (show
    (run [.allocate 0x8000000, .allocate 0x8000000, .free 0] (boot fun _ => ⟨true, 0⟩)).isSome = true by
      decide +kernel)
  have hall : (run [.allocate 0x8000000, .allocate 0x8000000, .free 0] (boot fun _ => ⟨true, 0⟩)).all
      (fun s => s.ba.touched.all fun j => decide (j < numEntries)) = true := by decide +kernel
  rw [hs] at hall
  have hin : ∀ j ∈ s.ba.touched, j < numEntries := by simpa using hall
  exact ⟨s, hs, hin, (touched_lt_iff hs).mp hin⟩

/-- One library that takes the whole region, loaded and unloaded. -/
theorem free_last_reads_past_end : ¬ ∀ (beyond : ℕ → BaBits) (ops : List Op) (s : Sys),
    run ops (boot beyond) = some s → ∀ j ∈ s.ba.touched, j < numEntries := by
  intro hall
  obtain ⟨s, hs⟩ := Option.isSome_iff_exists.mp (show
    (run [.allocate 0x10000000, .free 0] (boot fun _ => ⟨false, 0⟩)).isSome = true by decide +kernel)
  have hany : (run [.allocate 0x10000000, .free 0] (boot fun _ => ⟨false, 0⟩)).all
      (fun s => decide (numEntries ∈ s.ba.touched)) = true := by decide +kernel
  rw [hs] at hany
  exact absurd (hall _ _ s hs numEntries (by simpa using hany)) (lt_irrefl _)

end Bionic.Ba
