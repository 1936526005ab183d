import Bionic.Ba

/-! # The bitmap refines a buddy tree

`Rep bm t off` says that the bitmap `bm` holds the buddy tree `t` at `off`: the entry of every
block's first unit carries the block's `allocated` bit and order, and no entry inside a block has
its `allocated` bit set.  The orders inside a block are arbitrary: these are the stale fields that
merges leave behind and that `ba_allocate` overwrites when a split exposes them again.

Each loop of `ba.c` is then a tree operation:

* `mergeLoop_rep`: the merge loop of `ba_free` is `BTree.release`, and it leaves the subtree it
  started in exactly when that subtree has become one free block;
* `scanLoop_spec`: the scan of `ba_allocate` finds a free block that is large enough iff there
  is one;
* `splitLoop_rep`: the partition loop is `BTree.carve`.

`baFree_rep` and `baAllocate_rep` put them together.  All three loops stop by their own
condition: the statements hold for every larger fuel as well. -/

namespace Bionic.Ba

open Buddy Buddy.BTree

variable {k : ℕ} {bm bm' : ℕ → BaBits}

/-! ### Representation -/

/-- The bitmap holds the tree `t` at `off`. -/
def Rep (bm : ℕ → BaBits) : {k : ℕ} → BTree k → ℕ → Prop
  | k, leaf a, off => bm off = ⟨a, k⟩ ∧ ∀ j, off < j → j < off + 2 ^ k → (bm j).allocated = false
  | k + 1, node l r, off => Rep bm l off ∧ Rep bm r (off + 2 ^ k)

/-- Only the entries of the region matter. -/
theorem Rep.congr : ∀ {k : ℕ} {t : BTree k} {off : ℕ}, Rep bm t off →
    (∀ j, off ≤ j → j < off + 2 ^ k → bm' j = bm j) → Rep bm' t off
  | k, leaf a, off, h, he => by
      have := Nat.two_pow_pos k
      refine ⟨by rw [he off (le_refl _) (by omega)]; exact h.1, fun j h1 h2 => ?_⟩
      rw [he j h1.le h2]
      exact h.2 j h1 h2
  | k + 1, node l r, off, h, he => by
      have hs : 2 ^ (k + 1) = 2 ^ k + 2 ^ k := by rw [pow_succ]; omega
      exact ⟨h.1.congr fun j h1 h2 => he j h1 (by omega),
        h.2.congr fun j h1 h2 => he j (by omega) (by omega)⟩

/-- The entry of a block's first unit describes the block. -/
theorem Rep.block : ∀ {k : ℕ} {t : BTree k} {off : ℕ}, Rep bm t off →
    ∀ b ∈ t.blocks off, bm b.start = ⟨b.allocated, b.order⟩
  | k, leaf a, off, h, b, hb => by
      simp only [blocks, List.mem_singleton] at hb
      rw [hb]
      exact h.1
  | k + 1, node l r, off, h, b, hb => by
      rcases List.mem_append.mp hb with hb | hb
      · exact h.1.block b hb
      · exact h.2.block b hb

/-- Only first units of blocks have their `allocated` bit set. -/
theorem Rep.allocated : ∀ {k : ℕ} {t : BTree k} {off : ℕ}, Rep bm t off →
    ∀ j, off ≤ j → j < off + 2 ^ k → ((bm j).allocated = true ↔ t.Allocated off j)
  | k, leaf a, off, h, j, h1, h2 => by
      rw [allocated_leaf]
      rcases Nat.eq_or_lt_of_le h1 with rfl | hlt
      · rw [h.1]
        simp
      · rw [h.2 j hlt h2]
        constructor
        · intro h'
          exact absurd h' (by decide)
        · rintro ⟨-, rfl⟩
          omega
  | k + 1, node l r, off, h, j, h1, h2 => by
      have hs : 2 ^ (k + 1) = 2 ^ k + 2 ^ k := by rw [pow_succ]; omega
      rw [allocated_node]
      rcases Nat.lt_or_ge j (off + 2 ^ k) with hj | hj
      · rw [h.1.allocated j h1 hj]
        constructor
        · exact Or.inl
        · rintro (h' | h')
          · exact h'
          · have := h'.bounds
            omega
      · rw [h.2.allocated j hj (by omega)]
        constructor
        · exact Or.inr
        · rintro (h' | h')
          · have := h'.bounds
            omega
          · exact h'

theorem Rep.order_le : ∀ {k : ℕ} {t : BTree k} {off : ℕ}, Rep bm t off → (bm off).order ≤ k
  | k, leaf a, off, h => by rw [h.1]
  | k + 1, node l r, off, h => by
      have := h.1.order_le
      omega

/-- The test of `ba_free` on a buddy of order `k`: its region is one free block. -/
theorem Rep.free_iff {t : BTree k} {off : ℕ} (h : Rep bm t off) :
    ((bm off).allocated = false ∧ (bm off).order = k) ↔ t = leaf false := by
  cases t with
  | leaf a =>
      rw [h.1]
      simp
  | node l r =>
      have := h.1.order_le
      constructor
      · rintro ⟨-, h'⟩
        omega
      · intro h'
        cases h'

/-- Two free buddies whose orders are raised by one form one free block. -/
theorem Rep.merge {off : ℕ} (hl : Rep bm (leaf false : BTree k) off)
    (hr : Rep bm (leaf false : BTree k) (off + 2 ^ k)) (h0 : bm' off = ⟨false, k + 1⟩)
    (h1 : (bm' (off + 2 ^ k)).allocated = false)
    (he : ∀ j, j ≠ off → j ≠ off + 2 ^ k → bm' j = bm j) :
    Rep bm' (leaf false : BTree (k + 1)) off := by
  have hs : 2 ^ (k + 1) = 2 ^ k + 2 ^ k := by rw [pow_succ]; omega
  refine ⟨h0, fun j h2 h3 => ?_⟩
  rcases Nat.lt_trichotomy j (off + 2 ^ k) with hj | rfl | hj
  · rw [he j (by omega) (by omega)]
    exact hl.2 j h2 hj
  · exact h1
  · rw [he j (by omega) (by omega)]
    exact hr.2 j hj (by omega)

/-- A free block whose two halves get order `k` is two free buddies. -/
theorem Rep.split {off : ℕ} (bm' : ℕ → BaBits) (h : Rep bm (leaf false : BTree (k + 1)) off)
    (h0 : bm' off = ⟨false, k⟩) (h1 : bm' (off + 2 ^ k) = ⟨(bm (off + 2 ^ k)).allocated, k⟩)
    (he : ∀ j, j ≠ off → j ≠ off + 2 ^ k → bm' j = bm j) :
    Rep bm' (leaf false : BTree k) off ∧ Rep bm' (leaf false : BTree k) (off + 2 ^ k) := by
  have hs : 2 ^ (k + 1) = 2 ^ k + 2 ^ k := by rw [pow_succ]; omega
  have hp := Nat.two_pow_pos k
  refine ⟨⟨h0, fun j h2 h3 => ?_⟩, ⟨?_, fun j h2 h3 => ?_⟩⟩
  · rw [he j (by omega) (by omega)]
    exact h.2 j h2 (by omega)
  · rw [h1, h.2 (off + 2 ^ k) (by omega) (by omega)]
  · rw [he j (by omega) (by omega)]
    exact h.2 j (by omega) (by omega)

/-- A free block of the tree, alone. -/
theorem Rep.freeAt {i m : ℕ} : ∀ {k : ℕ} {t : BTree k} {off : ℕ}, Rep bm t off →
    t.FreeAt off i m → Rep bm (leaf false : BTree m) i
  | k, leaf a, off, h, hf => by
      obtain ⟨rfl, rfl, rfl⟩ := freeAt_leaf.mp hf
      exact h
  | k + 1, node l r, off, h, hf => by
      rcases freeAt_node.mp hf with hl | hr
      · exact h.1.freeAt hl
      · exact h.2.freeAt hr

/-- Replacing a free block by a split one, the rest of the bitmap unchanged. -/
theorem Rep.acquire (o i m : ℕ) : ∀ {k : ℕ} {t : BTree k} {off : ℕ}, Rep bm t off →
    t.FreeAt off i m → Rep bm' (carve o m) i →
    (∀ j, ¬ (i ≤ j ∧ j < i + 2 ^ m) → bm' j = bm j) → Rep bm' (t.acquire o i off) off
  | k, leaf a, off, _, hf, hc, _ => by
      obtain ⟨rfl, rfl, rfl⟩ := freeAt_leaf.mp hf
      exact hc
  | k + 1, node l r, off, h, hf, hc, he => by
      unfold BTree.acquire
      rcases freeAt_node.mp hf with hl | hr
      · have hb := mem_bounds hl
        simp only at hb
        rw [if_pos hl.bounds.2]
        exact ⟨h.1.acquire o i m hl hc he, h.2.congr fun j h1 h2 => he j (by omega)⟩
      · have hb := mem_bounds hr
        simp only at hb
        rw [if_neg (by omega)]
        exact ⟨h.1.congr fun j h1 h2 => he j (by omega), h.2.acquire o i m hr hc he⟩

/-! ### Buddies -/

theorem xor_two_pow_of_dvd {off : ℕ} (h : 2 ^ (k + 1) ∣ off) : off ^^^ 2 ^ k = off + 2 ^ k := by
  obtain ⟨q, rfl⟩ := h
  have hlt : 2 ^ k < 2 ^ (k + 1) := Nat.pow_lt_pow_right (by norm_num) (by omega)
  rw [Nat.two_pow_add_eq_or_of_lt hlt q]
  apply Nat.eq_of_testBit_eq
  intro j
  simp only [Nat.testBit_xor, Nat.testBit_or, Nat.testBit_two_pow_mul, Nat.testBit_two_pow]
  by_cases hj : k = j
  · subst hj
    simp
  · simp [hj]

theorem xor_two_pow_of_dvd' {off : ℕ} (h : 2 ^ (k + 1) ∣ off) : (off + 2 ^ k) ^^^ 2 ^ k = off := by
  rw [← xor_two_pow_of_dvd h, Nat.xor_assoc, Nat.xor_self, Nat.xor_zero]

/-! ### The log -/

theorem bind_run {α β : Type} (x : BaM α) (g : α → BaM β) (ba : State) :
    (x >>= g) ba = g (x ba).1 (x ba).2 := rfl

/-- A computation only adds to the log. -/
def Grows {α : Type} (x : BaM α) : Prop := ∀ ba, ba.touched ⊆ (x ba).2.touched

section grows
variable {α β : Type}

theorem grows_pure (a : α) : Grows (pure a : BaM α) := fun _ _ h => h

theorem grows_bind {x : BaM α} {g : α → BaM β} (hx : Grows x) (hg : ∀ a, Grows (g a)) :
    Grows (x >>= g) := by
  intro ba j hj
  rw [bind_run]
  exact hg _ _ (hx ba hj)

theorem grows_ite {p : Prop} [Decidable p] {x y : BaM α} (hx : Grows x) (hy : Grows y) :
    Grows (if p then x else y) := by
  split_ifs
  · exact hx
  · exact hy

theorem grows_bits (i : ℕ) : Grows (bits i) := fun _ _ h => List.mem_cons_of_mem _ h

theorem grows_setOrder (i n : ℕ) : Grows (setOrder i n) := fun _ _ h => List.mem_cons_of_mem _ h

theorem grows_setAllocated (i : ℕ) (a : Bool) : Grows (setAllocated i a) :=
  fun _ _ h => List.mem_cons_of_mem _ h

theorem grows_isFree (i : ℕ) : Grows (isFree i) := grows_bind (grows_bits i) fun _ => grows_pure _

theorem grows_order (i : ℕ) : Grows (order i) := grows_bind (grows_bits i) fun _ => grows_pure _

theorem grows_buddyIndex (i : ℕ) : Grows (buddyIndex i) :=
  grows_bind (grows_order i) fun _ => grows_pure _

theorem grows_nextIndex (i : ℕ) : Grows (nextIndex i) :=
  grows_bind (grows_order i) fun _ => grows_pure _

theorem grows_mergeLoop : ∀ (fuel curr : ℕ), Grows (mergeLoop fuel curr)
  | 0, _ => grows_pure _
  | fuel + 1, curr => by
      unfold mergeLoop
      refine grows_bind (grows_buddyIndex _) fun buddy => grows_bind (grows_isFree _) fun _ =>
        grows_ite ?_ (grows_pure _)
      refine grows_bind (grows_order _) fun _ => grows_bind (grows_order _) fun _ =>
        grows_ite ?_ (grows_pure _)
      refine grows_bind (grows_order _) fun _ => grows_bind (grows_setOrder _ _) fun _ => ?_
      refine grows_bind (grows_order _) fun _ => grows_bind (grows_setOrder _ _) fun _ => ?_
      exact grows_ite (grows_mergeLoop fuel _) (grows_pure _)

theorem grows_baFree (i : ℕ) : Grows (baFree i) := by
  unfold baFree
  exact grows_bind (grows_setAllocated i false) fun _ => grows_mergeLoop 32 i

theorem grows_scanLoop (o : ℕ) : ∀ (fuel curr : ℕ) (bestFit : Option ℕ),
    Grows (scanLoop o fuel curr bestFit)
  | 0, _, _ => grows_pure _
  | fuel + 1, curr, bestFit => by
      have hnext : ∀ best, Grows (nextIndex curr >>= fun next => scanLoop o fuel next best) :=
        fun best => grows_bind (grows_nextIndex _) fun _ => grows_scanLoop o fuel _ best
      unfold scanLoop
      refine grows_ite ?_ (grows_pure _)
      refine grows_bind (grows_isFree _) fun _ => grows_ite ?_ (hnext _)
      refine grows_bind (grows_order _) fun _ => grows_ite (grows_pure _) ?_
      refine grows_bind (grows_order _) fun _ => grows_ite ?_ (hnext _)
      cases bestFit with
      | none => exact hnext _
      | some b =>
          refine grows_bind (grows_order _) fun _ => grows_bind (grows_order _) fun _ => ?_
          exact grows_ite (hnext _) (hnext _)

theorem grows_splitLoop (o : ℕ) : ∀ (fuel i : ℕ), Grows (splitLoop o fuel i)
  | 0, _ => grows_pure _
  | fuel + 1, i => by
      unfold splitLoop
      refine grows_bind (grows_order _) fun _ => grows_ite ?_ (grows_pure _)
      refine grows_bind (grows_order _) fun _ => grows_bind (grows_setOrder _ _) fun _ => ?_
      refine grows_bind (grows_buddyIndex _) fun _ => grows_bind (grows_order _) fun _ => ?_
      exact grows_bind (grows_setOrder _ _) fun _ => grows_splitLoop o fuel i

theorem grows_baAllocate (len : ℕ) : Grows (baAllocate len) := by
  unfold baAllocate
  apply grows_ite (grows_pure _)
  refine grows_bind (grows_scanLoop _ _ _ _) fun bestFit => ?_
  cases bestFit with
  | none => exact grows_pure _
  | some i =>
      refine grows_bind (grows_splitLoop _ _ _) fun _ => ?_
      exact grows_bind (grows_setAllocated _ _) fun _ => grows_pure _

end grows

/-! ### `ba_free` -/

/-- One round of the merge loop that stops: the buddy is not free or has another order. -/
theorem mergeLoop_stop {curr buddy : ℕ} (tc : List ℕ)
    (hb : curr ^^^ 2 ^ (bm curr).order = buddy)
    (h : ¬ ((bm buddy).allocated = false ∧ (bm buddy).order = (bm curr).order)) :
    ∃ tl, buddy ∈ tl ∧ (∀ j ∈ tl, j = curr ∨ j = buddy) ∧
      ∀ fuel, (mergeLoop (fuel + 1) curr ⟨bm, tc⟩).2 = ⟨bm, tl ++ tc⟩ := by
  subst hb
  by_cases hf : (bm (curr ^^^ 2 ^ (bm curr).order)).allocated = false
  · have ho : (bm (curr ^^^ 2 ^ (bm curr).order)).order ≠ (bm curr).order := fun h' => h ⟨hf, h'⟩
    refine ⟨[curr, curr ^^^ 2 ^ (bm curr).order, curr ^^^ 2 ^ (bm curr).order, curr], by simp, by simp,
      fun fuel => ?_⟩
    simp [mergeLoop, buddyIndex, isFree, order, bits, bind, StateT.bind, pure, StateT.pure,
      Nat.one_shiftLeft, hf, ho]
  · refine ⟨[curr ^^^ 2 ^ (bm curr).order, curr], by simp, by simp, fun fuel => ?_⟩
    simp [mergeLoop, buddyIndex, isFree, order, bits, bind, StateT.bind, pure, StateT.pure,
      Nat.one_shiftLeft, hf]

/-- One round of the merge loop that merges `curr` with its buddy. -/
theorem mergeLoop_merge {curr buddy : ℕ} (tc : List ℕ)
    (hb : curr ^^^ 2 ^ (bm curr).order = buddy) (hne : buddy ≠ curr)
    (hf : (bm buddy).allocated = false) (ho : (bm buddy).order = (bm curr).order)
    (hlt : min buddy curr < numEntries) :
    ∃ tl, buddy ∈ tl ∧ (∀ j ∈ tl, j = curr ∨ j = buddy) ∧
      ∀ fuel, (mergeLoop (fuel + 1) curr ⟨bm, tc⟩).2 = (mergeLoop fuel (min buddy curr)
        ⟨Function.update (Function.update bm buddy ⟨false, ((bm curr).order + 1) % 128⟩) curr
          ⟨(bm curr).allocated, ((bm curr).order + 1) % 128⟩, tl ++ tc⟩).2 := by
  subst hb
  have hc := min_lt_iff.mp hlt
  refine ⟨[curr, curr, curr ^^^ 2 ^ (bm curr).order, curr ^^^ 2 ^ (bm curr).order, curr,
    curr ^^^ 2 ^ (bm curr).order, curr ^^^ 2 ^ (bm curr).order, curr], by simp, by simp,
    fun fuel => ?_⟩
  simp [mergeLoop, buddyIndex, isFree, order, bits, bind, StateT.bind, pure, StateT.pure, setOrder,
    Nat.one_shiftLeft, hf, ho, hc, Function.update_of_ne hne.symm]

/-- The round of the merge loop at a node one of whose halves, starting at `c`, is one free
block: it is `join`. -/
theorem mergeLoop_join (tc : List ℕ) {l r : BTree k} {off c : ℕ} (hk : k + 1 ≤ 8)
    (hn : off + 2 ^ (k + 1) ≤ numEntries) (hd : 2 ^ (k + 1) ∣ off) (h : Rep bm (node l r) off)
    (hc : (c = off ∧ l = leaf false) ∨ (c = off + 2 ^ k ∧ r = leaf false)) :
    ∃ bm' tl, Rep bm' (join l r) off ∧ (∀ j, ¬ (off ≤ j ∧ j < off + 2 ^ (k + 1)) → bm' j = bm j) ∧
      (∀ j ∈ tl, off ≤ j ∧ j < off + 2 ^ (k + 1)) ∧
      ∀ fuel, (mergeLoop (fuel + 1) c ⟨bm, tc⟩).2 =
        if join l r = leaf false then (mergeLoop fuel off ⟨bm', tl ++ tc⟩).2
        else ⟨bm', tl ++ tc⟩ := by
  have hs : 2 ^ (k + 1) = 2 ^ k + 2 ^ k := by rw [pow_succ]; omega
  have hp := Nat.two_pow_pos k
  obtain ⟨d, hcd, hbc, hx, hfree⟩ : ∃ d, ((c = off ∧ d = off + 2 ^ k) ∨ (c = off + 2 ^ k ∧ d = off)) ∧
      bm c = ⟨false, k⟩ ∧ c ^^^ 2 ^ k = d ∧
      (((bm d).allocated = false ∧ (bm d).order = k) ↔ l = leaf false ∧ r = leaf false) := by
    rcases hc with ⟨rfl, hl⟩ | ⟨rfl, hr⟩
    · subst hl
      exact ⟨_, Or.inl ⟨rfl, rfl⟩, h.1.1, xor_two_pow_of_dvd hd, by simpa using h.2.free_iff⟩
    · subst hr
      exact ⟨_, Or.inr ⟨rfl, rfl⟩, h.2.1, xor_two_pow_of_dvd' hd, by simpa using h.1.free_iff⟩
  have hmin : min d c = off := by omega
  have hb : c ^^^ 2 ^ (bm c).order = d := by rw [hbc]; exact hx
  by_cases hj : l = leaf false ∧ r = leaf false
  · obtain ⟨hdf, hdo⟩ := hfree.mpr hj
    obtain ⟨tl, -, htl, hrun⟩ := mergeLoop_merge tc hb (by omega) hdf (by rw [hdo, hbc]) (by omega)
    rw [hmin] at hrun
    have hmod : ((bm c).order + 1) % 128 = k + 1 := by rw [hbc]; exact Nat.mod_eq_of_lt (show k + 1 < 128 by omega)
    rw [hmod, hbc] at hrun
    have hjoin : join l r = leaf false := by simp [join, hj]
    obtain ⟨rfl, rfl⟩ := hj
    refine ⟨Function.update (Function.update bm d ⟨false, k + 1⟩) c ⟨false, k + 1⟩, tl, ?_,
      fun j hj => ?_, fun j hj => ?_, fun fuel => ?_⟩
    · rw [hjoin]
      refine h.1.merge h.2 ?_ ?_ fun j h1 h2 => ?_
      · rcases hcd with ⟨rfl, rfl⟩ | ⟨rfl, rfl⟩
        · rw [Function.update_self]
        · rw [Function.update_of_ne (by omega), Function.update_self]
      · rcases hcd with ⟨rfl, rfl⟩ | ⟨rfl, rfl⟩
        · rw [Function.update_of_ne (by omega), Function.update_self]
        · rw [Function.update_self]
      · rw [Function.update_of_ne (by omega), Function.update_of_ne (by omega)]
    · rw [Function.update_of_ne (by omega), Function.update_of_ne (by omega)]
    · have := htl j hj
      omega
    · rw [hjoin, if_pos rfl]
      exact hrun fuel
  · obtain ⟨tl, -, htl, hrun⟩ := mergeLoop_stop tc hb (by
      rw [show (bm c).order = k by rw [hbc]]
      exact fun h' => hj (hfree.mp h'))
    have hjoin : join l r = node l r := by simp [join, hj]
    refine ⟨bm, tl, by rw [hjoin]; exact h, fun _ _ => rfl, fun j hj' => ?_, fun fuel => ?_⟩
    · have := htl j hj'
      omega
    · rw [hjoin, if_neg (by simp)]
      exact hrun fuel

/-- The bitmap after `ba_free` cleared the `allocated` bit at `i`. -/
def cleared (bm : ℕ → BaBits) (i : ℕ) : ℕ → BaBits :=
  Function.update bm i ⟨false, (bm i).order⟩

/-- From one half of a node to the node: the half that starts at `c` has been turned into `t`,
and a last round of the loop handles the node unless the loop stopped inside the half. -/
theorem mergeLoop_rep_node {i : ℕ} (tc : List ℕ) {l r t : BTree k} {off c n : ℕ} {tl : List ℕ}
    (hk : k + 1 ≤ 8) (hn : off + 2 ^ (k + 1) ≤ numEntries) (hd : 2 ^ (k + 1) ∣ off) (hnk : n ≤ k)
    (h : Rep bm' (node l r) off)
    (hfr : ∀ j, ¬ (off ≤ j ∧ j < off + 2 ^ (k + 1)) → bm' j = bm j)
    (htl : ∀ j ∈ tl, off ≤ j ∧ j < off + 2 ^ (k + 1))
    (hc : t = leaf false → (c = off ∧ l = leaf false) ∨ (c = off + 2 ^ k ∧ r = leaf false))
    (hne : t ≠ leaf false → join l r = node l r)
    (hrun : ∀ fuel, (mergeLoop (fuel + n) i ⟨cleared bm i, tc⟩).2 =
      if t = leaf false then (mergeLoop fuel c ⟨bm', tl ++ tc⟩).2 else ⟨bm', tl ++ tc⟩) :
    ∃ n bm' tl, n ≤ k + 1 ∧ Rep bm' (join l r) off ∧
      (∀ j, ¬ (off ≤ j ∧ j < off + 2 ^ (k + 1)) → bm' j = bm j) ∧
      (∀ j ∈ tl, off ≤ j ∧ j < off + 2 ^ (k + 1)) ∧
      ∀ fuel, (mergeLoop (fuel + n) i ⟨cleared bm i, tc⟩).2 =
        if join l r = leaf false then (mergeLoop fuel off ⟨bm', tl ++ tc⟩).2
        else ⟨bm', tl ++ tc⟩ := by
  by_cases ht : t = leaf false
  · obtain ⟨bm2, tl2, hrep2, hfr2, htl2, hrun2⟩ := mergeLoop_join (tl ++ tc) hk hn hd h (hc ht)
    refine ⟨n + 1, bm2, tl2 ++ tl, by omega, hrep2, fun j hj => ?_, fun j hj => ?_, fun fuel => ?_⟩
    · rw [hfr2 j hj, hfr j hj]
    · rcases List.mem_append.mp hj with hj | hj
      · exact htl2 j hj
      · exact htl j hj
    · rw [show fuel + (n + 1) = fuel + 1 + n by omega, hrun, if_pos ht, hrun2, List.append_assoc]
  · have hj := hne ht
    refine ⟨n, bm', tl, by omega, by rw [hj]; exact h, hfr, htl, fun fuel => ?_⟩
    rw [hrun, if_neg ht, hj, if_neg (by simp)]

/-- What the merge loop does inside one subtree: starting at the block just marked free it takes
`n` rounds to turn the subtree into `t.release i off`.  If that is one free block the loop goes
on from its first unit, otherwise it has stopped. -/
theorem mergeLoop_rep {i : ℕ} (tc : List ℕ) : ∀ {k : ℕ} {t : BTree k} {off : ℕ}, k ≤ 8 →
    off + 2 ^ k ≤ numEntries → 2 ^ k ∣ off → Rep bm t off → t.Allocated off i →
    ∃ n bm' tl, n ≤ k ∧ Rep bm' (t.release i off) off ∧
      (∀ j, ¬ (off ≤ j ∧ j < off + 2 ^ k) → bm' j = bm j) ∧
      (∀ j ∈ tl, off ≤ j ∧ j < off + 2 ^ k) ∧
      ∀ fuel, (mergeLoop (fuel + n) i ⟨cleared bm i, tc⟩).2 =
        if t.release i off = leaf false then (mergeLoop fuel off ⟨bm', tl ++ tc⟩).2
        else ⟨bm', tl ++ tc⟩
  | k, leaf a, off, _, _, _, h, hi => by
      obtain ⟨rfl, rfl⟩ := allocated_leaf.mp hi
      have hp := Nat.two_pow_pos k
      refine ⟨0, cleared bm off, [], Nat.zero_le _, ?_, ?_, by simp, ?_⟩
      · refine ⟨by rw [cleared, Function.update_self, h.1], fun j h1 h2 => ?_⟩
        rw [cleared, Function.update_of_ne (by omega)]
        exact h.2 j h1 h2
      · intro j hj
        rw [cleared, Function.update_of_ne (by omega)]
      · intro fuel
        simp [release]
  | k + 1, node l r, off, hk, hn, hd, h, hi => by
      have hs : 2 ^ (k + 1) = 2 ^ k + 2 ^ k := by rw [pow_succ]; omega
      have hdk : 2 ^ k ∣ off := (pow_dvd_pow 2 (Nat.le_succ k)).trans hd
      rcases allocated_node.mp hi with hl | hr
      · obtain ⟨n, bm', tl, hnk, hrep, hfr, htl, hrun⟩ :=
          mergeLoop_rep tc (by omega) (by omega) hdk h.1 hl
        have hnode : Rep bm' (node (l.release i off) r) off :=
          ⟨hrep, h.2.congr fun j h1 h2 => hfr j (by omega)⟩
        have hrel : (node l r).release i off = join (l.release i off) r := by
          rw [release, if_pos hl.bounds.2]
        rw [hrel]
        exact mergeLoop_rep_node tc hk hn hd hnk hnode (fun j hj => hfr j (by omega))
          (fun j hj => by have := htl j hj; omega) (fun h' => Or.inl ⟨rfl, h'⟩)
          (fun h' => by simp [join, h']) hrun
      · obtain ⟨n, bm', tl, hnk, hrep, hfr, htl, hrun⟩ :=
          mergeLoop_rep tc (by omega) (by omega) (hdk.add (dvd_refl _)) h.2 hr
        have hnode : Rep bm' (node l (r.release i (off + 2 ^ k))) off :=
          ⟨h.1.congr fun j h1 h2 => hfr j (by omega), hrep⟩
        have hrel : (node l r).release i off = join l (r.release i (off + 2 ^ k)) := by
          have := hr.bounds.1
          rw [release, if_neg (by omega)]
        rw [hrel]
        exact mergeLoop_rep_node tc hk hn hd hnk hnode (fun j hj => hfr j (by omega))
          (fun j hj => by have := htl j hj; omega) (fun h' => Or.inr ⟨rfl, h'⟩)
          (fun h' => by simp [join, h']) hrun

/-- `ba_free` of an allocated block.  While some other block is allocated the loop stops inside
the bitmap; freeing the last one makes the bitmap one block of order 8, whose buddy index is
`num_entries`. -/
theorem baFree_rep {t : BTree 8} {ba : State} {i : ℕ} (h : Rep ba.bitmap t 0)
    (hi : t.Allocated 0 i) :
    ∃ bm' tl, Rep bm' (t.release i 0) 0 ∧ (∀ j, numEntries ≤ j → bm' j = ba.bitmap j) ∧
      (∀ j ∈ tl, j < numEntries) ∧
      (t.release i 0 ≠ leaf false → (baFree i ba).2 = ⟨bm', tl ++ ba.touched⟩) ∧
      (t.release i 0 = leaf false → numEntries ∈ (baFree i ba).2.touched ∧
        (¬ ((ba.bitmap numEntries).allocated = false ∧ (ba.bitmap numEntries).order = 8) →
          (baFree i ba).2.bitmap = bm')) := by
  obtain ⟨n, bm', tl, hn, hrep, hfr, htl, hrun⟩ :=
    mergeLoop_rep (i :: ba.touched) (le_refl 8) (by decide) (by decide) h hi
  have hlt : i < numEntries := lt_of_lt_of_eq hi.bounds.2 (by decide)
  have hfree : (baFree i ba).2 = (mergeLoop (32 - n + n) i ⟨cleared ba.bitmap i, i :: ba.touched⟩).2 := by
    rw [show 32 - n + n = 32 by omega, baFree]
    rfl
  rw [hrun] at hfree
  refine ⟨bm', tl ++ [i], hrep, fun j hj => hfr j (by unfold numEntries at hj; omega), ?_, ?_, ?_⟩
  · intro j hj
    rcases List.mem_append.mp hj with hj | hj
    · exact lt_of_lt_of_eq (htl j hj).2 (by decide)
    · rw [List.mem_singleton.mp hj]
      exact hlt
  · intro hne
    rw [hfree, if_neg hne]
    simp
  · intro he
    rw [if_pos he, show 32 - n = 31 - n + 1 by omega] at hfree
    rw [he] at hrep
    have hb : 0 ^^^ 2 ^ (bm' 0).order = numEntries := by rw [hrep.1]; rfl
    have hbm : bm' numEntries = ba.bitmap numEntries := hfr _ (by unfold numEntries; omega)
    have hord : (bm' 0).order = 8 := by rw [hrep.1]
    rw [hfree]
    by_cases hs : (bm' numEntries).allocated = false ∧ (bm' numEntries).order = (bm' 0).order
    · obtain ⟨tl2, hmem, -, hrun2⟩ := mergeLoop_merge (tl ++ i :: ba.touched) hb (by decide) hs.1
        hs.2 (by decide)
      refine ⟨?_, fun h' => absurd ?_ h'⟩
      · rw [hrun2]
        exact grows_mergeLoop _ _ _ (List.mem_append_left _ hmem)
      · rw [← hbm, ← hord]
        exact hs
    · obtain ⟨tl2, hmem, -, hrun2⟩ := mergeLoop_stop (tl ++ i :: ba.touched) hb hs
      rw [hrun2]
      exact ⟨List.mem_append_left _ hmem, fun _ => rfl⟩

/-! ### `ba_allocate` -/

theorem baOrder_le (len : ℕ) : baOrder len ≤ 32 := by
  unfold baOrder
  simp only
  cases h : (List.range 32).find? _ with
  | none => simp
  | some i =>
      have := List.mem_range.mp (List.mem_of_find?_eq_some h)
      simp only [Option.getD_some]
      omega

/-- One round of the scan, at the block `b`: it either returns or goes on at the next block, with
a best fit that is the old one or `b`. -/
theorem scanLoop_round (o fuel : ℕ) {b : Block} (bestFit : Option ℕ) (tc : List ℕ)
    (hlt : b.start < numEntries) (hb : bm b.start = ⟨b.allocated, b.order⟩) :
    ∃ best tl, (∀ j ∈ tl, j = b.start ∨ bestFit = some j) ∧
      (best = bestFit ∨ best = some b.start ∧ b.allocated = false ∧ o ≤ b.order) ∧
      (best = none → bestFit = none ∧ (b.allocated = false → b.order < o)) ∧
      (scanLoop o (fuel + 1) b.start bestFit ⟨bm, tc⟩ =
          scanLoop o fuel (b.start + 2 ^ b.order) best ⟨bm, tl ++ tc⟩ ∨
        best ≠ none ∧ scanLoop o (fuel + 1) b.start bestFit ⟨bm, tc⟩ = (best, ⟨bm, tl ++ tc⟩)) := by
  by_cases ha : b.allocated = true
  · refine ⟨bestFit, [b.start, b.start], by simp, Or.inl rfl, by simp [ha], Or.inl ?_⟩
    simp [scanLoop, nextIndex, isFree, order, bits, bind, StateT.bind, pure, StateT.pure,
      Nat.one_shiftLeft, hlt, hb, ha]
  · rw [Bool.not_eq_true] at ha
    rcases Nat.lt_trichotomy b.order o with ho | ho | ho
    · refine ⟨bestFit, [b.start, b.start, b.start, b.start], by simp, Or.inl rfl, by simp [ho],
        Or.inl ?_⟩
      simp [scanLoop, nextIndex, isFree, order, bits, bind, StateT.bind, pure, StateT.pure,
        Nat.one_shiftLeft, hlt, hb, ha, ho.ne, Nat.not_lt.mpr ho.le]
    · refine ⟨some b.start, [b.start, b.start], by simp, Or.inr ⟨rfl, ha, ho.ge⟩, by simp,
        Or.inr ⟨by simp, ?_⟩⟩
      simp [scanLoop, isFree, order, bits, bind, StateT.bind, pure, StateT.pure, hlt, hb, ha, ho]
    · cases bestFit with
      | none =>
          refine ⟨some b.start, [b.start, b.start, b.start, b.start], by simp,
            Or.inr ⟨rfl, ha, ho.le⟩, by simp, Or.inl ?_⟩
          simp [scanLoop, nextIndex, isFree, order, bits, bind, StateT.bind, pure, StateT.pure,
            Nat.one_shiftLeft, hlt, hb, ha, ho.ne', ho]
      | some c =>
          by_cases hc : b.order < (bm c).order
          · refine ⟨some b.start, [b.start, c, b.start, b.start, b.start, b.start], by simp,
              Or.inr ⟨rfl, ha, ho.le⟩, by simp, Or.inl ?_⟩
            simp [scanLoop, nextIndex, isFree, order, bits, bind, StateT.bind, pure, StateT.pure,
              Nat.one_shiftLeft, hlt, hb, ha, ho.ne', ho, hc]
          · refine ⟨some c, [b.start, c, b.start, b.start, b.start, b.start], by simp,
              Or.inl rfl, by simp, Or.inl ?_⟩
            simp [scanLoop, nextIndex, isFree, order, bits, bind, StateT.bind, pure, StateT.pure,
              Nat.one_shiftLeft, hlt, hb, ha, ho.ne', ho, hc]

/-- The scan over the blocks that remain: it returns a free block of order at least `o` unless
there is none, accesses first units of blocks only and writes nothing. -/
theorem scanLoop_spec (o : ℕ) : ∀ (bs : List Block) (fuel curr : ℕ) (bestFit : Option ℕ)
    (tc : List ℕ), Chain curr bs numEntries → bs.length ≤ fuel →
    (∀ b ∈ bs, bm b.start = ⟨b.allocated, b.order⟩) →
    (∀ i, bestFit = some i → i < numEntries) →
    ∃ res tl, scanLoop o fuel curr bestFit ⟨bm, tc⟩ = (res, ⟨bm, tl ++ tc⟩) ∧
      (∀ j ∈ tl, j < numEntries) ∧
      (∀ i, res = some i → bestFit = some i ∨
        ∃ b ∈ bs, b.start = i ∧ b.allocated = false ∧ o ≤ b.order) ∧
      (res = none → bestFit = none ∧ ∀ b ∈ bs, b.allocated = false → b.order < o)
  | [], 0, curr, bestFit, tc, _, _, _, _ =>
      ⟨bestFit, [], rfl, by simp, fun i h => Or.inl h, fun h => ⟨h, by simp⟩⟩
  | [], fuel + 1, curr, bestFit, tc, hc, _, _, _ => by
      have hge : ¬ curr < numEntries := by
        have : curr = numEntries := hc
        omega
      refine ⟨bestFit, [], ?_, by simp, fun i h => Or.inl h, fun h => ⟨h, by simp⟩⟩
      simp [scanLoop, hge, pure, StateT.pure]
  | b :: bs, 0, _, _, _, _, hf, _, _ => by simp at hf
  | b :: bs, fuel + 1, curr, bestFit, tc, hc, hf, hbm, hbest => by
      obtain ⟨rfl, hc⟩ := hc
      have hlt : b.start < numEntries := by
        have h1 := hc.le
        have h2 := Nat.two_pow_pos b.order
        omega
      obtain ⟨best, tl, htl, hor, hnone, hrun⟩ :=
        scanLoop_round o fuel bestFit tc hlt (hbm b List.mem_cons_self)
      have htl' : ∀ j ∈ tl, j < numEntries := fun j hj => by
        rcases htl j hj with rfl | h
        · exact hlt
        · exact hbest j h
      rcases hrun with hrun | ⟨hne, hrun⟩
      · have hbest' : ∀ i, best = some i → i < numEntries := fun i hi => by
          rcases hor with h | ⟨h, -⟩
          · exact hbest i (h ▸ hi)
          · rw [h] at hi
            exact Option.some.inj hi ▸ hlt
        obtain ⟨res, tl2, hrun2, htl2, hsome, hnone2⟩ := scanLoop_spec o bs fuel _ best (tl ++ tc) hc
          (by simpa using hf) (fun c hc => hbm c (List.mem_cons_of_mem _ hc)) hbest'
        refine ⟨res, tl2 ++ tl, by rw [hrun, hrun2, List.append_assoc], ?_, fun i hi => ?_, fun h => ?_⟩
        · intro j hj
          rcases List.mem_append.mp hj with hj | hj
          · exact htl2 j hj
          · exact htl' j hj
        · rcases hsome i hi with h | ⟨c, hc, h⟩
          · rcases hor with h' | ⟨h', ha, ho⟩
            · exact Or.inl (h' ▸ h)
            · rw [h'] at h
              exact Or.inr ⟨b, List.mem_cons_self, Option.some.inj h, ha, ho⟩
          · exact Or.inr ⟨c, List.mem_cons_of_mem _ hc, h⟩
        · obtain ⟨h1, h2⟩ := hnone2 h
          obtain ⟨h3, h4⟩ := hnone h1
          refine ⟨h3, fun c hc => ?_⟩
          rcases List.mem_cons.mp hc with rfl | hc
          · exact h4
          · exact h2 c hc
      · refine ⟨best, tl, hrun, htl', fun i hi => ?_, fun h => absurd h hne⟩
        rcases hor with h' | ⟨h', ha, ho⟩
        · exact Or.inl (h' ▸ hi)
        · rw [h'] at hi
          exact Or.inr ⟨b, List.mem_cons_self, Option.some.inj hi, ha, ho⟩

/-- One round of the partition loop. -/
theorem splitLoop_succ (o fuel : ℕ) {i : ℕ} (tc : List ℕ) (hi : bm i = ⟨false, k + 1⟩)
    (ho : o < k + 1) (hk : k < 128) :
    ∃ tl, (∀ j ∈ tl, j = i ∨ j = i ^^^ 2 ^ k) ∧ splitLoop o (fuel + 1) i ⟨bm, tc⟩ =
      splitLoop o fuel i ⟨Function.update (Function.update bm i ⟨false, k⟩) (i ^^^ 2 ^ k)
        ⟨(Function.update bm i ⟨false, k⟩ (i ^^^ 2 ^ k)).allocated, k⟩, tl ++ tc⟩ := by
  refine ⟨[i ^^^ 2 ^ k, i, i, i, i, i], by simp, ?_⟩
  simp [splitLoop, buddyIndex, order, setOrder, bits, bind, StateT.bind, pure, StateT.pure,
    Nat.one_shiftLeft, hi, ho, Nat.mod_eq_of_lt hk]

/-- The partition loop stops at a block of the order asked for. -/
theorem splitLoop_done (o fuel : ℕ) {i : ℕ} (tc : List ℕ) (ho : (bm i).order ≤ o) :
    ∃ tl, (∀ j ∈ tl, j = i) ∧ splitLoop o fuel i ⟨bm, tc⟩ = ((), ⟨bm, tl ++ tc⟩) := by
  cases fuel with
  | zero => exact ⟨[], by simp, rfl⟩
  | succ fuel =>
      refine ⟨[i], by simp, ?_⟩
      simp [splitLoop, order, bits, bind, StateT.bind, pure, StateT.pure, Nat.not_lt.mpr ho]

/-- The `allocated` bit of a whole free block. -/
theorem Rep.take {i : ℕ} (h : Rep bm (leaf false : BTree k) i) :
    Rep (Function.update bm i ⟨true, (bm i).order⟩) (leaf true : BTree k) i := by
  refine ⟨by rw [Function.update_self, h.1], fun j h1 h2 => ?_⟩
  rw [Function.update_of_ne (by omega)]
  exact h.2 j h1 h2

/-- The partition loop and the final `allocated = 1` turn a free block into `carve`. -/
theorem splitLoop_rep (o : ℕ) : ∀ (k fuel i : ℕ) (bm : ℕ → BaBits) (tc : List ℕ), k ≤ 8 →
    k ≤ fuel → 2 ^ k ∣ i → Rep bm (leaf false : BTree k) i → ∃ bm' tl,
      splitLoop o fuel i ⟨bm, tc⟩ = ((), ⟨bm', tl ++ tc⟩) ∧
      Rep (Function.update bm' i ⟨true, (bm' i).order⟩) (carve o k) i ∧
      (∀ j, ¬ (i ≤ j ∧ j < i + 2 ^ k) → bm' j = bm j) ∧ (∀ j ∈ tl, i ≤ j ∧ j < i + 2 ^ k)
  | 0, fuel, i, bm, tc, _, _, _, h => by
      have ho : (bm i).order ≤ o := by rw [h.1]; exact Nat.zero_le o
      obtain ⟨tl, htl, hrun⟩ := splitLoop_done o fuel tc ho
      refine ⟨bm, tl, hrun, h.take, fun _ _ => rfl, fun j hj => ?_⟩
      rw [htl j hj]
      simp
  | k + 1, fuel, i, bm, tc, hk, hf, hd, h => by
      have hs : 2 ^ (k + 1) = 2 ^ k + 2 ^ k := by rw [pow_succ]; omega
      have hp := Nat.two_pow_pos k
      unfold carve
      by_cases ho : k + 1 ≤ o
      · have ho' : (bm i).order ≤ o := by rw [h.1]; exact ho
        obtain ⟨tl, htl, hrun⟩ := splitLoop_done o fuel tc ho'
        rw [if_pos ho]
        refine ⟨bm, tl, hrun, h.take, fun _ _ => rfl, fun j hj => ?_⟩
        rw [htl j hj]
        omega
      · rw [if_neg ho]
        obtain ⟨fuel, rfl⟩ : ∃ f, fuel = f + 1 := ⟨fuel - 1, by omega⟩
        obtain ⟨tl, htl, hrun⟩ := splitLoop_succ o fuel tc h.1 (by omega) (by omega)
        rw [xor_two_pow_of_dvd hd] at htl hrun
        rw [Function.update_of_ne (by omega : i + 2 ^ k ≠ i)] at hrun
        obtain ⟨hl, hr⟩ := h.split
          (Function.update (Function.update bm i ⟨false, k⟩) (i + 2 ^ k) ⟨(bm (i + 2 ^ k)).allocated, k⟩)
          (by rw [Function.update_of_ne (by omega), Function.update_self])
          (by rw [Function.update_self])
          (fun j h1 h2 => by rw [Function.update_of_ne h2, Function.update_of_ne h1])
        obtain ⟨bm2, tl2, hrun2, hrep2, hfr2, htl2⟩ := splitLoop_rep o k fuel i _ (tl ++ tc) (by omega)
          (by omega) ((pow_dvd_pow 2 (Nat.le_succ k)).trans hd) hl
        refine ⟨bm2, tl2 ++ tl, by rw [hrun, hrun2, List.append_assoc], ⟨hrep2, ?_⟩, ?_, ?_⟩
        · refine hr.congr fun j h1 h2 => ?_
          rw [Function.update_of_ne (by omega), hfr2 j (by omega)]
        · intro j hj
          rw [hfr2 j (by omega), Function.update_of_ne (by omega), Function.update_of_ne (by omega)]
        · intro j hj
          rcases List.mem_append.mp hj with hj | hj
          · have := htl2 j hj
            omega
          · have := htl j hj
            omega

theorem chain_length_le : ∀ {bs : List Block} {s e : ℕ}, Chain s bs e → s + bs.length ≤ e
  | [], _, _, h => le_of_eq h
  | b :: bs, s, e, h => by
      have h1 := chain_length_le h.2
      have h2 := Nat.two_pow_pos b.order
      have h3 := h.1
      simp only [List.length_cons]
      omega

/-- `ba_order` is at most 32, so neither the bound nor the cast of `order` has an effect. -/
theorem baOrder_small (len : ℕ) : ¬ baOrder len > BA_MAX_ORDER ∧ baOrder len % 256 = baOrder len := by
  have h := baOrder_le len
  refine ⟨?_, Nat.mod_eq_of_lt (by omega)⟩
  unfold BA_MAX_ORDER
  omega

theorem baAllocate_none {len : ℕ} {ba s : State}
    (hscan : scanLoop (baOrder len) numEntries 0 none ba = (none, s)) :
    baAllocate len ba = (none, s) := by
  obtain ⟨hmax, hmod⟩ := baOrder_small len
  unfold baAllocate
  rw [if_neg hmax, hmod, bind_run, hscan]
  rfl

theorem baAllocate_some {len i : ℕ} {ba s : State} {tc : List ℕ}
    (hscan : scanLoop (baOrder len) numEntries 0 none ba = (some i, s))
    (hsplit : splitLoop (baOrder len) 128 i s = ((), ⟨bm, tc⟩)) :
    baAllocate len ba = (some i, ⟨Function.update bm i ⟨true, (bm i).order⟩, i :: tc⟩) := by
  obtain ⟨hmax, hmod⟩ := baOrder_small len
  unfold baAllocate
  rw [if_neg hmax, hmod, bind_run, hscan]
  simp only
  rw [bind_run, hsplit, bind_run]
  rfl

/-- `ba_allocate`: either no free block is large enough and the bitmap is unchanged, or a free
block `i` is and the piece of order `ba_order(len)` at its start is now allocated. -/
theorem baAllocate_rep {t : BTree 8} {ba : State} (len : ℕ) (h : Rep ba.bitmap t 0) :
    ∃ bm' tl, (∀ j ∈ tl, j < numEntries) ∧ (∀ j, numEntries ≤ j → bm' j = ba.bitmap j) ∧
      ((baAllocate len ba = (none, ⟨bm', tl ++ ba.touched⟩) ∧ bm' = ba.bitmap ∧
          ∀ i j, t.FreeAt 0 i j → j < baOrder len) ∨
        ∃ i m, baAllocate len ba = (some i, ⟨bm', tl ++ ba.touched⟩) ∧ t.FreeAt 0 i m ∧
          baOrder len ≤ m ∧ Rep bm' (t.acquire (baOrder len) i 0) 0) := by
  have hchain : Chain 0 (t.blocks 0) numEntries := chain_blocks t 0
  obtain ⟨res, tl, hrun, htl, hsome, hnone⟩ := scanLoop_spec (baOrder len) (t.blocks 0) numEntries 0
    none ba.touched hchain (by have := chain_length_le hchain; omega) h.block (by simp)
  cases res with
  | none =>
      refine ⟨ba.bitmap, tl, htl, fun _ _ => rfl, Or.inl ⟨?_, rfl, fun i j hij => ?_⟩⟩
      · exact baAllocate_none hrun
      · exact (hnone rfl).2 _ hij rfl
  | some i =>
      obtain ⟨b, hb, rfl, hfree, hle⟩ := (hsome i rfl).resolve_left (by simp)
      have hat : t.FreeAt 0 b.start b.order := by
        rw [FreeAt, ← hfree]
        exact hb
      have hbd := mem_bounds hat
      simp only [Nat.zero_add, Nat.zero_le, true_and] at hbd
      obtain ⟨bm2, tl2, hrun2, hrep2, hfr2, htl2⟩ := splitLoop_rep (baOrder len) b.order 128 b.start
        ba.bitmap (tl ++ ba.touched) (BTree.order_le hb) (by have := BTree.order_le hb; omega)
        (aligned_of_mem t 0 (dvd_zero _) b hb) (h.freeAt hat)
      refine ⟨Function.update bm2 b.start ⟨true, (bm2 b.start).order⟩, b.start :: (tl2 ++ tl), ?_, ?_,
        Or.inr ⟨b.start, b.order, ?_, hat, hle, ?_⟩⟩
      · have hn : numEntries = 2 ^ 8 := rfl
        have hp := Nat.two_pow_pos b.order
        intro j hj
        rcases List.mem_cons.mp hj with rfl | hj
        · omega
        · rcases List.mem_append.mp hj with hj | hj
          · have := htl2 j hj
            omega
          · exact htl j hj
      · intro j hj
        have hn : numEntries = 2 ^ 8 := rfl
        have hp := Nat.two_pow_pos b.order
        rw [Function.update_of_ne (by omega), hfr2 j (by omega)]
      · rw [baAllocate_some hrun hrun2]
        simp
      · refine h.acquire _ _ _ hat hrep2 fun j hj => ?_
        have hp := Nat.two_pow_pos b.order
        rw [Function.update_of_ne (by omega), hfr2 j hj]

end Bionic.Ba
