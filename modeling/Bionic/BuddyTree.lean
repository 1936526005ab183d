import Mathlib

/-! # Buddy trees

The abstract state of a binary buddy allocator over `2 ^ k` units: a binary tree of height at
most `k` whose leaves are the blocks.  A `leaf` of a `BTree k` is one block of order `k`, free
or allocated; a `node` is a block split into its two buddies of order `k - 1`.  The index `k`
makes alignment and tiling true by construction: the blocks of `t : BTree k` placed at an offset
`off` tile `[off, off + 2 ^ k)` (`BTree.chain_blocks`), and a block of order `j` starts at a
multiple of `2 ^ j` whenever `off` is a multiple of `2 ^ k` (`BTree.aligned_of_mem`).

* `BTree.release t off i` frees the block at `i` and merges free buddies on the way up;
* `BTree.carve o k` is a block of order `k` split down to order `o`, its first piece allocated,
  and `BTree.acquire o i t off` replaces the block at `i` by it;
* `Coalesced t` says that no two free buddies of equal order coexist.  It is what makes the
  allocator complete: a free block of order at least `o` exists iff there is an aligned free
  run of `2 ^ o` units (`BTree.exists_free_block_iff`). -/

namespace Buddy

/-- A block: its first unit, its order, and whether it is allocated. -/
structure Block where
  start : ℕ
  order : ℕ
  allocated : Bool
deriving DecidableEq, Repr

/-- The unit `j` lies in the block `b`. -/
def Block.Covers (b : Block) (j : ℕ) : Prop := b.start ≤ j ∧ j < b.start + 2 ^ b.order

/-- The blocks of a list follow each other without gap from unit `s` to unit `e`. -/
def Chain : ℕ → List Block → ℕ → Prop
  | s, [], e => s = e
  | s, b :: bs, e => b.start = s ∧ Chain (b.start + 2 ^ b.order) bs e

theorem Chain.append : ∀ {bs cs : List Block} {s m e : ℕ},
    Chain s bs m → Chain m cs e → Chain s (bs ++ cs) e
  | [], _, _, _, _, h, h' => by
      have e : _ = _ := h
      rw [e]; exact h'
  | _ :: _, _, _, _, _, h, h' => ⟨h.1, Chain.append h.2 h'⟩

theorem Chain.le : ∀ {bs : List Block} {s e : ℕ}, Chain s bs e → s ≤ e
  | [], _, _, h => le_of_eq h
  | b :: bs, s, e, h => by
      have h1 := Chain.le h.2
      have h2 := h.1
      have h3 := Nat.two_pow_pos b.order
      omega

/-- Every unit between the ends of a chain lies in one of its blocks. -/
theorem Chain.cover : ∀ {bs : List Block} {s e : ℕ}, Chain s bs e →
    ∀ j, s ≤ j → j < e → ∃ b ∈ bs, b.Covers j
  | [], s, e, h, j, h1, h2 => by
      have : s = e := h
      omega
  | b :: bs, s, e, h, j, h1, h2 => by
      obtain ⟨hs, hc⟩ := h
      by_cases hj : j < b.start + 2 ^ b.order
      · exact ⟨b, List.mem_cons_self, by omega, hj⟩
      · obtain ⟨c, hc1, hc2⟩ := hc.cover j (by omega) h2
        exact ⟨c, List.mem_cons_of_mem _ hc1, hc2⟩

theorem Chain.bounds : ∀ {bs : List Block} {s e : ℕ}, Chain s bs e →
    ∀ b ∈ bs, s ≤ b.start ∧ b.start + 2 ^ b.order ≤ e
  | [], _, _, _, b, hb => absurd hb List.not_mem_nil
  | c :: bs, s, e, h, b, hb => by
      obtain ⟨hs, hc⟩ := h
      rcases List.mem_cons.mp hb with rfl | hb
      · exact ⟨hs.ge, hc.le⟩
      · have h1 := hc.bounds b hb
        have h2 := Nat.two_pow_pos c.order
        exact ⟨by omega, h1.2⟩

/-- No unit lies in two blocks of a chain. -/
theorem Chain.unique : ∀ {bs : List Block} {s e : ℕ}, Chain s bs e →
    ∀ b ∈ bs, ∀ c ∈ bs, ∀ j, b.Covers j → c.Covers j → b = c
  | [], _, _, _, b, hb, _, _, _, _, _ => absurd hb List.not_mem_nil
  | d :: bs, s, e, h, b, hb, c, hc, j, hbj, hcj => by
      have hbd := h.2.bounds
      unfold Block.Covers at hbj hcj
      rcases List.mem_cons.mp hb with hb | hb <;> rcases List.mem_cons.mp hc with hc | hc
      · rw [hb, hc]
      · have := (hbd c hc).1
        rw [hb] at hbj
        omega
      · have := (hbd b hb).1
        rw [hc] at hcj
        omega
      · exact h.2.unique b hb c hc j hbj hcj

/-- Two blocks of a chain with the same first unit are the same block. -/
theorem Chain.eq_of_start {bs : List Block} {s e : ℕ} (h : Chain s bs e) {b c : Block}
    (hb : b ∈ bs) (hc : c ∈ bs) (hs : b.start = c.start) : b = c := by
  have hp := Nat.two_pow_pos
  refine h.unique b hb c hc b.start ⟨le_refl _, ?_⟩ ⟨hs.ge, ?_⟩
  · have := hp b.order
    omega
  · have := hp c.order
    omega

/-- The states of a region of `2 ^ k` units. -/
inductive BTree : ℕ → Type
  | leaf {k : ℕ} (allocated : Bool) : BTree k
  | node {k : ℕ} (l r : BTree k) : BTree (k + 1)
deriving DecidableEq

namespace BTree

variable {k : ℕ}

/-- The blocks of a tree placed at `off`, in address order. -/
def blocks : {k : ℕ} → BTree k → ℕ → List Block
  | k, leaf a, off => [⟨off, k, a⟩]
  | k + 1, node l r, off => blocks l off ++ blocks r (off + 2 ^ k)

theorem chain_blocks : ∀ {k : ℕ} (t : BTree k) (off : ℕ), Chain off (t.blocks off) (off + 2 ^ k)
  | _, leaf _, _ => ⟨rfl, rfl⟩
  | k + 1, node l r, off => by
      have e : off + 2 ^ (k + 1) = off + 2 ^ k + 2 ^ k := by rw [pow_succ]; omega
      rw [e]
      exact (chain_blocks l off).append (chain_blocks r (off + 2 ^ k))

theorem mem_bounds {t : BTree k} {off : ℕ} {b : Block} (h : b ∈ t.blocks off) :
    off ≤ b.start ∧ b.start + 2 ^ b.order ≤ off + 2 ^ k :=
  (chain_blocks t off).bounds b h

theorem start_lt {t : BTree k} {off : ℕ} {b : Block} (h : b ∈ t.blocks off) :
    b.start < off + 2 ^ k := by
  have h1 := (mem_bounds h).2
  have h2 := Nat.two_pow_pos b.order
  omega

theorem order_le {t : BTree k} {off : ℕ} {b : Block} (h : b ∈ t.blocks off) : b.order ≤ k := by
  have h1 := mem_bounds h
  have h2 : 2 ^ b.order ≤ 2 ^ k := by omega
  exact (Nat.pow_le_pow_iff_right (by norm_num)).mp h2

/-- A block of the order of its region is the whole region. -/
theorem eq_leaf_of_order {t : BTree k} {off : ℕ} {b : Block} (h : b ∈ t.blocks off)
    (ho : b.order = k) : t = leaf b.allocated := by
  cases t with
  | leaf a =>
      simp only [blocks, List.mem_singleton] at h
      rw [h]
  | node l r =>
      rcases List.mem_append.mp h with h | h <;>
      · have := order_le h
        omega

/-- A block of order `j` starts at a multiple of `2 ^ j`. -/
theorem aligned_of_mem : ∀ {k : ℕ} (t : BTree k) (off : ℕ), 2 ^ k ∣ off →
    ∀ b ∈ t.blocks off, 2 ^ b.order ∣ b.start
  | k, leaf a, off, h, b, hb => by
      simp only [blocks, List.mem_singleton] at hb
      rw [hb]
      exact h
  | k + 1, node l r, off, h, b, hb => by
      have hk : 2 ^ k ∣ off := (pow_dvd_pow 2 (Nat.le_succ k)).trans h
      rcases List.mem_append.mp hb with hb | hb
      · exact aligned_of_mem l off hk b hb
      · exact aligned_of_mem r _ (hk.add (dvd_refl _)) b hb

/-- The allocated blocks, by their first unit. -/
def Allocated (t : BTree k) (off i : ℕ) : Prop := ∃ b ∈ t.blocks off, b.allocated = true ∧ b.start = i

theorem allocated_leaf {a : Bool} {off i : ℕ} :
    (leaf a : BTree k).Allocated off i ↔ a = true ∧ off = i := by
  simp [Allocated, blocks]

theorem allocated_node {l r : BTree k} {off i : ℕ} :
    (node l r).Allocated off i ↔ l.Allocated off i ∨ r.Allocated (off + 2 ^ k) i := by
  simp only [Allocated, blocks, List.mem_append]
  constructor
  · rintro ⟨b, hb | hb, h⟩
    · exact Or.inl ⟨b, hb, h⟩
    · exact Or.inr ⟨b, hb, h⟩
  · rintro (⟨b, hb, h⟩ | ⟨b, hb, h⟩)
    · exact ⟨b, Or.inl hb, h⟩
    · exact ⟨b, Or.inr hb, h⟩

theorem Allocated.bounds {t : BTree k} {off i : ℕ} (h : t.Allocated off i) :
    off ≤ i ∧ i < off + 2 ^ k := by
  obtain ⟨b, hb, -, rfl⟩ := h
  exact ⟨(mem_bounds hb).1, start_lt hb⟩

/-! ### Coalescing -/

/-- No two free buddies of equal order coexist. -/
def Coalesced : {k : ℕ} → BTree k → Prop
  | _, leaf _ => True
  | _, node l r => ¬ (l = leaf false ∧ r = leaf false) ∧ Coalesced l ∧ Coalesced r

/-- In a coalesced tree a region without allocated block is one free block. -/
theorem Coalesced.eq_leaf : ∀ {k : ℕ} {t : BTree k} (off : ℕ), t.Coalesced →
    (∀ b ∈ t.blocks off, b.allocated = false) → t = leaf false
  | k, leaf a, off, _, h => by
      have := h ⟨off, k, a⟩ (by simp [blocks])
      rw [show a = false from this]
  | k + 1, node l r, off, hc, h => by
      refine absurd ⟨?_, ?_⟩ hc.1
      · exact hc.2.1.eq_leaf off fun b hb => h b (List.mem_append_left _ hb)
      · exact hc.2.2.eq_leaf (off + 2 ^ k) fun b hb => h b (List.mem_append_right _ hb)

/-- A tree in which some block is allocated is not one free block. -/
theorem Allocated.ne_leaf {t : BTree k} {off i : ℕ} (h : t.Allocated off i) : t ≠ leaf false := by
  rintro rfl
  exact absurd (allocated_leaf.mp h).1 (by decide)

theorem Coalesced.eq_leaf_iff {t : BTree k} (off : ℕ) (hc : t.Coalesced) :
    t = leaf false ↔ ∀ i, ¬ t.Allocated off i := by
  constructor
  · intro h i hi
    exact hi.ne_leaf h
  · intro h
    refine hc.eq_leaf off fun b hb => ?_
    by_contra hb'
    exact h b.start ⟨b, hb, by simpa using hb', rfl⟩

/-- Two free blocks of equal order are never buddies of each other. -/
theorem Coalesced.no_free_buddies : ∀ {k : ℕ} {t : BTree k} {off : ℕ}, t.Coalesced →
    2 ^ k ∣ off → ∀ b ∈ t.blocks off, ∀ c ∈ t.blocks off, b.allocated = false →
    c.allocated = false → b.order = c.order → 2 ^ (b.order + 1) ∣ b.start →
    c.start ≠ b.start + 2 ^ b.order
  | k, leaf a, off, _, _, b, hb, c, hc, _, _, _, _ => by
      simp only [blocks, List.mem_singleton] at hb hc
      subst hb hc
      have := Nat.two_pow_pos k
      simp
  | k + 1, node l r, off, h, hd, b, hb, c, hc, hbf, hcf, ho, hal => by
      have hk : 2 ^ k ∣ off := (pow_dvd_pow 2 (Nat.le_succ k)).trans hd
      intro hs
      rcases List.mem_append.mp hb with hb | hb <;> rcases List.mem_append.mp hc with hc | hc
      · exact h.2.1.no_free_buddies hk b hb c hc hbf hcf ho hal hs
      · have h1 := mem_bounds hb
        have h2 := mem_bounds hc
        have hbk : b.order = k := by
          by_contra hne
          have hlt : b.order + 1 ≤ k := by have := order_le hb; omega
          have hd' : 2 ^ (b.order + 1) ∣ b.start + 2 ^ b.order := by
            rw [show b.start + 2 ^ b.order = off + 2 ^ k by omega]
            exact (pow_dvd_pow 2 hlt).trans (hk.add (dvd_refl _))
          have := Nat.le_of_dvd (Nat.two_pow_pos _) ((Nat.dvd_add_right hal).mp hd')
          have := Nat.two_pow_pos b.order
          rw [pow_succ] at *
          omega
        exact h.1 ⟨by rw [eq_leaf_of_order hb hbk, hbf], by rw [eq_leaf_of_order hc (ho ▸ hbk), hcf]⟩
      · have h1 := mem_bounds hb
        have h2 := mem_bounds hc
        have := Nat.two_pow_pos b.order
        have := Nat.two_pow_pos c.order
        omega
      · exact h.2.2.no_free_buddies (hk.add (dvd_refl _)) b hb c hc hbf hcf ho hal hs

/-! ### Freeing a block -/

/-- Two buddies side by side, merged when both are free. -/
def join (l r : BTree k) : BTree (k + 1) :=
  if l = leaf false ∧ r = leaf false then leaf false else node l r

/-- Free the block at `i` and merge free buddies on the way up. -/
def release (i : ℕ) : {k : ℕ} → BTree k → ℕ → BTree k
  | _, leaf _, _ => leaf false
  | k + 1, node l r, off =>
      if i < off + 2 ^ k then join (release i l off) r else join l (release i r (off + 2 ^ k))

theorem Coalesced.join_eq {l r : BTree k} (h : (node l r).Coalesced) : join l r = node l r := by
  unfold join
  rw [if_neg h.1]

theorem coalesced_join {l r : BTree k} (hl : l.Coalesced) (hr : r.Coalesced) :
    (join l r).Coalesced := by
  unfold join
  split_ifs with h
  · trivial
  · exact ⟨h, hl, hr⟩

theorem allocated_join {l r : BTree k} {off i : ℕ} :
    (join l r).Allocated off i ↔ l.Allocated off i ∨ r.Allocated (off + 2 ^ k) i := by
  unfold join
  split_ifs with h
  · simp [h.1, h.2, allocated_leaf]
  · exact allocated_node

theorem coalesced_release (i : ℕ) : ∀ {k : ℕ} {t : BTree k} {off : ℕ}, t.Coalesced →
    (t.release i off).Coalesced
  | _, leaf _, _, _ => trivial
  | k + 1, node l r, off, h => by
      unfold release
      split_ifs
      · exact coalesced_join (coalesced_release i h.2.1) h.2.2
      · exact coalesced_join h.2.1 (coalesced_release i h.2.2)

/-- Freeing an allocated block takes exactly that block out of the allocated ones. -/
theorem allocated_release (i j : ℕ) : ∀ {k : ℕ} {t : BTree k} {off : ℕ}, t.Allocated off i →
    ((t.release i off).Allocated off j ↔ t.Allocated off j ∧ j ≠ i)
  | _, leaf a, off, h => by
      obtain ⟨rfl, rfl⟩ := allocated_leaf.mp h
      simp only [release, allocated_leaf]
      constructor
      · rintro ⟨h1, -⟩
        exact absurd h1 (by decide)
      · rintro ⟨⟨-, h1⟩, h2⟩
        exact absurd h1.symm h2
  | k + 1, node l r, off, h => by
      rw [allocated_node]
      unfold release
      rcases allocated_node.mp h with hl | hr
      · have hi := hl.bounds.2
        rw [if_pos hi, allocated_join, allocated_release i j hl]
        constructor
        · rintro (h1 | h1)
          · exact ⟨Or.inl h1.1, h1.2⟩
          · exact ⟨Or.inr h1, by have := h1.bounds.1; omega⟩
        · rintro ⟨h1 | h1, h2⟩
          · exact Or.inl ⟨h1, h2⟩
          · exact Or.inr h1
      · have hi := hr.bounds.1
        rw [if_neg (by omega), allocated_join, allocated_release i j hr]
        constructor
        · rintro (h1 | h1)
          · exact ⟨Or.inl h1, by have := h1.bounds.2; omega⟩
          · exact ⟨Or.inr h1.1, h1.2⟩
        · rintro ⟨h1 | h1, h2⟩
          · exact Or.inl h1
          · exact Or.inr ⟨h1, h2⟩

/-! ### Allocating a block -/

/-- A block of order `k` split down to order `o`, the first piece allocated. -/
def carve (o : ℕ) : (k : ℕ) → BTree k
  | 0 => leaf true
  | k + 1 => if k + 1 ≤ o then leaf true else node (carve o k) (leaf false)

/-- Replace the block at `i` by `carve o`. -/
def acquire (o i : ℕ) : {k : ℕ} → BTree k → ℕ → BTree k
  | k, leaf _, _ => carve o k
  | k + 1, node l r, off =>
      if i < off + 2 ^ k then node (acquire o i l off) r else node l (acquire o i r (off + 2 ^ k))

theorem allocated_carve (o i : ℕ) : ∀ (k off : ℕ), (carve o k).Allocated off i ↔ off = i
  | 0, off => by simp [carve, allocated_leaf]
  | k + 1, off => by
      unfold carve
      split_ifs
      · simp [allocated_leaf]
      · rw [allocated_node, allocated_carve o i k off]
        simp [allocated_leaf]

theorem coalesced_carve (o : ℕ) : ∀ (k : ℕ), (carve o k).Coalesced
  | 0 => trivial
  | k + 1 => by
      unfold carve
      split_ifs
      · trivial
      · refine ⟨fun h => ?_, coalesced_carve o k, trivial⟩
        exact ((allocated_carve o 0 k 0).mpr rfl).ne_leaf h.1

/-- The first piece of a split block has the order asked for. -/
theorem mem_carve {o : ℕ} : ∀ {k : ℕ} (off : ℕ), o ≤ k → ⟨off, o, true⟩ ∈ (carve o k).blocks off
  | 0, off, h => by
      have : o = 0 := by omega
      simp [carve, blocks, this]
  | k + 1, off, h => by
      unfold carve
      split_ifs with hk
      · have : o = k + 1 := by omega
        simp [blocks, this]
      · exact List.mem_append_left _ (mem_carve off (by omega))

/-- There is a free block at `i`, of order `j`. -/
def FreeAt (t : BTree k) (off i j : ℕ) : Prop := ⟨i, j, false⟩ ∈ t.blocks off

theorem freeAt_leaf {a : Bool} {off i j : ℕ} :
    (leaf a : BTree k).FreeAt off i j ↔ i = off ∧ j = k ∧ a = false := by
  simp [FreeAt, blocks, eq_comm]

theorem freeAt_node {l r : BTree k} {off i j : ℕ} :
    (node l r).FreeAt off i j ↔ l.FreeAt off i j ∨ r.FreeAt (off + 2 ^ k) i j := by
  simp [FreeAt, blocks]

theorem FreeAt.bounds {t : BTree k} {off i j : ℕ} (h : t.FreeAt off i j) :
    off ≤ i ∧ i < off + 2 ^ k := ⟨(mem_bounds h).1, start_lt h⟩

/-- Allocating in a free block adds exactly that block's first unit to the allocated ones. -/
theorem allocated_acquire (o i j m : ℕ) : ∀ {k : ℕ} {t : BTree k} {off : ℕ}, t.FreeAt off i m →
    ((t.acquire o i off).Allocated off j ↔ t.Allocated off j ∨ j = i)
  | k, leaf a, off, h => by
      obtain ⟨rfl, -, rfl⟩ := freeAt_leaf.mp h
      simp only [acquire, allocated_carve, allocated_leaf]
      constructor
      · intro h1
        exact Or.inr h1.symm
      · rintro (h1 | h1)
        · exact absurd h1.1 (by decide)
        · exact h1.symm
  | k + 1, node l r, off, h => by
      rw [allocated_node]
      unfold acquire
      rcases freeAt_node.mp h with hl | hr
      · rw [if_pos hl.bounds.2, allocated_node, allocated_acquire o i j m hl]
        tauto
      · have := hr.bounds.1
        rw [if_neg (by omega), allocated_node, allocated_acquire o i j m hr]
        tauto

theorem coalesced_acquire (o i m : ℕ) : ∀ {k : ℕ} {t : BTree k} {off : ℕ}, t.FreeAt off i m →
    t.Coalesced → (t.acquire o i off).Coalesced
  | k, leaf _, _, _, _ => coalesced_carve o k
  | k + 1, node l r, off, h, hc => by
      unfold acquire
      rcases freeAt_node.mp h with hl | hr
      · rw [if_pos hl.bounds.2]
        refine ⟨fun h' => ?_, coalesced_acquire o i m hl hc.2.1, hc.2.2⟩
        exact ((allocated_acquire o i i m hl).mpr (Or.inr rfl)).ne_leaf h'.1
      · have := hr.bounds.1
        rw [if_neg (by omega)]
        refine ⟨fun h' => ?_, hc.2.1, coalesced_acquire o i m hr hc.2.2⟩
        exact ((allocated_acquire o i i m hr).mpr (Or.inr rfl)).ne_leaf h'.2

/-- The allocated piece has the order asked for. -/
theorem mem_acquire {o i m : ℕ} (ho : o ≤ m) : ∀ {k : ℕ} {t : BTree k} {off : ℕ},
    t.FreeAt off i m → ⟨i, o, true⟩ ∈ (t.acquire o i off).blocks off
  | k, leaf a, off, h => by
      obtain ⟨rfl, rfl, rfl⟩ := freeAt_leaf.mp h
      exact mem_carve _ ho
  | k + 1, node l r, off, h => by
      unfold acquire
      rcases freeAt_node.mp h with hl | hr
      · rw [if_pos hl.bounds.2]
        exact List.mem_append_left _ (mem_acquire ho hl)
      · have := hr.bounds.1
        rw [if_neg (by omega)]
        exact List.mem_append_right _ (mem_acquire ho hr)

theorem release_carve (o : ℕ) : ∀ (k off : ℕ), (carve o k).release off off = leaf false
  | 0, _ => rfl
  | k + 1, off => by
      have := Nat.two_pow_pos k
      unfold carve
      split_ifs
      · rfl
      · unfold release
        rw [if_pos (by omega), release_carve o k off]
        simp [join]

/-- Freeing what was just allocated gives the tree back. -/
theorem release_acquire (o i m : ℕ) : ∀ {k : ℕ} {t : BTree k} {off : ℕ}, t.FreeAt off i m →
    t.Coalesced → (t.acquire o i off).release i off = t
  | k, leaf a, off, h, _ => by
      obtain ⟨rfl, -, rfl⟩ := freeAt_leaf.mp h
      exact release_carve o k _
  | k + 1, node l r, off, h, hc => by
      unfold acquire
      rcases freeAt_node.mp h with hl | hr
      · have hi := hl.bounds.2
        rw [if_pos hi]
        unfold release
        rw [if_pos hi, release_acquire o i m hl hc.2.1]
        exact hc.join_eq
      · have hi := hr.bounds.1
        rw [if_neg (by omega)]
        unfold release
        rw [if_neg (by omega), release_acquire o i m hr hc.2.2]
        exact hc.join_eq

/-! ### Completeness -/

/-- `[s, s + 2 ^ o)` is an aligned run of units of the region, all of them in free blocks. -/
def FreeRun (t : BTree k) (off o s : ℕ) : Prop :=
  2 ^ o ∣ s ∧ off ≤ s ∧ s + 2 ^ o ≤ off + 2 ^ k ∧
    ∀ j, s ≤ j → j < s + 2 ^ o → ∀ b ∈ t.blocks off, b.Covers j → b.allocated = false

theorem FreeAt.freeRun {t : BTree k} {off i j o : ℕ} (h : t.FreeAt off i j) (hd : 2 ^ k ∣ off)
    (ho : o ≤ j) : t.FreeRun off o i := by
  have hb := mem_bounds h
  have hp : 2 ^ o ≤ 2 ^ j := Nat.pow_le_pow_right (by norm_num) ho
  refine ⟨(pow_dvd_pow 2 ho).trans (aligned_of_mem t off hd _ h), hb.1, by simp at hb; omega, ?_⟩
  intro u h1 h2 b hb' hcov
  rw [(chain_blocks t off).unique b hb' _ h u hcov ⟨h1, by simp; omega⟩]

/-- An aligned free run lies in a free block at least as large: a larger run would be split
over two free buddies. -/
theorem FreeRun.exists_freeAt {o s : ℕ} : ∀ {k : ℕ} (t : BTree k) (off : ℕ), t.FreeRun off o s →
    2 ^ k ∣ off → t.Coalesced → ∃ i j, t.FreeAt off i j ∧ o ≤ j
  | k, leaf a, off, ⟨_, h1, h2, hf⟩, _, _ => by
      have hp := Nat.two_pow_pos o
      have ha : a = false := hf s (le_refl _) (by omega) ⟨off, k, a⟩ (by simp [blocks])
        ⟨h1, by simp; omega⟩
      refine ⟨off, k, freeAt_leaf.mpr ⟨rfl, rfl, ha⟩, ?_⟩
      exact (Nat.pow_le_pow_iff_right (by norm_num)).mp (show 2 ^ o ≤ 2 ^ k by omega)
  | k + 1, node l r, off, ⟨hs, h1, h2, hf⟩, hd, hc => by
      have hp := Nat.two_pow_pos o
      have hk : 2 ^ k ∣ off := (pow_dvd_pow 2 (Nat.le_succ k)).trans hd
      have hsucc : 2 ^ (k + 1) = 2 ^ k + 2 ^ k := by rw [pow_succ]; omega
      rw [hsucc] at h2
      have hfl : ∀ b ∈ l.blocks off, ∀ j, s ≤ j → j < s + 2 ^ o → b.Covers j →
          b.allocated = false := fun b hb j h1 h2 => hf j h1 h2 b (List.mem_append_left _ hb)
      have hfr : ∀ b ∈ r.blocks (off + 2 ^ k), ∀ j, s ≤ j → j < s + 2 ^ o → b.Covers j →
          b.allocated = false := fun b hb j h1 h2 => hf j h1 h2 b (List.mem_append_right _ hb)
      rcases Nat.lt_or_ge k o with ho | ho
      · have hpo : 2 ^ (k + 1) ≤ 2 ^ o := Nat.pow_le_pow_right (by norm_num) ho
        have hcov : ∀ b : Block, b.Covers b.start := fun b =>
          ⟨le_refl _, by have := Nat.two_pow_pos b.order; omega⟩
        refine absurd ⟨?_, ?_⟩ hc.1
        · refine hc.2.1.eq_leaf off fun b hb => ?_
          have h3 := start_lt hb
          have h4 := (mem_bounds hb).1
          exact hfl b hb b.start (by omega) (by omega) (hcov b)
        · refine hc.2.2.eq_leaf (off + 2 ^ k) fun b hb => ?_
          have h3 := start_lt hb
          have h4 := (mem_bounds hb).1
          exact hfr b hb b.start (by omega) (by omega) (hcov b)
      · have hmid : 2 ^ o ∣ off + 2 ^ k := (pow_dvd_pow 2 ho).trans (hk.add (dvd_refl _))
        rcases Nat.lt_or_ge s (off + 2 ^ k) with hlt | hge
        · have hle : s + 2 ^ o ≤ off + 2 ^ k := by
            obtain ⟨p, rfl⟩ := hs
            obtain ⟨q, hq⟩ := hmid
            rw [hq] at hlt ⊢
            have := Nat.lt_of_mul_lt_mul_left hlt
            calc 2 ^ o * p + 2 ^ o = 2 ^ o * (p + 1) := by ring
              _ ≤ 2 ^ o * q := Nat.mul_le_mul_left _ this
          obtain ⟨i, j, h, hj⟩ := FreeRun.exists_freeAt l off
            ⟨hs, h1, hle, fun j h1 h2 b hb => hfl b hb j h1 h2⟩ hk hc.2.1
          exact ⟨i, j, freeAt_node.mpr (Or.inl h), hj⟩
        · obtain ⟨i, j, h, hj⟩ := FreeRun.exists_freeAt r (off + 2 ^ k)
            ⟨hs, hge, by omega, fun j h1 h2 b hb => hfr b hb j h1 h2⟩ (hk.add (dvd_refl _)) hc.2.2
          exact ⟨i, j, freeAt_node.mpr (Or.inr h), hj⟩

/-- A coalesced tree has a free block of order at least `o` iff it has an aligned free run of
`2 ^ o` units. -/
theorem exists_free_block_iff {t : BTree k} {off o : ℕ} (hd : 2 ^ k ∣ off) (hc : t.Coalesced) :
    (∃ i j, t.FreeAt off i j ∧ o ≤ j) ↔ ∃ s, t.FreeRun off o s := by
  constructor
  · rintro ⟨i, j, h, hj⟩
    exact ⟨i, h.freeRun hd hj⟩
  · rintro ⟨s, hs⟩
    exact FreeRun.exists_freeAt t off hs hd hc

end BTree

end Buddy
