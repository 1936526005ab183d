import Mathlib.Algebra.Order.Group.Multiset
import Mathlib.Algebra.BigOperators.Group.Multiset.Basic
import Bionic.Dlmalloc

/-! # What keeps the heap in order

A segment is a sequence of chunks without gaps (`Frag`): each head has the size of its chunk and the bits of the chunk and of
the one before it, behind each free chunk stands its size, and no two free chunks follow each other.  The chunks of `dv` and of
the bins are the free ones, and `top` is what follows the chunks of one of the segments. -/

namespace Bionic.Dlmalloc

structure Block where
  size : ℕ
  inuse : Bool
deriving DecidableEq, Repr

/-- The sum of the sizes. -/
def total : List Block → ℕ
  | [] => 0
  | b :: bs => b.size + total bs

/-- The chunks from `a` to `e`.  `pin` tells whether what is in front of them is in use, and `pout` whether the last is. -/
def Frag (head : ℕ → Head) (foot : ℕ → ℕ) : ℕ → Bool → List Block → ℕ → Bool → Prop
  | a, pin, [], e, pout => a = e ∧ pin = pout
  | a, pin, b :: bs, e, pout =>
    head a = ⟨b.size, pin, b.inuse⟩ ∧ MIN_CHUNK_SIZE ≤ b.size ∧ b.size % 8 = 0 ∧
      (b.inuse = false → pin = true ∧ foot (a + b.size) = b.size) ∧ Frag head foot (a + b.size) b.inuse bs e pout

/-- The chunks that are in use, or those that are free, with their sizes. -/
def blocksOf (inuse : Bool) : ℕ → List Block → Multiset (ℕ × ℕ)
  | _, [] => 0
  | a, b :: bs => (if b.inuse = inuse then {(a, b.size)} else 0) + blocksOf inuse (a + b.size) bs

section Frag

variable {head head' : ℕ → Head} {foot foot' : ℕ → ℕ} {a e m p n : ℕ} {pin pout k : Bool} {l r bs : List Block}

@[simp] theorem total_nil : total [] = 0 := rfl

@[simp] theorem total_cons (b : Block) (bs : List Block) : total (b :: bs) = b.size + total bs := rfl

@[simp] theorem total_append (l r : List Block) : total (l ++ r) = total l + total r := by
  induction l with
  | nil => simp
  | cons b bs ih => simp [ih, Nat.add_assoc]

@[simp] theorem blocksOf_nil : blocksOf k a [] = 0 := rfl

theorem blocksOf_append : blocksOf k a (l ++ r) = blocksOf k a l + blocksOf k (a + total l) r := by
  induction l generalizing a with
  | nil => simp
  | cons b bs ih => simp only [List.cons_append, blocksOf, ih, total_cons, add_assoc]

theorem Frag.end_eq (h : Frag head foot a pin bs e pout) : e = a + total bs := by
  induction bs generalizing a pin with
  | nil => exact h.1.symm
  | cons b bs ih =>
    rw [ih h.2.2.2.2, total_cons]
    omega

theorem frag_append : Frag head foot a pin (l ++ r) e pout ↔
    ∃ pm, Frag head foot a pin l (a + total l) pm ∧ Frag head foot (a + total l) pm r e pout := by
  induction l generalizing a pin with
  | nil => simp [Frag]
  | cons b bs ih =>
    simp only [List.cons_append, Frag, ih, total_cons, Nat.add_assoc]
    constructor
    · rintro ⟨h₁, h₂, h₃, h₄, pm, hl, hr⟩
      exact ⟨pm, ⟨h₁, h₂, h₃, h₄, hl⟩, hr⟩
    · rintro ⟨pm, ⟨h₁, h₂, h₃, h₄, hl⟩, hr⟩
      exact ⟨h₁, h₂, h₃, h₄, pm, hl, hr⟩

/-- Chunks depend on the heads within them, and on the sizes behind them. -/
theorem Frag.congr (h : Frag head foot a pin bs e pout) (hhead : ∀ x, a ≤ x → x < e → head' x = head x)
    (hfoot : ∀ x, a < x → x ≤ e → foot' x = foot x) : Frag head' foot' a pin bs e pout := by
  induction bs generalizing a pin with
  | nil => exact h
  | cons b bs ih =>
    have hend := h.end_eq
    rw [total_cons] at hend
    obtain ⟨h₁, h₂, h₃, h₄, hrest⟩ := h
    have hpos : 0 < b.size := lt_of_lt_of_le (by decide) h₂
    refine ⟨?_, h₂, h₃, ?_, ih hrest (fun x hx hx' => hhead x (by omega) hx') (fun x hx hx' => hfoot x (by omega) hx')⟩
    · rw [hhead a le_rfl (by omega), h₁]
    · intro hb
      rw [hfoot _ (by omega) (by omega)]
      exact h₄ hb

/-- Where the last chunk is in use, nothing is read behind the end. -/
theorem Frag.congr_inuse (h : Frag head foot a pin bs e true) (hhead : ∀ x, a ≤ x → x < e → head' x = head x)
    (hfoot : ∀ x, a < x → x < e → foot' x = foot x) : Frag head' foot' a pin bs e true := by
  induction bs generalizing a pin with
  | nil => exact h
  | cons b bs ih =>
    have hend := h.end_eq
    rw [total_cons] at hend
    obtain ⟨h₁, h₂, h₃, h₄, hrest⟩ := h
    have hpos : 0 < b.size := lt_of_lt_of_le (by decide) h₂
    refine ⟨?_, h₂, h₃, ?_, ih hrest (fun x hx hx' => hhead x (by omega) hx') (fun x hx hx' => hfoot x (by omega) hx')⟩
    · rw [hhead a le_rfl (by omega), h₁]
    · intro hb
      obtain ⟨hp, hf⟩ := h₄ hb
      refine ⟨hp, ?_⟩
      rw [hfoot _ (by omega) ?_, hf]
      cases bs with
      | nil =>
        rw [hb] at hrest
        cases hrest.2
      | cons c cs =>
        have : MIN_CHUNK_SIZE ≤ c.size := hrest.2.1
        have : 0 < MIN_CHUNK_SIZE := by decide
        rw [total_cons] at hend
        omega

/-- The bit of the chunk in front of a chunk that is in use. -/
theorem Frag.reseam (h : Frag head foot a pin bs e pout) {pin' : Bool} (hfirst : ∀ b ∈ bs.head?, b.inuse = true)
    (hnil : bs = [] → pin' = pin) (hat : bs ≠ [] → head' a = { head a with pinuse := pin' })
    (hhead : ∀ x, a < x → x < e → head' x = head x) (hfoot : ∀ x, a < x → x ≤ e → foot' x = foot x) :
    Frag head' foot' a pin' bs e pout := by
  cases bs with
  | nil =>
    rw [hnil rfl]
    exact h
  | cons b bs =>
    have hend := h.end_eq
    rw [total_cons] at hend
    obtain ⟨h₁, h₂, h₃, -, hrest⟩ := h
    have hpos : 0 < b.size := lt_of_lt_of_le (by decide) h₂
    have hb : b.inuse = true := hfirst b rfl
    refine ⟨?_, h₂, h₃, fun hb' => ?_, hrest.congr (fun x hx hx' => hhead x (by omega) hx') fun x hx hx' => hfoot x (by omega) hx'⟩
    · rw [hat (by simp), h₁]
    · rw [hb] at hb'
      cases hb'

/-- A chunk in use comes first behind a free one. -/
theorem Frag.first_inuse (h : Frag head foot a false bs e pout) : ∀ b ∈ bs.head?, b.inuse = true := by
  intro b hb
  cases bs with
  | nil => cases hb
  | cons c cs =>
    cases hb
    by_contra hfree
    exact absurd (h.2.2.2.1 (Bool.eq_false_iff.mpr hfree)).1 (by simp)

theorem blocksOf_range : ∀ c ∈ blocksOf k a bs, a ≤ c.1 ∧ c.1 + c.2 ≤ a + total bs := by
  induction bs generalizing a with
  | nil => exact fun c hc => absurd hc (Multiset.notMem_zero c)
  | cons b bs ih =>
    intro c hc
    rw [blocksOf, Multiset.mem_add] at hc
    rcases hc with hc | hc
    · split_ifs at hc
      · rw [Multiset.mem_singleton] at hc
        subst hc
        simp
      · exact absurd hc (Multiset.notMem_zero c)
    · have := ih c hc
      rw [total_cons]
      omega

/-- A chunk with those in front of it and behind it. -/
theorem exists_split {c : ℕ × ℕ} (hc : c ∈ blocksOf k a bs) :
    ∃ l r, bs = l ++ ⟨c.2, k⟩ :: r ∧ c.1 = a + total l := by
  induction bs generalizing a with
  | nil => exact absurd hc (Multiset.notMem_zero c)
  | cons b bs ih =>
    rw [blocksOf, Multiset.mem_add] at hc
    rcases hc with hc | hc
    · split_ifs at hc with hk
      · rw [Multiset.mem_singleton] at hc
        subst hc
        exact ⟨[], bs, by rw [← hk]; rfl, by simp⟩
      · exact absurd hc (Multiset.notMem_zero c)
    · obtain ⟨l, r, rfl, hat⟩ := ih hc
      exact ⟨b :: l, r, rfl, by rw [hat, total_cons]; omega⟩

/-- Chunks changed between two others; the chunk behind them keeps its bit. -/
theorem Frag.join {M : List Block} {q : ℕ} {pm pq : Bool} (hl : Frag head foot a pin l p pm) (hm : Frag head' foot' p pm M q pq)
    (hr : Frag head foot q pq r e true) (hhead : ∀ x, x < p ∨ q ≤ x → head' x = head x)
    (hfoot : ∀ x, x ≤ p ∨ q < x → foot' x = foot x) : Frag head' foot' a pin (l ++ (M ++ r)) e true := by
  have hlp := hl.end_eq
  have hmq := hm.end_eq
  refine frag_append.mpr ⟨pm, ?_, frag_append.mpr ⟨pq, ?_, ?_⟩⟩
  · rw [← hlp]
    exact hl.congr (fun x _ hx => hhead x (.inl hx)) fun x _ hx => hfoot x (.inl hx)
  · rw [← hlp, ← hmq]
    exact hm
  · rw [← hlp, ← hmq]
    exact hr.congr_inuse (fun x hx _ => hhead x (.inr hx)) fun x hx _ => hfoot x (.inr hx)

/-- Chunks changed between two others, with the bit in the chunk behind them, which is in use. -/
theorem Frag.join_seam {M : List Block} {q : ℕ} {pm pq pq' : Bool} (hl : Frag head foot a pin l p pm)
    (hm : Frag head' foot' p pm M q pq') (hr : Frag head foot q pq r e true) (hne : r ≠ []) (hfirst : ∀ b ∈ r.head?, b.inuse = true)
    (hat : head' q = { head q with pinuse := pq' }) (hhead : ∀ x, x < p ∨ q < x → head' x = head x)
    (hfoot : ∀ x, x ≤ p ∨ q < x → foot' x = foot x) : Frag head' foot' a pin (l ++ (M ++ r)) e true := by
  have hlp := hl.end_eq
  have hmq := hm.end_eq
  refine frag_append.mpr ⟨pm, ?_, frag_append.mpr ⟨pq', ?_, ?_⟩⟩
  · rw [← hlp]
    exact hl.congr (fun x _ hx => hhead x (.inl hx)) fun x _ hx => hfoot x (.inl hx)
  · rw [← hlp, ← hmq]
    exact hm
  · rw [← hlp, ← hmq]
    exact hr.reseam hfirst (fun h => absurd h hne) (fun _ => hat) (fun x hx _ => hhead x (.inr hx))
      fun x hx _ => hfoot x (.inr hx)

end Frag

/-! ### Bins -/

/-- The chunks of a small bin. -/
def smallChunks (smallbins : ℕ → List ℕ) (smallmap : BitVec 32) (i : ℕ) : Multiset (ℕ × ℕ) :=
  if smallmap.getLsbD i then ((smallbins i).map (·, 8 * i) : List (ℕ × ℕ)) else 0

/-- The chunks of all bins are `C`. -/
def Binned (s : State) (C : Multiset (ℕ × ℕ)) : Prop :=
  ∃ T, s.trees.Inv T ∧ ∑ i ∈ Finset.range 32, smallChunks s.smallbins s.smallmap i + T = C ∧
    ∀ i < 32, s.smallmap.getLsbD i = true → s.smallbins i ≠ []

section Bins

variable {s : State} {C : Multiset (ℕ × ℕ)} {p n i : ℕ}

theorem mem_smallChunks {c : ℕ × ℕ} {bins : ℕ → List ℕ} {map : BitVec 32} :
    c ∈ smallChunks bins map i ↔ map.getLsbD i = true ∧ c.1 ∈ bins i ∧ c.2 = 8 * i := by
  rw [smallChunks]
  split_ifs with h
  · rw [Multiset.mem_coe, List.mem_map]
    constructor
    · rintro ⟨a, ha, rfl⟩
      exact ⟨h, ha, rfl⟩
    · rintro ⟨-, ha, hc⟩
      exact ⟨c.1, ha, by rw [← hc]⟩
  · simp [h]

theorem smallmapIsMarked_iff (hi : i < 32) : s.smallmapIsMarked i = true ↔ s.smallmap.getLsbD i = true := by
  rw [State.smallmapIsMarked, decide_eq_true_eq, idx2bit, WordBits.and_bit_ne_zero _ hi]

/-- A small bin has changed: it had the chunks `D` that it has no more, and has the chunks `D'` now. -/
theorem Binned.update_small (h : Binned s C) (hi : i < 32) {b : List ℕ} {w : BitVec 32} {D D' C' : Multiset (ℕ × ℕ)}
    (hmap : ∀ j, j ≠ i → w.getLsbD j = s.smallmap.getLsbD j) (hne : w.getLsbD i = true → b ≠ [])
    (hown : smallChunks (Function.update s.smallbins i b) w i + D = smallChunks s.smallbins s.smallmap i + D')
    (hC' : C' + D = C + D') :
    Binned { s with smallbins := Function.update s.smallbins i b, smallmap := w } C' := by
  obtain ⟨T, hT, hC, hmarked⟩ := h
  refine ⟨T, hT, ?_, fun j hj hbit => ?_⟩
  · have hmem := Finset.mem_range.mpr hi
    have hrest : ∑ j ∈ (Finset.range 32).erase i, smallChunks (Function.update s.smallbins i b) w j =
        ∑ j ∈ (Finset.range 32).erase i, smallChunks s.smallbins s.smallmap j :=
      Finset.sum_congr rfl fun j hj => by
        have hji := Finset.ne_of_mem_erase hj
        rw [smallChunks, smallChunks, Function.update_of_ne hji, hmap j hji]
    rw [← Finset.add_sum_erase _ _ hmem] at hC ⊢
    dsimp only
    rw [hrest]
    refine add_right_cancel (b := D) ?_
    rw [hC', ← hC]
    generalize ∑ j ∈ (Finset.range 32).erase i, smallChunks s.smallbins s.smallmap j = rest
    calc smallChunks (Function.update s.smallbins i b) w i + rest + T + D
        = smallChunks (Function.update s.smallbins i b) w i + D + (rest + T) := by abel
      _ = smallChunks s.smallbins s.smallmap i + D' + (rest + T) := by rw [hown]
      _ = smallChunks s.smallbins s.smallmap i + rest + T + D' := by abel
  · dsimp only at hbit ⊢
    by_cases hji : j = i
    · rw [hji, Function.update_self]
      exact hne (hji ▸ hbit)
    · rw [Function.update_of_ne hji]
      exact hmarked j hj (hmap j hji ▸ hbit)

theorem insertSmallChunk_binned (h : Binned s C) (hn : n < 256) (hn8 : n % 8 = 0) :
    Binned (s.insertSmallChunk p n) ((p, n) ::ₘ C) := by
  have hi : n / 8 < 32 := by omega
  have h8 : 8 * (n / 8) = n := by omega
  have hC' : (p, n) ::ₘ C + 0 = C + {(p, n)} := by rw [add_zero, add_comm, Multiset.singleton_add]
  unfold State.insertSmallChunk
  dsimp only
  split_ifs with hm
  · have hbit := (smallmapIsMarked_iff hi).mp hm
    refine h.update_small hi (fun _ _ => rfl) (fun _ => by simp) ?_ hC'
    rw [smallChunks, smallChunks, if_pos hbit, if_pos hbit, Function.update_self, List.map_cons, h8, add_zero,
      add_comm, Multiset.singleton_add]
    rfl
  · have hbit : s.smallmap.getLsbD (n / 8) = false := Bool.eq_false_iff.mpr fun hb => hm ((smallmapIsMarked_iff hi).mpr hb)
    have hmap (j : ℕ) : (s.smallmap ||| idx2bit (n / 8)).getLsbD j = (s.smallmap.getLsbD j || decide (n / 8 = j)) :=
      WordBits.getLsbD_or_bit _ hi
    refine h.update_small hi (fun j hj => ?_) (fun _ => by simp) ?_ hC'
    · rw [hmap]
      simp [Ne.symm hj]
    · rw [smallChunks, smallChunks, hmap, hbit, Function.update_self]
      simp [h8]

/-- The only chunk of a bin, or one of several. -/
theorem unlinkSmallChunk_binned (h : Binned s ((p, n) ::ₘ C)) (hi : i < 32) (hp : (p, n) ∈ smallChunks s.smallbins s.smallmap i) :
    Binned (s.unlinkSmallChunk p i) C := by
  obtain ⟨hbit, hmem, hn⟩ := mem_smallChunks.mp hp
  dsimp only at hmem hn
  subst hn
  have hC' : C + {(p, 8 * i)} = (p, 8 * i) ::ₘ C + 0 := by rw [add_zero, add_comm, Multiset.singleton_add]
  unfold State.unlinkSmallChunk
  split_ifs with hone
  · have hclear (j : ℕ) (hj : j < 32) : (s.smallmap &&& ~~~idx2bit i).getLsbD j = (s.smallmap.getLsbD j && !decide (i = j)) :=
      WordBits.getLsbD_and_not_bit _ hi hj
    have hself : s.smallbins = Function.update s.smallbins i (s.smallbins i) := (Function.update_eq_self i s.smallbins).symm
    have hupd := h.update_small (b := s.smallbins i) (w := s.smallmap &&& ~~~idx2bit i) hi (fun j hj => ?_) (fun hb => ?_) ?_ hC'
    · rwa [← hself] at hupd
    · by_cases hj32 : j < 32
      · rw [hclear j hj32]
        simp [Ne.symm hj]
      · rw [BitVec.getLsbD_of_ge _ _ (not_lt.mp hj32), BitVec.getLsbD_of_ge _ _ (not_lt.mp hj32)]
    · rw [hclear i hi] at hb
      simp at hb
    · rw [smallChunks, smallChunks, hclear i hi, if_pos hbit, hone]
      simp
  · refine h.update_small (b := (s.smallbins i).erase p) (w := s.smallmap) hi (fun _ _ => rfl) (fun _ hnil => hone ?_) ?_ hC'
    · have hperm := List.perm_cons_erase hmem
      rw [hnil] at hperm
      exact List.perm_singleton.mp hperm
    · rw [smallChunks, smallChunks, if_pos hbit, if_pos hbit, Function.update_self, add_zero, add_comm, Multiset.singleton_add]
      exact Multiset.coe_eq_coe.mpr ((List.perm_cons_erase hmem).map (·, 8 * i)).symm

theorem unlinkChunk_binned (h : Binned s ((p, n) ::ₘ C)) : Binned (s.unlinkChunk p n) C := by
  have hwhole := h
  obtain ⟨T, hT, hC, hmarked⟩ := h
  have hmem : (p, n) ∈ ∑ i ∈ Finset.range 32, smallChunks s.smallbins s.smallmap i + T := hC ▸ Multiset.mem_cons_self _ _
  unfold State.unlinkChunk
  split_ifs with hsmall
  · have hlt : n / 8 < 32 := by simpa [isSmall] using hsmall
    rcases Multiset.mem_add.mp hmem with hmem | hmem
    · obtain ⟨i, hi, hmem⟩ := Multiset.mem_sum.mp hmem
      obtain ⟨-, -, hn⟩ := mem_smallChunks.mp hmem
      dsimp only at hn
      rw [show n / 8 = i by omega]
      exact unlinkSmallChunk_binned hwhole (Finset.mem_range.mp hi) hmem
    · have := (hT.large _ hmem).1
      dsimp only at this
      omega
  · have hge : ¬ n / 8 < 32 := by simpa [isSmall] using hsmall
    rcases Multiset.mem_add.mp hmem with hmem | hmem
    · obtain ⟨i, hi, hmem⟩ := Multiset.mem_sum.mp hmem
      obtain ⟨-, -, hn⟩ := mem_smallChunks.mp hmem
      have := Finset.mem_range.mp hi
      dsimp only at hn
      omega
    · obtain ⟨T', rfl⟩ := Multiset.exists_cons_of_mem hmem
      refine ⟨T', TreeBins.unlink_inv hT, ?_, hmarked⟩
      rw [Multiset.add_cons] at hC
      exact (Multiset.cons_inj_right _).mp hC

theorem insertChunk_binned (h : Binned s C) (hn : n < 2 ^ 32) (hn8 : n % 8 = 0) (hp : p ∉ C.map Prod.fst) :
    Binned (s.insertChunk p n) ((p, n) ::ₘ C) := by
  unfold State.insertChunk
  split_ifs with hsmall
  · refine insertSmallChunk_binned h ?_ hn8
    have : n / 8 < 32 := by simpa [isSmall] using hsmall
    omega
  · have hlarge : ¬ n / 8 < 32 := by simpa [isSmall] using hsmall
    obtain ⟨T, hT, hC, hmarked⟩ := h
    refine ⟨_, TreeBins.insert_inv hT (by omega) hn (fun hmem => hp ?_), ?_, hmarked⟩
    · rw [← hC, Multiset.map_add]
      exact Multiset.mem_add.mpr (.inr hmem)
    · rw [Multiset.add_cons]
      exact congrArg _ hC

end Bins

/-! ### Segments -/

/-- A segment with the chunks in it. -/
structure Region where
  seg : Segment
  blocks : List Block

namespace Region

def stop (R : Region) : ℕ := R.seg.base + total R.blocks

def fin (R : Region) : ℕ := R.seg.base + R.seg.size

/-- The chunks of a segment are in order; there is some room behind them. -/
structure Ok (head : ℕ → Head) (foot : ℕ → ℕ) (R : Region) : Prop where
  frag : Frag head foot R.seg.base true R.blocks R.stop true
  room : R.stop + 8 ≤ R.fin
  low : 8 ≤ R.seg.base
  high : R.fin ≤ 2 ^ 32
  aligned : R.seg.base % 8 = 0 ∧ R.seg.size % 8 = 0

/-- The chunk `top` follows the chunks of the segment. -/
structure HasTop (s : State) (R : Region) : Prop where
  stop : R.stop = s.top
  fin : s.top + s.topsize + TOP_FOOT_SIZE = R.fin
  head : s.head s.top = ⟨s.topsize, true, false⟩
  pos : 0 < s.topsize

end Region

def Segment.Apart (a b : Segment) : Prop := a.base + a.size ≤ b.base ∨ b.base + b.size ≤ a.base

/-- The chunks in use, or the free ones. -/
def chunksOf (k : Bool) (regions : List Region) : Multiset (ℕ × ℕ) :=
  (regions.map fun R => blocksOf k R.seg.base R.blocks).sum

/-- A chunk with a mapping of its own. -/
structure Direct (s : State) (c : ℕ × ℕ) : Prop where
  head : s.head c.1 = ⟨c.2, false, true⟩
  foot : s.prevFoot c.1 = 1
  low : 8 ≤ c.1
  aligned : c.1 % 8 = 0
  high : c.1 + c.2 + MMAP_FOOT_PAD ≤ 2 ^ 32
  apart (sp : Segment) : sp ∈ s.seg → c.1 + c.2 + MMAP_FOOT_PAD ≤ sp.base ∨ sp.base + sp.size ≤ c.1

def DirectApart (c d : ℕ × ℕ) : Prop := c.1 + c.2 + MMAP_FOOT_PAD ≤ d.1 ∨ d.1 + d.2 + MMAP_FOOT_PAD ≤ c.1

/-- A segment ends with `top`, or with one of the chunks that have been taken for the records of segments. -/
def Region.Closed (top : ℕ) (records : Multiset (ℕ × ℕ)) (R : Region) : Prop :=
  R.stop = top ∨ ∃ l, R.blocks = l ++ [⟨SEGMENT_SIZE, true⟩] ∧ (R.seg.base + total l, SEGMENT_SIZE) ∈ records

/-- The memory of the heap, whatever is in the bins. -/
structure Heap (s : State) (regions : List Region) (records : Multiset (ℕ × ℕ)) (direct : List (ℕ × ℕ)) : Prop where
  seg : regions.map Region.seg = s.seg
  apart : s.seg.Pairwise Segment.Apart
  ok (R : Region) : R ∈ regions → R.Ok s.head s.prevFoot
  top : s.top = 0 ∧ s.topsize = 0 ∧ regions = [] ∨ ∃ R ∈ regions, R.HasTop s
  first (R : Region) : R ∈ regions.head? → R.stop = s.top
  closed (R : Region) : R ∈ regions → R.Closed s.top records
  least (R : Region) : R ∈ regions → s.leastAddr ≤ R.seg.base
  /-- Mapped segments are made of whole pages, and only where `MORECORE` has failed before. -/
  paged (R : Region) : R ∈ regions → R.seg.mmapped = true → s.contiguous = false ∧ R.seg.size % PAGE_SIZE = 0
  mapped (c : ℕ × ℕ) : c ∈ direct → Direct s c
  mappedApart : direct.Pairwise DirectApart

section Heap

variable {s s' : State} {R R' : Region} {A B regions : List Region} {direct : List (ℕ × ℕ)}
  {records : Multiset (ℕ × ℕ)} {k : Bool} {bs : List Block}

theorem mem_middle {α : Type} {x y : α} {l r : List α} : x ∈ l ++ y :: r ↔ x = y ∨ x ∈ l ∨ x ∈ r := by
  rw [List.perm_middle.mem_iff, List.mem_cons, List.mem_append]

theorem chunksOf_nil : chunksOf k [] = 0 := rfl

theorem chunksOf_cons : chunksOf k (R :: A) = blocksOf k R.seg.base R.blocks + chunksOf k A := by
  rw [chunksOf, List.map_cons, List.sum_cons]
  rfl

theorem chunksOf_middle : chunksOf k (A ++ R :: B) = blocksOf k R.seg.base R.blocks + (chunksOf k A + chunksOf k B) := by
  induction A with
  | nil => rw [List.nil_append, chunksOf_cons, chunksOf_nil, zero_add]
  | cons R' A ih =>
    rw [List.cons_append, chunksOf_cons, ih, chunksOf_cons]
    abel

theorem mem_chunksOf {c : ℕ × ℕ} : c ∈ chunksOf k regions ↔ ∃ R ∈ regions, c ∈ blocksOf k R.seg.base R.blocks := by
  induction regions with
  | nil => simp [chunksOf_nil]
  | cons R rest ih => rw [chunksOf_cons, Multiset.mem_add, ih, List.exists_mem_cons_iff]

/-- A chunk with its segment and what is in front of it and behind it. -/
theorem exists_region_split {c : ℕ × ℕ} (hc : c ∈ chunksOf k regions) :
    ∃ A R B l r, regions = A ++ R :: B ∧ R.blocks = l ++ ⟨c.2, k⟩ :: r ∧ c.1 = R.seg.base + total l := by
  obtain ⟨R, hR, hmem⟩ := mem_chunksOf.mp hc
  obtain ⟨A, B, rfl⟩ := List.append_of_mem hR
  obtain ⟨l, r, hblocks, hat⟩ := exists_split hmem
  exact ⟨A, R, B, l, r, rfl, hblocks, hat⟩

/-- The other segments do not meet this one. -/
theorem Heap.apart_middle (h : Heap s (A ++ R :: B) records direct) (R' : Region) (hR' : R' ∈ A ∨ R' ∈ B) :
    R'.seg.Apart R.seg := by
  have hpair := h.apart
  rw [← h.seg, List.map_append, List.map_cons, List.pairwise_append, List.pairwise_cons] at hpair
  rcases hR' with hA | hB
  · exact hpair.2.2 _ (List.mem_map_of_mem hA) _ List.mem_cons_self
  · exact (hpair.2.1.1 _ (List.mem_map_of_mem hB)).symm

/-- An address is in one of them only. -/
theorem Segment.Apart.holds {sp sq : Segment} (h : sp.Apart sq) {a : ℕ} (ha : State.segmentHolds sp a = true) :
    State.segmentHolds sq a = false := by
  unfold Segment.Apart at h
  simp only [State.segmentHolds, decide_eq_true_eq, decide_eq_false_iff_not] at *
  omega

theorem Region.Ok.size_le {head : ℕ → Head} {foot : ℕ → ℕ} (h : R.Ok head foot) : total R.blocks + 8 ≤ R.seg.size := by
  have hroom := h.room
  unfold Region.stop Region.fin at hroom
  omega

theorem Region.Ok.holds_stop {head : ℕ → Head} {foot : ℕ → ℕ} (h : R.Ok head foot) :
    State.segmentHolds R.seg R.stop = true := by
  have hsize := h.size_le
  have hstop : R.stop = R.seg.base + total R.blocks := rfl
  simp only [State.segmentHolds, decide_eq_true_eq]
  omega

theorem Region.Ok.inside {head : ℕ → Head} {foot : ℕ → ℕ} (h : R.Ok head foot) {c : ℕ × ℕ}
    (hc : c ∈ blocksOf k R.seg.base R.blocks) : R.seg.base ≤ c.1 ∧ c.1 + c.2 + 8 ≤ R.seg.base + R.seg.size := by
  have hrange := blocksOf_range c hc
  have hsize := h.size_le
  omega

theorem Region.Ok.congr {head head' : ℕ → Head} {foot foot' : ℕ → ℕ} (h : R.Ok head foot)
    (hhead : ∀ x, R.seg.base ≤ x → x < R.fin → head' x = head x) (hfoot : ∀ x, R.seg.base < x → x < R.fin → foot' x = foot x) :
    R.Ok head' foot' := by
  have := h.room
  exact ⟨h.frag.congr_inuse (fun x hx hx' => hhead x hx (by omega)) fun x hx hx' => hfoot x hx (by omega), h.room, h.low, h.high,
    h.aligned⟩

theorem Region.HasTop.congr (h : R.HasTop s) (htop : s'.top = s.top ∧ s'.topsize = s.topsize)
    (hhead : s'.head s.top = s.head s.top) : R.HasTop s' :=
  ⟨by rw [htop.1, h.stop], by rw [htop.1, htop.2, h.fin], by rw [htop.1, htop.2, hhead, h.head], by rw [htop.2]; exact h.pos⟩

theorem Direct.congr {c : ℕ × ℕ} (h : Direct s c) (hhead : s'.head c.1 = s.head c.1) (hfoot : s'.prevFoot c.1 = s.prevFoot c.1)
    (hapart : ∀ sp ∈ s'.seg, c.1 + c.2 + MMAP_FOOT_PAD ≤ sp.base ∨ sp.base + sp.size ≤ c.1) : Direct s' c :=
  ⟨by rw [hhead, h.head], by rw [hfoot, h.foot], h.low, h.aligned, h.high, hapart⟩

/-- Two segments that do not meet do not have `top` both. -/
theorem Heap.stop_ne_top (h : Heap s (A ++ R :: B) records direct) (hstop : R.stop = s.top) {Q : Region} (hQ : Q ∈ A ∨ Q ∈ B) :
    Q.stop ≠ s.top := by
  intro hstop'
  have hin := (h.ok Q (mem_middle.mpr (.inr hQ))).holds_stop
  rw [hstop', ← hstop] at hin
  have hout := (h.apart_middle Q hQ).holds hin
  rw [(h.ok R (by simp)).holds_stop] at hout
  exact absurd hout (by decide)

/-- `top` is in the segment that holds it. -/
theorem Heap.hasTop (h : Heap s (A ++ R :: B) records direct) (hlo : R.seg.base ≤ s.top) (hhi : s.top < R.fin) : R.HasTop s := by
  rcases h.top with ⟨-, -, hnil⟩ | ⟨Q, hQ, hhas⟩
  · simp at hnil
  · by_cases hQR : Q = R
    · rwa [hQR] at hhas
    · exfalso
      have hin := (h.ok Q hQ).holds_stop
      rw [hhas.stop] at hin
      have hout := (h.apart_middle Q ((mem_middle.mp hQ).resolve_left hQR)).holds hin
      simp only [State.segmentHolds, decide_eq_false_iff_not] at hout
      exact hout ⟨hlo, hhi⟩

/-- One segment has changed, and has grown into memory that nothing else has. -/
theorem Heap.regrow (h : Heap s (A ++ R :: B) records direct)
    (hhead : ∀ x, x < R'.seg.base ∨ R'.fin ≤ x → s'.head x = s.head x)
    (hfoot : ∀ x, x ≤ R'.seg.base ∨ R'.fin ≤ x → s'.prevFoot x = s.prevFoot x)
    (hseg : s'.seg = A.map Region.seg ++ R'.seg :: B.map Region.seg)
    (hapart : ∀ Q, Q ∈ A ∨ Q ∈ B → Q.seg.Apart R'.seg)
    (hdirect : ∀ c ∈ direct, c.1 + c.2 + MMAP_FOOT_PAD ≤ R'.seg.base ∨ R'.fin ≤ c.1)
    (hleast : s'.leastAddr ≤ s.leastAddr ∧ s'.leastAddr ≤ R'.seg.base)
    (hpaged : s'.contiguous = s.contiguous ∧ (R'.seg.mmapped = true → R.seg.mmapped = true ∧ R'.seg.size % PAGE_SIZE = 0))
    (hok : R'.Ok s'.head s'.prevFoot) (hclosed : R'.Closed s'.top records)
    (htop : s'.top = s.top ∧ s'.topsize = s.topsize ∧ (R.HasTop s → R'.HasTop s') ∨ R.stop = s.top ∧ R'.HasTop s') :
    Heap s' (A ++ R' :: B) records direct := by
  have hfin : R'.fin = R'.seg.base + R'.seg.size := rfl
  have hmem (Q : Region) (hQ : Q ∈ A ∨ Q ∈ B) : Q ∈ A ++ R :: B := mem_middle.mpr (.inr hQ)
  have hcases (Q : Region) (hQ : Q ∈ A ++ R' :: B) : Q = R' ∨ Q ∈ A ∨ Q ∈ B := mem_middle.mp hQ
  have outside (Q : Region) (hQ : Q ∈ A ∨ Q ∈ B) (x : ℕ) (hx : Q.seg.base ≤ x) (hx' : x < Q.fin) :
      x < R'.seg.base ∨ R'.fin ≤ x := by
    have := hapart Q hQ
    unfold Segment.Apart at this
    have hfin' : Q.fin = Q.seg.base + Q.seg.size := rfl
    omega
  constructor
  · rw [hseg]
    simp
  · rw [hseg]
    have hpair := h.apart
    rw [← h.seg, List.map_append, List.map_cons, List.pairwise_append, List.pairwise_cons] at hpair
    obtain ⟨hA, ⟨-, hB⟩, hAB⟩ := hpair
    refine List.pairwise_append.mpr ⟨hA, List.pairwise_cons.mpr ⟨fun sp hsp => ?_, hB⟩, fun sp hsp sq hsq => ?_⟩
    · obtain ⟨Q, hQ, rfl⟩ := List.mem_map.mp hsp
      exact (hapart Q (.inr hQ)).symm
    · rcases List.mem_cons.mp hsq with rfl | hsq
      · obtain ⟨Q, hQ, rfl⟩ := List.mem_map.mp hsp
        exact hapart Q (.inl hQ)
      · exact hAB sp hsp sq (List.mem_cons_of_mem _ hsq)
  · intro Q hQ
    rcases hcases Q hQ with rfl | hQ
    · exact hok
    · exact (h.ok Q (hmem Q hQ)).congr (fun x hx hx' => hhead x (outside Q hQ x hx hx'))
        fun x hx hx' => hfoot x ((outside Q hQ x hx.le hx').imp_left le_of_lt)
  · rcases htop with ⟨htop, htopsize, hown⟩ | ⟨-, hhas⟩
    · rcases h.top with ⟨-, -, hnil⟩ | ⟨Q, hQ, hhas⟩
      · simp at hnil
      · by_cases hQR : Q = R
        · exact .inr ⟨R', by simp, hown (hQR ▸ hhas)⟩
        · have hQ' : Q ∈ A ∨ Q ∈ B := (mem_middle.mp hQ).resolve_left hQR
          refine .inr ⟨Q, mem_middle.mpr (.inr hQ'), hhas.congr ⟨htop, htopsize⟩ (hhead _ ?_)⟩
          have hstop : Q.stop = Q.seg.base + total Q.blocks := rfl
          have := hhas.stop
          have := (h.ok Q hQ).room
          exact outside Q hQ' s.top (by omega) (by omega)
    · exact .inr ⟨R', by simp, hhas⟩
  · intro Q hQ
    cases A with
    | nil =>
      obtain rfl : R' = Q := Option.some.inj hQ
      rcases htop with ⟨-, -, hown⟩ | ⟨-, hhas⟩
      · have hstop := h.first R rfl
        have hbase : R.stop = R.seg.base + total R.blocks := rfl
        have := (h.ok R (by simp)).room
        exact (hown (h.hasTop (A := []) (by omega) (by omega))).stop
      · exact hhas.stop
    | cons Q' A =>
      obtain rfl : Q' = Q := Option.some.inj hQ
      have hstop := h.first Q' rfl
      rcases htop with ⟨htop, -⟩ | ⟨hR, -⟩
      · rw [htop, hstop]
      · exact absurd hstop (h.stop_ne_top hR (.inl List.mem_cons_self))
  · intro Q hQ
    rcases hcases Q hQ with rfl | hQ
    · exact hclosed
    · rcases htop with ⟨htop, -, -⟩ | ⟨hstop, -⟩
      · rw [htop]
        exact h.closed Q (hmem Q hQ)
      · exact .inr ((h.closed Q (hmem Q hQ)).resolve_left (h.stop_ne_top hstop hQ))
  · intro Q hQ
    rcases hcases Q hQ with rfl | hQ
    · exact hleast.2
    · exact hleast.1.trans (h.least Q (hmem Q hQ))
  · intro Q hQ hmapped
    rw [hpaged.1]
    rcases hcases Q hQ with rfl | hQ
    · obtain ⟨hR, hsize⟩ := hpaged.2 hmapped
      exact ⟨(h.paged R (by simp) hR).1, hsize⟩
    · exact h.paged Q (hmem Q hQ) hmapped
  · intro c hc
    have hold := h.mapped c hc
    have hout := hdirect c hc
    have hpad : 0 < MMAP_FOOT_PAD := by decide
    refine hold.congr (hhead _ (by omega)) (hfoot _ (by omega)) fun sp hsp => ?_
    rw [hseg, List.mem_append, List.mem_cons] at hsp
    rcases hsp with hsp | rfl | hsp
    · exact hold.apart sp (by rw [← h.seg]; simp [List.mem_map.mp hsp])
    · exact hout
    · exact hold.apart sp (by rw [← h.seg]; simp [List.mem_map.mp hsp])
  · exact h.mappedApart

/-- The chunks of one segment have changed, from `a` to `e`. -/
theorem Heap.update (h : Heap s (A ++ R :: B) records direct) {a e : ℕ} (hhead : ∀ x, x < a ∨ e < x → s'.head x = s.head x)
    (hfoot : ∀ x, x ≤ a ∨ e < x → s'.prevFoot x = s.prevFoot x) (hlo : R.seg.base ≤ a) (hhi : e < R.fin)
    (hok : Region.Ok s'.head s'.prevFoot ⟨R.seg, bs⟩) (hseg : s'.seg = s.seg ∧ s'.contiguous = s.contiguous)
    (hleast : s'.leastAddr = s.leastAddr)
    (hclosed : Region.Closed s'.top records ⟨R.seg, bs⟩)
    (htop : s'.top = s.top ∧ s'.topsize = s.topsize ∧ total bs = total R.blocks ∧ e < R.stop ∨
      R.stop = s.top ∧ Region.HasTop s' ⟨R.seg, bs⟩) : Heap s' (A ++ ⟨R.seg, bs⟩ :: B) records direct := by
  have hfin : Region.fin ⟨R.seg, bs⟩ = R.fin := rfl
  have hmem : R.seg ∈ s.seg := by
    rw [← h.seg]
    simp
  refine h.regrow (fun x hx => hhead x ?_) (fun x hx => hfoot x ?_) (by rw [hseg.1, ← h.seg]; simp)
    (fun Q hQ => h.apart_middle Q hQ) (fun c hc => (h.mapped c hc).apart R.seg hmem)
    ⟨hleast.le, hleast ▸ h.least R (by simp)⟩ ⟨hseg.2, fun hm => ⟨hm, (h.paged R (by simp) hm).2⟩⟩ hok hclosed ?_
  · dsimp only at hx
    omega
  · dsimp only at hx
    omega
  · rcases htop with ⟨htop, htopsize, htotal, hstop⟩ | htop
    · refine .inl ⟨htop, htopsize, fun hhas => ?_⟩
      have hstop' : Region.stop ⟨R.seg, bs⟩ = R.stop := by rw [Region.stop, Region.stop, htotal]
      refine ⟨by rw [hstop', htop, hhas.stop], by rw [htop, htopsize]; exact hhas.fin, ?_, by rw [htopsize]; exact hhas.pos⟩
      rw [htop, htopsize, hhead _ (.inr (by rw [← hhas.stop]; exact hstop)), hhas.head]
    · exact .inr htop

/-- A chunk in its segment, with the chunks in front of it and those from it on. -/
theorem Heap.split (h : Heap s regions records direct) {p n : ℕ} (hc : (p, n) ∈ chunksOf k regions) :
    ∃ A R B l r pm, regions = A ++ R :: B ∧ R.Ok s.head s.prevFoot ∧ R.blocks = l ++ ⟨n, k⟩ :: r ∧
      p = R.seg.base + total l ∧ Frag s.head s.prevFoot R.seg.base true l p pm ∧
      Frag s.head s.prevFoot p pm (⟨n, k⟩ :: r) R.stop true := by
  obtain ⟨A, R, B, l, r, rfl, hblocks, hat⟩ := exists_region_split hc
  dsimp only at hblocks hat
  have hok := h.ok R (by simp)
  have hfrag := hok.frag
  rw [hblocks] at hfrag
  obtain ⟨pm, hl, hr⟩ := frag_append.mp hfrag
  rw [← hat] at hl hr
  exact ⟨A, R, B, l, r, pm, rfl, hok, hblocks, hat, hl, hr⟩

theorem Frag.total_ge {head : ℕ → Head} {foot : ℕ → ℕ} {a e : ℕ} {pin pout : Bool} (h : Frag head foot a pin bs e pout)
    (hne : bs ≠ []) : MIN_CHUNK_SIZE ≤ total bs := by
  cases bs with
  | nil => exact absurd rfl hne
  | cons b bs =>
    rw [total_cons]
    exact h.2.1.trans (Nat.le_add_right _ _)

theorem Frag.ne_nil {head : ℕ → Head} {foot : ℕ → ℕ} {a e : ℕ} (h : Frag head foot a false bs e true) : bs ≠ [] := by
  rintro rfl
  cases h.2

/-- What the chunks `M` of a segment count, with the chunks `M'` in their place. -/
theorem chunksOf_replace {l r M M' : List Block} {p : ℕ} (hblocks : R.blocks = l ++ (M ++ r)) (hat : p = R.seg.base + total l)
    (htotal : total M' = total M) :
    chunksOf k (A ++ ⟨R.seg, l ++ (M' ++ r)⟩ :: B) + blocksOf k p M = chunksOf k (A ++ R :: B) + blocksOf k p M' := by
  rw [chunksOf_middle, chunksOf_middle, hblocks]
  dsimp only
  rw [blocksOf_append, blocksOf_append, blocksOf_append, blocksOf_append, ← hat, htotal]
  abel

/-- The chunks `M` of a segment have been replaced by `M'`. -/
theorem Heap.replace (h : Heap s (A ++ R :: B) records direct) (hok : R.Ok s.head s.prevFoot) {l r M M' : List Block} {p : ℕ}
    (hblocks : R.blocks = l ++ (M ++ r)) (hat : p = R.seg.base + total l) (htotal : total M' = total M)
    (hr : r ≠ []) (hmin : MIN_CHUNK_SIZE ≤ total r) (hhead : ∀ x, x < p ∨ p + total M < x → s'.head x = s.head x)
    (hfoot : ∀ x, x ≤ p ∨ p + total M < x → s'.prevFoot x = s.prevFoot x)
    (hnew : Frag s'.head s'.prevFoot R.seg.base true (l ++ (M' ++ r)) R.stop true)
    (hsame : (s'.seg = s.seg ∧ s'.contiguous = s.contiguous) ∧ s'.leastAddr = s.leastAddr ∧ s'.top = s.top ∧
      s'.topsize = s.topsize) :
    Heap s' (A ++ ⟨R.seg, l ++ (M' ++ r)⟩ :: B) records direct := by
  have htotal' : total (l ++ (M' ++ r)) = total R.blocks := by rw [hblocks]; simp [htotal]
  have hstop : Region.stop ⟨R.seg, l ++ (M' ++ r)⟩ = R.stop := by rw [Region.stop, Region.stop, htotal']
  have hend : R.stop = p + total M + total r := by
    rw [Region.stop, hblocks, hat]
    simp [Nat.add_assoc]
  have hpos : 0 < MIN_CHUNK_SIZE := by decide
  have hroom := hok.room
  obtain ⟨hseg, hleast, htop, htopsize⟩ := hsame
  have hclosed : Region.Closed s'.top records ⟨R.seg, l ++ (M' ++ r)⟩ := by
    rcases h.closed R (by simp) with hstop' | ⟨l₀, hl₀, hrec⟩
    · exact .inl (by rw [hstop, htop, hstop'])
    · obtain ⟨r₁, b, rfl⟩ := (List.eq_nil_or_concat' r).resolve_left hr
      rw [hblocks, ← List.append_assoc, ← List.append_assoc] at hl₀
      obtain ⟨rfl, hb⟩ := List.append_inj' hl₀ rfl
      obtain rfl := List.cons.inj hb |>.1
      refine .inr ⟨l ++ (M' ++ r₁), by simp, ?_⟩
      have : total (l ++ (M' ++ r₁)) = total (l ++ M ++ r₁) := by simp [htotal]
      dsimp only
      rw [this]
      exact hrec
  refine h.update hhead hfoot (by omega) (by omega) ⟨?_, ?_, hok.low, hok.high, hok.aligned⟩ hseg hleast hclosed
    (.inl ⟨htop, htopsize, htotal', by omega⟩)
  · rw [hstop]
    exact hnew
  · rw [hstop]
    exact hroom

/-- A free chunk is taken whole. -/
theorem Heap.take (h : Heap s regions records direct) {p n : ℕ} (hc : (p, n) ∈ chunksOf false regions) :
    ∃ regions', Heap (s.setInuseAndPinuse p n) regions' records direct ∧
      (p, n) ::ₘ chunksOf false regions' = chunksOf false regions ∧
      chunksOf true regions' = (p, n) ::ₘ chunksOf true regions := by
  obtain ⟨A, R, B, l, r, pm, rfl, hok, hblocks, hat, hl, -, hmin, h8, hfree, hr⟩ := h.split hc
  obtain ⟨rfl, -⟩ := hfree rfl
  dsimp only at hmin h8 hr
  have hpos : 0 < n := lt_of_lt_of_le (by decide) hmin
  have hblocks' : R.blocks = l ++ ([⟨n, false⟩] ++ r) := hblocks
  have hother (x : ℕ) (hx : x < p ∨ p + n < x) : (s.setInuseAndPinuse p n).head x = s.head x := by
    rw [State.setInuseAndPinuse_head _ _ _ hpos, if_neg (by omega), if_neg (by omega)]
  have hself : (s.setInuseAndPinuse p n).head p = ⟨n, true, true⟩ := by
    rw [State.setInuseAndPinuse_head _ _ _ hpos, if_neg (by omega), if_pos rfl]
  have hnext : (s.setInuseAndPinuse p n).head (p + n) = { s.head (p + n) with pinuse := true } := by
    rw [State.setInuseAndPinuse_head _ _ _ hpos, if_pos rfl]
  have hnew : Frag (s.setInuseAndPinuse p n).head (s.setInuseAndPinuse p n).prevFoot R.seg.base true
      (l ++ ([⟨n, true⟩] ++ r)) R.stop true :=
    hl.join_seam ⟨hself, hmin, h8, fun hb => absurd hb (by simp), rfl, rfl⟩ hr hr.ne_nil hr.first_inuse hnext hother
      fun _ _ => rfl
  have htotal : total [⟨n, true⟩] = total [⟨n, false⟩] := rfl
  refine ⟨_, h.replace hok hblocks' hat htotal hr.ne_nil (hr.total_ge hr.ne_nil) hother (fun _ _ => rfl) hnew
    ⟨⟨rfl, rfl⟩, rfl, rfl, rfl⟩, ?_, ?_⟩
  · have := chunksOf_replace (k := false) (A := A) (B := B) hblocks' hat htotal
    simpa [blocksOf, add_comm, Multiset.singleton_add] using this
  · have := chunksOf_replace (k := true) (A := A) (B := B) hblocks' hat htotal
    simpa [blocksOf, add_comm, Multiset.singleton_add] using this

/-- A free chunk is cut, and its first part taken. -/
theorem Heap.cut (h : Heap s regions records direct) {p n nb : ℕ} (hc : (p, n) ∈ chunksOf false regions) (hnb : MIN_CHUNK_SIZE ≤ nb)
    (hnb8 : nb % 8 = 0) (hrest : nb + MIN_CHUNK_SIZE ≤ n) :
    ∃ regions', Heap ((s.setSizeAndPinuseOfInuseChunk p nb).setSizeAndPinuseOfFreeChunk (p + nb) (n - nb)) regions' records direct ∧
      (p, n) ::ₘ chunksOf false regions' = (p + nb, n - nb) ::ₘ chunksOf false regions ∧
      chunksOf true regions' = (p, nb) ::ₘ chunksOf true regions := by
  obtain ⟨A, R, B, l, r, pm, rfl, hok, hblocks, hat, hl, -, hmin, h8, hfree, hr⟩ := h.split hc
  obtain ⟨rfl, -⟩ := hfree rfl
  dsimp only at hmin h8 hr
  have hpos : 0 < MIN_CHUNK_SIZE := by decide
  have hblocks' : R.blocks = l ++ ([⟨n, false⟩] ++ r) := hblocks
  have hsum : p + nb + (n - nb) = p + n := by omega
  have htotal : total [⟨nb, true⟩, ⟨n - nb, false⟩] = total [⟨n, false⟩] := by
    simp only [total_cons, total_nil]
    omega
  generalize hs' : (s.setSizeAndPinuseOfInuseChunk p nb).setSizeAndPinuseOfFreeChunk (p + nb) (n - nb) = s'
  have hhead (x : ℕ) : s'.head x = if x = p + nb then ⟨n - nb, true, false⟩ else if x = p then ⟨nb, true, true⟩ else s.head x := by
    rw [← hs', State.setSizeAndPinuseOfFreeChunk_head, State.setSizeAndPinuseOfInuseChunk_head]
  have hfoot (x : ℕ) : s'.prevFoot x = if x = p + n then n - nb else s.prevFoot x := by
    rw [← hs', State.setSizeAndPinuseOfFreeChunk_prevFoot, State.setSizeAndPinuseOfInuseChunk_prevFoot, hsum]
  have hnew : Frag s'.head s'.prevFoot R.seg.base true (l ++ ([⟨nb, true⟩, ⟨n - nb, false⟩] ++ r)) R.stop true := by
    refine hl.join (M := [⟨nb, true⟩, ⟨n - nb, false⟩]) ⟨?_, hnb, hnb8, fun hb => absurd hb (by simp), ?_, by dsimp only; omega,
      by dsimp only; omega, fun _ => ⟨rfl, ?_⟩, hsum, rfl⟩ hr (fun x hx => ?_) fun x hx => ?_
    · rw [hhead, if_neg (by omega), if_pos rfl]
    · rw [hhead, if_pos rfl]
    · rw [hfoot, if_pos hsum]
    · rw [hhead, if_neg (by omega), if_neg (by omega)]
    · rw [hfoot, if_neg (by omega)]
  refine ⟨_, h.replace hok hblocks' hat htotal hr.ne_nil (hr.total_ge hr.ne_nil) (fun x hx => ?_) (fun x hx => ?_) hnew
    (by rw [← hs']; exact ⟨⟨rfl, rfl⟩, rfl, rfl, rfl⟩), ?_, ?_⟩
  · simp only [total_cons, total_nil] at hx
    rw [hhead, if_neg (by omega), if_neg (by omega)]
  · simp only [total_cons, total_nil] at hx
    rw [hfoot, if_neg (by omega)]
  · have := chunksOf_replace (k := false) (A := A) (B := B) hblocks' hat htotal
    simpa [blocksOf, add_comm, Multiset.singleton_add] using this
  · have := chunksOf_replace (k := true) (A := A) (B := B) hblocks' hat htotal
    simpa [blocksOf, add_comm, Multiset.singleton_add] using this

/-- The segment of `top`. -/
theorem Heap.exists_top (h : Heap s regions records direct) (htop : s.top ≠ 0) :
    ∃ A R B, regions = A ++ R :: B ∧ R.Ok s.head s.prevFoot ∧ R.HasTop s := by
  rcases h.top with ⟨h0, -⟩ | ⟨R, hR, hhas⟩
  · exact absurd h0 htop
  · obtain ⟨A, B, rfl⟩ := List.append_of_mem hR
    exact ⟨A, R, B, rfl, h.ok R hR, hhas⟩

/-- The first part of `top` is taken. -/
theorem Heap.cutTop (h : Heap s regions records direct) {nb : ℕ} (htop : s.top ≠ 0) (hnb : MIN_CHUNK_SIZE ≤ nb)
    (hnb8 : nb % 8 = 0) (hlt : nb < s.topsize) :
    ∃ regions', Heap (s.splitTop nb).1 regions' records direct ∧ chunksOf false regions' = chunksOf false regions ∧
      chunksOf true regions' = (s.top, nb) ::ₘ chunksOf true regions := by
  obtain ⟨A, R, B, rfl, hok, hhas⟩ := h.exists_top htop
  have hpos : 0 < MIN_CHUNK_SIZE := by decide
  have hfoot : (40 : ℕ) = TOP_FOOT_SIZE := by decide
  have hfin := hhas.fin
  have hstop : R.stop = R.seg.base + total R.blocks := rfl
  have hstop' := hhas.stop
  have hblocks : R.blocks = R.blocks ++ ([] ++ []) := by simp
  have hend : Region.stop ⟨R.seg, R.blocks ++ ([⟨nb, true⟩] ++ [])⟩ = s.top + nb := by
    rw [← hstop', Region.stop, Region.stop]
    simp [Nat.add_assoc]
  have hhead (x : ℕ) : (s.splitTop nb).1.head x =
      if x = s.top then ⟨nb, true, true⟩ else if x = s.top + nb then ⟨s.topsize - nb, true, false⟩ else s.head x := by
    rw [State.splitTop, State.setSizeAndPinuseOfInuseChunk_head, State.setHead_head]
  have hnew : Frag (s.splitTop nb).1.head (s.splitTop nb).1.prevFoot R.seg.base true (R.blocks ++ ([⟨nb, true⟩] ++ []))
      (s.top + nb) true := by
    refine frag_append.mpr ⟨true, ?_, ?_⟩
    · rw [← hstop]
      refine hok.frag.congr (fun x hx hx' => ?_) fun _ _ _ => rfl
      rw [hhead, if_neg (by omega), if_neg (by omega)]
    · rw [← hstop, hstop']
      refine ⟨?_, hnb, hnb8, fun hb => absurd hb (by simp), rfl, rfl⟩
      rw [hhead, if_pos rfl]
  refine ⟨A ++ ⟨R.seg, R.blocks ++ ([⟨nb, true⟩] ++ [])⟩ :: B, h.update (a := s.top) (e := s.top + nb) (fun x hx => ?_)
    (fun _ _ => rfl) (by omega) (by omega) ⟨?_, ?_, hok.low, hok.high, hok.aligned⟩ ⟨rfl, rfl⟩ rfl (.inl ?_)
    (.inr ⟨hstop', ?_, ?_, ?_, Nat.sub_pos_of_lt hlt⟩), ?_, ?_⟩
  · rw [hhead, if_neg (by omega), if_neg (by omega)]
  · rw [hend]
    exact hnew
  · rw [hend]
    have : Region.fin ⟨R.seg, R.blocks ++ ([⟨nb, true⟩] ++ [])⟩ = R.fin := rfl
    omega
  · rw [hend]
    rfl
  · rw [hend]
    rfl
  · have : Region.fin ⟨R.seg, R.blocks ++ ([⟨nb, true⟩] ++ [])⟩ = R.fin := rfl
    simp only [State.splitTop, State.setSizeAndPinuseOfInuseChunk, State.setHead]
    omega
  · have htop' : (s.splitTop nb).1.top = s.top + nb := rfl
    have htopsize' : (s.splitTop nb).1.topsize = s.topsize - nb := rfl
    rw [htop', htopsize', hhead, if_neg (by omega), if_pos rfl]
  · rw [chunksOf_middle, chunksOf_middle, blocksOf_append]
    simp [blocksOf]
  · rw [chunksOf_middle, chunksOf_middle, blocksOf_append, ← hstop, hstop']
    simp only [List.cons_append, List.nil_append, blocksOf, if_true, add_zero]
    rw [← Multiset.singleton_add]
    abel

/-- Chunks that follow each other become one free chunk; the one behind them is in use. -/
theorem Heap.release (h : Heap s (A ++ R :: B) records direct) (hok : R.Ok s.head s.prevFoot) {l r M : List Block} {p : ℕ}
    {pq : Bool} (hblocks : R.blocks = l ++ (M ++ r)) (hat : p = R.seg.base + total l)
    (hl : Frag s.head s.prevFoot R.seg.base true l p true) (hM : MIN_CHUNK_SIZE ≤ total M ∧ total M % 8 = 0)
    (hr : Frag s.head s.prevFoot (p + total M) pq r R.stop true) (hne : r ≠ []) (hfirst : ∀ b ∈ r.head?, b.inuse = true)
    (hhead : ∀ x, x < p ∨ p + total M < x → s'.head x = s.head x) (hself : s'.head p = ⟨total M, true, false⟩)
    (hnext : s'.head (p + total M) = { s.head (p + total M) with pinuse := false })
    (hfoot : ∀ x, s'.prevFoot x = if x = p + total M then total M else s.prevFoot x)
    (hsame : (s'.seg = s.seg ∧ s'.contiguous = s.contiguous) ∧ s'.leastAddr = s.leastAddr ∧ s'.top = s.top ∧
      s'.topsize = s.topsize) :
    ∃ regions', Heap s' regions' records direct ∧
      chunksOf false regions' + blocksOf false p M = (p, total M) ::ₘ chunksOf false (A ++ R :: B) ∧
      chunksOf true regions' + blocksOf true p M = chunksOf true (A ++ R :: B) := by
  have htotal : total [⟨total M, false⟩] = total M := by simp
  have hpos : 0 < MIN_CHUNK_SIZE := by decide
  have hnew : Frag s'.head s'.prevFoot R.seg.base true (l ++ ([⟨total M, false⟩] ++ r)) R.stop true := by
    refine hl.join_seam (M := [⟨total M, false⟩]) ⟨hself, hM.1, hM.2, fun _ => ⟨rfl, ?_⟩, rfl, rfl⟩ hr hne hfirst hnext hhead
      fun x hx => ?_
    · rw [hfoot, if_pos rfl]
    · rw [hfoot, if_neg (by dsimp only at hx; omega)]
  refine ⟨_, h.replace hok hblocks hat htotal hne (hr.total_ge hne) hhead (fun x hx => ?_) hnew hsame, ?_, ?_⟩
  · rw [hfoot, if_neg (by omega)]
  · have := chunksOf_replace (k := false) (A := A) (B := B) hblocks hat htotal
    rw [this, add_comm]
    simp [blocksOf]
  · have := chunksOf_replace (k := true) (A := A) (B := B) hblocks hat htotal
    rw [this]
    simp [blocksOf]

/-- Chunks in front of `top` become a part of it. -/
theorem Heap.releaseTop (h : Heap s (A ++ R :: B) records direct) (hok : R.Ok s.head s.prevFoot) (hhas : R.HasTop s)
    {l M : List Block} {p : ℕ} (hblocks : R.blocks = l ++ M) (hat : p = R.seg.base + total l)
    (hl : Frag s.head s.prevFoot R.seg.base true l p true)
    (hhead : ∀ x, x ≠ p → s'.head x = s.head x) (hself : s'.head p = ⟨s.topsize + total M, true, false⟩)
    (hfoot : ∀ x, s'.prevFoot x = s.prevFoot x)
    (hsame : (s'.seg = s.seg ∧ s'.contiguous = s.contiguous) ∧ s'.leastAddr = s.leastAddr ∧ s'.top = p ∧
      s'.topsize = s.topsize + total M) :
    ∃ regions', Heap s' regions' records direct ∧
      chunksOf false regions' + blocksOf false p M = chunksOf false (A ++ R :: B) ∧
      chunksOf true regions' + blocksOf true p M = chunksOf true (A ++ R :: B) := by
  obtain ⟨hseg, hleast, htop', htopsize'⟩ := hsame
  have hstop : R.stop = p + total M := by
    rw [Region.stop, hblocks, hat]
    simp [Nat.add_assoc]
  have hstop' := hhas.stop
  have hfin := hhas.fin
  have hroom := hok.room
  have hend : Region.stop ⟨R.seg, l⟩ = p := hat.symm
  refine ⟨A ++ ⟨R.seg, l⟩ :: B, h.update (a := p) (e := p) (fun x hx => hhead x (by omega)) (fun x _ => hfoot x)
    (by omega) (by omega) ⟨?_, ?_, hok.low, hok.high, hok.aligned⟩ hseg hleast (.inl (hend.trans htop'.symm))
    (.inr ⟨hstop', hend.trans htop'.symm, ?_, ?_, by rw [htopsize']; exact Nat.add_pos_left hhas.pos _⟩), ?_, ?_⟩
  · rw [hend]
    exact hl.congr (fun x _ hx => hhead x (by omega)) fun x _ _ => hfoot x
  · rw [hend]
    have : Region.fin ⟨R.seg, l⟩ = R.fin := rfl
    omega
  · have : Region.fin ⟨R.seg, l⟩ = R.fin := rfl
    rw [htop', htopsize', this]
    omega
  · rw [htop', htopsize', hself]
  · rw [chunksOf_middle, chunksOf_middle, hblocks, blocksOf_append, ← hat]
    abel
  · rw [chunksOf_middle, chunksOf_middle, hblocks, blocksOf_append, ← hat]
    abel

/-! Where chunks lie -/

theorem Frag.sizes {head : ℕ → Head} {foot : ℕ → ℕ} {a e : ℕ} {pin pout : Bool} (h : Frag head foot a pin bs e pout) :
    ∀ b ∈ bs, MIN_CHUNK_SIZE ≤ b.size ∧ b.size % 8 = 0 := by
  induction bs generalizing a pin with
  | nil => exact fun b hb => absurd hb (List.not_mem_nil)
  | cons b bs ih =>
    obtain ⟨-, h₂, h₃, -, hrest⟩ := h
    intro c hc
    rcases List.mem_cons.mp hc with rfl | hc
    · exact ⟨h₂, h₃⟩
    · exact ih hrest c hc

theorem total_mod (h : ∀ b ∈ bs, b.size % 8 = 0) : total bs % 8 = 0 := by
  induction bs with
  | nil => rfl
  | cons b bs ih =>
    have := h b List.mem_cons_self
    have := ih fun c hc => h c (List.mem_cons_of_mem b hc)
    rw [total_cons]
    omega

/-- Two chunks of a segment are the same, or do not meet. -/
theorem blocksOf_apart {a : ℕ} {k k' : Bool} {c d : ℕ × ℕ} (hc : c ∈ blocksOf k a bs) (hd : d ∈ blocksOf k' a bs) :
    c.1 + c.2 ≤ d.1 ∨ d.1 + d.2 ≤ c.1 ∨ c = d ∧ k = k' := by
  induction bs generalizing a with
  | nil => exact absurd hc (Multiset.notMem_zero c)
  | cons b bs ih =>
    rw [blocksOf, Multiset.mem_add] at hc hd
    have first {k : Bool} {c : ℕ × ℕ} (hc : c ∈ (if b.inuse = k then {(a, b.size)} else 0 : Multiset (ℕ × ℕ))) :
        c = (a, b.size) ∧ b.inuse = k := by
      split_ifs at hc with hk
      · exact ⟨Multiset.mem_singleton.mp hc, hk⟩
      · exact absurd hc (Multiset.notMem_zero c)
    rcases hc with hc | hc
    · obtain ⟨rfl, hk⟩ := first hc
      rcases hd with hd | hd
      · obtain ⟨rfl, hk'⟩ := first hd
        exact .inr (.inr ⟨rfl, hk.symm.trans hk'⟩)
      · exact .inl (blocksOf_range d hd).1
    · rcases hd with hd | hd
      · obtain ⟨rfl, hk'⟩ := first hd
        exact .inr (.inl (blocksOf_range c hc).1)
      · exact ih hc hd

theorem blocksOf_nodup {a : ℕ} (h : ∀ b ∈ bs, 0 < b.size) : ((blocksOf k a bs).map Prod.fst).Nodup := by
  induction bs generalizing a with
  | nil => exact Multiset.nodup_zero
  | cons b bs ih =>
    rw [blocksOf, Multiset.map_add]
    have hrest := ih (a := a + b.size) fun c hc => h c (List.mem_cons_of_mem b hc)
    split_ifs
    · rw [Multiset.map_singleton, Multiset.singleton_add, Multiset.nodup_cons]
      refine ⟨fun hmem => ?_, hrest⟩
      obtain ⟨c, hc, hca⟩ := Multiset.mem_map.mp hmem
      have := (blocksOf_range c hc).1
      have := h b List.mem_cons_self
      dsimp only at hca
      omega
    · rw [Multiset.map_zero, zero_add]
      exact hrest

/-- What holds of each chunk of the heap. -/
theorem Heap.chunk (h : Heap s regions records direct) {c : ℕ × ℕ} (hc : c ∈ chunksOf k regions) :
    8 ≤ c.1 ∧ c.1 % 8 = 0 ∧ MIN_CHUNK_SIZE ≤ c.2 ∧ c.2 % 8 = 0 ∧ c.1 + c.2 + 8 ≤ 2 ^ 32 ∧ s.leastAddr ≤ c.1 := by
  obtain ⟨A, R, B, l, r, rfl, hblocks, hat⟩ := exists_region_split hc
  have hok := h.ok R (by simp)
  have hsizes := hok.frag.sizes
  rw [hblocks] at hsizes
  obtain ⟨hmin, h8⟩ := hsizes ⟨c.2, k⟩ (by simp)
  have hl8 := total_mod fun b hb => (hsizes b (List.mem_append_left _ hb)).2
  have hstop : R.stop = R.seg.base + total R.blocks := rfl
  rw [hblocks, total_append, total_cons] at hstop
  have := hok.room
  have := hok.low
  have := hok.high
  have := hok.aligned.1
  have := h.least R (by simp)
  dsimp only at hmin h8 hstop
  refine ⟨by omega, by omega, hmin, h8, by omega, by omega⟩

theorem Heap.chunks_apart (h : Heap s regions records direct) {k k' : Bool} {c d : ℕ × ℕ} (hc : c ∈ chunksOf k regions)
    (hd : d ∈ chunksOf k' regions) : c.1 + c.2 ≤ d.1 ∨ d.1 + d.2 ≤ c.1 ∨ c = d ∧ k = k' := by
  obtain ⟨R, hR, hcR⟩ := mem_chunksOf.mp hc
  obtain ⟨R', hR', hdR⟩ := mem_chunksOf.mp hd
  obtain ⟨A, B, rfl⟩ := List.append_of_mem hR
  by_cases hRR : R' = R
  · subst hRR
    exact blocksOf_apart hcR hdR
  · have hR'' : R' ∈ A ∨ R' ∈ B := (mem_middle.mp hR').resolve_left hRR
    have hapart := h.apart_middle R' hR''
    have hin := (h.ok R (by simp)).inside hcR
    have hin' := (h.ok R' hR').inside hdR
    unfold Segment.Apart at hapart
    omega

theorem Heap.nodup (h : Heap s regions records direct) : ((chunksOf k regions).map Prod.fst).Nodup := by
  have hapart := h.apart
  rw [← h.seg] at hapart
  have hok := h.ok
  clear h
  induction regions with
  | nil => exact Multiset.nodup_zero
  | cons R rest ih =>
    rw [List.map_cons, List.pairwise_cons] at hapart
    rw [chunksOf_cons, Multiset.map_add, Multiset.nodup_add]
    have hokR := hok R List.mem_cons_self
    refine ⟨blocksOf_nodup fun b hb => lt_of_lt_of_le (by decide) (hokR.frag.sizes b hb).1,
      ih hapart.2 fun R' hR' => hok R' (List.mem_cons_of_mem _ hR'), Multiset.disjoint_left.mpr fun hx hx' => ?_⟩
    obtain ⟨c, hc, rfl⟩ := Multiset.mem_map.mp hx
    obtain ⟨d, hd, hcd⟩ := Multiset.mem_map.mp hx'
    obtain ⟨R', hR', hdR⟩ := mem_chunksOf.mp hd
    have hap := hapart.1 _ (List.mem_map_of_mem hR')
    have hin := hokR.inside hc
    have hin' := (hok R' (List.mem_cons_of_mem _ hR')).inside hdR
    unfold Segment.Apart at hap
    omega

end Heap

end Bionic.Dlmalloc
