import Bionic.DlmallocInv

/-! # Allocation from the bins, from `dv` and from `top` -/

namespace Bionic.Dlmalloc

variable {s s' : State} {C L used : Multiset (ℕ × ℕ)} {direct : List (ℕ × ℕ)} {p n nb i idx : ℕ}

/-! ### Words of bits -/

theorem and_three_ne_zero {x : BitVec 32} : x &&& 3#32 ≠ 0#32 ↔ x.getLsbD 0 = true ∨ x.getLsbD 1 = true := by
  have hthree (j : ℕ) : (3#32).getLsbD j = decide (j < 2) := by
    rw [BitVec.getLsbD_ofNat, show 3 = 2 ^ 2 - 1 by rfl, Nat.testBit_two_pow_sub_one]
    by_cases hj : j < 2
    · simp [hj]
      omega
    · simp [hj]
  constructor
  · intro hne
    by_contra h
    rw [not_or, Bool.not_eq_true, Bool.not_eq_true] at h
    refine hne (BitVec.eq_of_getLsbD_eq fun j hj => ?_)
    rw [BitVec.getLsbD_and, hthree, BitVec.getLsbD_zero]
    rcases j with _ | _ | j
    · rw [h.1, Bool.false_and]
    · rw [h.2, Bool.false_and]
    · simp
  · rintro h h0
    have hzero (j : ℕ) : (x &&& 3#32).getLsbD j = false := by rw [h0, BitVec.getLsbD_zero]
    rcases h with h | h
    · have := hzero 0
      rw [BitVec.getLsbD_and, hthree, h] at this
      simp at this
    · have := hzero 1
      rw [BitVec.getLsbD_and, hthree, h] at this
      simp at this

/-- The bins above the two that `smallFit` takes from. -/
theorem leftbits_spec {map : BitVec 32} (hlow : ¬ map >>> idx &&& 3#32 ≠ 0#32) (hne : map >>> idx ≠ 0#32) :
    ∃ i < 32, computeBit2idx (leastBit ((map >>> idx <<< idx) &&& leftBits (idx2bit idx))) = i ∧ map.getLsbD i = true ∧
      idx + 2 ≤ i := by
  have hbit (j : ℕ) (hj : j < 32) : ((map >>> idx <<< idx) &&& leftBits (idx2bit idx)).getLsbD j =
      (decide (idx < j) && map.getLsbD j) := by
    rw [BitVec.getLsbD_and, getLsbD_leftBits hj, BitVec.getLsbD_shiftLeft, BitVec.getLsbD_ushiftRight]
    by_cases hlt : idx < j
    · simp [hlt, hj, hlt.le, not_lt.mpr hlt.le]
    · simp [hlt]
  rw [and_three_ne_zero, not_or, Bool.not_eq_true, Bool.not_eq_true, BitVec.getLsbD_ushiftRight,
    BitVec.getLsbD_ushiftRight] at hlow
  have hleft : (map >>> idx <<< idx) &&& leftBits (idx2bit idx) ≠ 0#32 := by
    intro h0
    refine hne (BitVec.eq_of_getLsbD_eq fun j hj => ?_)
    rw [BitVec.getLsbD_ushiftRight, BitVec.getLsbD_zero]
    by_cases hj0 : j = 0
    · rw [hj0, hlow.1]
    · by_cases hj32 : idx + j < 32
      · have := hbit (idx + j) hj32
        rw [h0, BitVec.getLsbD_zero] at this
        simpa [Nat.pos_of_ne_zero hj0] using this.symm
      · exact BitVec.getLsbD_of_ge _ _ (not_lt.mp hj32)
  obtain ⟨i, hi, heq, hset, -⟩ := leastBit_spec hleft
  rw [hbit i hi, Bool.and_eq_true, decide_eq_true_eq] at hset
  refine ⟨i, hi, heq, hset.2, ?_⟩
  by_contra hlt
  have hi1 : idx + 1 = i := by omega
  rw [hi1, hset.2] at hlow
  exact absurd hlow.2 (by simp)

/-! ### Bins -/

/-- The first chunk of a small bin. -/
theorem Loose.firstSmall (h : Loose s C L used direct) (hi : i < 32) (hbit : s.smallmap.getLsbD i = true) :
    ∃ p rest C', s.smallbins i = p :: rest ∧ Loose (s.unlinkSmallChunk p i) C' ((p, 8 * i) ::ₘ L) used direct := by
  obtain ⟨regions, records, hheap, hbin, hfree, hused⟩ := h
  obtain ⟨T, hT, hC, hmarked⟩ := hbin
  obtain ⟨p, rest, heq⟩ := List.exists_cons_of_ne_nil (hmarked i hi hbit)
  have hmem : (p, 8 * i) ∈ smallChunks s.smallbins s.smallmap i := by
    rw [mem_smallChunks, heq]
    exact ⟨hbit, List.mem_cons_self, rfl⟩
  have hmemC : (p, 8 * i) ∈ C := by
    rw [← hC]
    exact Multiset.mem_add.mpr (.inl (Multiset.mem_sum.mpr ⟨i, Finset.mem_range.mpr hi, hmem⟩))
  obtain ⟨C', rfl⟩ := Multiset.exists_cons_of_mem hmemC
  have hloose : Loose s ((p, 8 * i) ::ₘ C') L used direct := ⟨regions, records, hheap, ⟨T, hT, hC, hmarked⟩, hfree, hused⟩
  exact ⟨p, rest, C', heq, hloose.rebin unlinkSmallChunk_same (fun hb => unlinkSmallChunk_binned hb hi hmem)
    (by rw [Multiset.cons_add, Multiset.add_cons])⟩

/-- A chunk of the trees. -/
theorem Loose.tree (h : Loose s C L used direct) :
    ∃ T, s.trees.Inv T ∧ ∀ c ∈ T, ∃ C', C = c ::ₘ C' ∧
        Loose { s with trees := s.trees.unlinkLargeChunk c.1 } C' (c ::ₘ L) used direct := by
  obtain ⟨T, hT, hC, -⟩ := h.choose_spec.choose_spec.2.1
  refine ⟨T, hT, fun c hc => ?_⟩
  have hmem : c ∈ C := by
    rw [← hC]
    exact Multiset.mem_add.mpr (.inr hc)
  obtain ⟨C', rfl⟩ := Multiset.exists_cons_of_mem hmem
  have hlarge : ¬ isSmall c.2 = true := by
    have := (hT.large c hc).1
    simp only [isSmall, decide_eq_true_eq, not_lt]
    omega
  have hun := Loose.unlink (p := c.1) (n := c.2) h
  rw [State.unlinkChunk, if_neg hlarge] at hun
  exact ⟨C', rfl, hun⟩

/-- A loose chunk in the place of `dv`. -/
theorem Loose.replaceDv (h : Loose s C ((p, n) ::ₘ dvPart s) used direct) (hdv : s.dvsize < 256) :
    Sound (s.replaceDv p n) used direct ∧ SameMemory s (s.replaceDv p n) := by
  have hn : n ≠ 0 := by
    have := h.bounds.2.2.1
    have : 0 < MIN_CHUNK_SIZE := by decide
    omega
  unfold State.replaceDv
  dsimp only
  split_ifs with hne
  · rw [dvPart_eq hne] at h
    have hins : Loose (s.insertSmallChunk s.dv s.dvsize) ((s.dv, s.dvsize) ::ₘ C) {(p, n)} used direct := by
      have hswap : (p, n) ::ₘ {(s.dv, s.dvsize)} = (s.dv, s.dvsize) ::ₘ {(p, n)} := Multiset.pair_comm _ _
      rw [hswap] at h
      have hins := h.insert
      rwa [State.insertChunk, if_pos (by simp only [isSmall, decide_eq_true_eq]; omega)] at hins
    refine ⟨⟨⟨(s.dv, s.dvsize) ::ₘ C, ?_⟩, fun h0 => absurd h0 hn⟩,
      insertSmallChunk_same.trans ⟨rfl, rfl, ⟨rfl, rfl⟩, rfl, rfl, rfl⟩⟩
    rw [dvPart_eq hn]
    exact hins.setDv p n
  · refine ⟨⟨⟨C, ?_⟩, fun h0 => absurd h0 hn⟩, ⟨rfl, rfl, ⟨rfl, rfl⟩, rfl, rfl, rfl⟩⟩
    rw [dvPart_eq hn]
    rw [dvPart, if_pos (not_not.mp hne)] at h
    exact h.setDv p n

/-! ### Requests -/

/-- What a chunk is asked for: its size is one that chunks have. -/
structure Request (nb : ℕ) : Prop where
  min : MIN_CHUNK_SIZE ≤ nb
  aligned : nb % 8 = 0
  lt : nb < 2 ^ 32

/-- A loose chunk is taken whole, where `dv` is as it was. -/
theorem Loose.serve (h : Loose s C ((p, n) ::ₘ dvPart s) used direct) (hdv : s.dvsize = 0 → s.dv = 0) (hle : nb ≤ n) {s₀ : State}
    (hkeep : Keeps s₀ s (used + ↑direct)) :
    Served s₀ used direct nb (s.setInuseAndPinuse p n, some (chunk2mem p)) := by
  obtain ⟨htake, hkeep'⟩ := h.take
  exact .chunk hle ⟨⟨C, htake⟩, hdv⟩ (hkeep.trans hkeep')

/-- The rest of a chunk becomes `dv`. -/
theorem Loose.serve_replaceDv (h : Loose s C ((p, n) ::ₘ dvPart s) used direct) (hnb : Request nb)
    (hrest : nb + MIN_CHUNK_SIZE ≤ n) (hdv : s.dvsize < 256) {s₀ : State} (hkeep : Keeps s₀ s (used + ↑direct)) :
    Served s₀ used direct nb
      (((s.setSizeAndPinuseOfInuseChunk p nb).setSizeAndPinuseOfFreeChunk (p + nb) (n - nb)).replaceDv (p + nb) (n - nb),
        some (chunk2mem p)) := by
  obtain ⟨hcut, hkeep'⟩ := h.cut hnb.min hnb.aligned hrest rfl
  obtain ⟨hsound, hsame⟩ := Loose.replaceDv hcut hdv
  exact .chunk le_rfl hsound (hkeep.trans (hkeep'.trans hsame.keeps))

/-- The rest of a chunk goes to a bin. -/
theorem Loose.serve_insert (h : Loose s C ((p, n) ::ₘ dvPart s) used direct) (hdv : s.dvsize = 0 → s.dv = 0) (hnb : Request nb)
    (hrest : nb + MIN_CHUNK_SIZE ≤ n) {s₀ : State} (hkeep : Keeps s₀ s (used + ↑direct)) :
    Served s₀ used direct nb
      (((s.setSizeAndPinuseOfInuseChunk p nb).setSizeAndPinuseOfFreeChunk (p + nb) (n - nb)).insertChunk (p + nb) (n - nb),
        some (chunk2mem p)) := by
  obtain ⟨hcut, hkeep'⟩ := h.cut hnb.min hnb.aligned hrest rfl
  exact .chunk le_rfl (Loose.insert_sound hcut hdv) (hkeep.trans (hkeep'.trans insertChunk_same.keeps))

theorem smallFit_spec (h : Sound s used direct) (hbits : s.smallmap >>> idx &&& 3#32 ≠ 0#32) :
    ∃ r, s.smallFit idx = .ok r ∧ Served s used direct (8 * idx) r := by
  obtain ⟨⟨C, hloose⟩, hdv⟩ := h
  rw [and_three_ne_zero, BitVec.getLsbD_ushiftRight, BitVec.getLsbD_ushiftRight] at hbits
  generalize hj : (if (s.smallmap >>> idx).getLsbD 0 then idx else idx + 1) = j
  have hbit : s.smallmap.getLsbD j = true ∧ idx ≤ j := by
    rw [BitVec.getLsbD_ushiftRight] at hj
    split_ifs at hj with h0
    · rw [← hj]
      exact ⟨h0, le_rfl⟩
    · rw [← hj]
      exact ⟨hbits.resolve_left h0, Nat.le_succ idx⟩
  have hj32 : j < 32 := BitVec.lt_of_getLsbD hbit.1
  obtain ⟨p, rest, C', heq, hloose'⟩ := hloose.firstSmall hj32 hbit.1
  refine ⟨_, ?_, Loose.serve (p := p) (n := 8 * j) (C := C') (s := s.unlinkSmallChunk p j) ?_ ?_ (by omega)
    unlinkSmallChunk_same.keeps⟩
  · unfold State.smallFit
    dsimp only
    rw [hj, heq]
  · rw [dvPart_congr unlinkSmallChunk_dv]
    exact hloose'
  · rw [unlinkSmallChunk_dv.1, unlinkSmallChunk_dv.2]
    exact hdv

theorem nextSmall_spec (h : Sound s used direct) (hnb : Request nb) (hsmall : nb < 256) (hdvsize : s.dvsize < nb)
    (hlow : ¬ s.smallmap >>> (nb / 8) &&& 3#32 ≠ 0#32) (hne : s.smallmap >>> (nb / 8) ≠ 0#32) :
    ∃ r, s.nextSmall nb (nb / 8) = .ok r ∧ Served s used direct nb r := by
  obtain ⟨⟨C, hloose⟩, -⟩ := h
  obtain ⟨i, hi, heq, hbit, hle⟩ := leftbits_spec hlow hne
  obtain ⟨p, rest, C', hbin, hloose'⟩ := hloose.firstSmall hi hbit
  have hmin : MIN_CHUNK_SIZE = 16 := rfl
  have hnb8 := hnb.aligned
  refine ⟨_, ?_, Loose.serve_replaceDv (p := p) (n := 8 * i) (C := C') (s := s.unlinkSmallChunk p i) ?_ hnb (by omega) ?_
    unlinkSmallChunk_same.keeps⟩
  · unfold State.nextSmall
    dsimp only
    rw [heq, hbin]
  · rw [dvPart_congr unlinkSmallChunk_dv]
    exact hloose'
  · rw [unlinkSmallChunk_dv.2]
    omega

theorem tmallocSmall_spec (h : Sound s used direct) (hnb : Request nb) (hsmall : nb ≤ 2 ^ 8) (hdvsize : s.dvsize < nb)
    (hmap : s.trees.treemap ≠ 0#32) :
    ∃ s' v, s.tmallocSmall nb = .ok (s', some v) ∧ Served s used direct nb (s', some v) := by
  obtain ⟨⟨C, hloose⟩, hdv⟩ := h
  obtain ⟨T, hT, hunlink⟩ := hloose.tree
  have hmin : MIN_CHUNK_SIZE = 16 := rfl
  have hnbmin := hnb.min
  obtain ⟨hbest, hsome⟩ := TreeBins.tmallocSmall_fits hT hmap (by omega) hsmall
  obtain ⟨⟨v, n⟩, hv⟩ := Option.ne_none_iff_exists'.mp hsome
  obtain ⟨hmem, hle, hrsize⟩ := hbest.some _ hv
  obtain ⟨C', rfl, hloose'⟩ := hunlink _ hmem
  obtain ⟨-, -, -, -, -, hleast⟩ := Loose.bounds hloose'
  dsimp only at hle hrsize hleast
  unfold State.tmallocSmall
  dsimp only
  rw [hv]
  dsimp only
  rw [if_pos ⟨hleast, by omega⟩, hrsize]
  split_ifs with hrest
  · refine ⟨_, _, rfl, ?_⟩
    rw [Nat.sub_add_cancel hle]
    exact Loose.serve hloose' hdv hle (SameMemory.keeps ⟨rfl, rfl, ⟨rfl, rfl⟩, rfl, rfl, rfl⟩)
  · exact ⟨_, _, rfl, Loose.serve_replaceDv hloose' hnb (by omega) (by dsimp only; omega)
      (SameMemory.keeps ⟨rfl, rfl, ⟨rfl, rfl⟩, rfl, rfl, rfl⟩)⟩

/-- Where the trees have nothing, or nothing that fits better than `dv`, nothing changes. -/
theorem tmallocLarge_spec (h : Sound s used direct) (hnb : Request nb) (hlarge : 2 ^ 8 ≤ nb) :
    ∃ r, s.tmallocLarge nb = .ok r ∧ (r = (s, none) ∨ r.2 ≠ none ∧ Served s used direct nb r) := by
  obtain ⟨⟨C, hloose⟩, hdv⟩ := h
  obtain ⟨T, hT, hunlink⟩ := hloose.tree
  have hmin : MIN_CHUNK_SIZE = 16 := rfl
  have hbest := TreeBins.tmallocLarge_fits hT hlarge hnb.lt
  unfold State.tmallocLarge
  dsimp only
  cases hv : (s.trees.tmallocLarge nb).v with
  | none => exact ⟨_, rfl, .inl rfl⟩
  | some c =>
    obtain ⟨v, n⟩ := c
    obtain ⟨hmem, hle, hrsize⟩ := hbest.some _ hv
    obtain ⟨C', rfl, hloose'⟩ := hunlink _ hmem
    obtain ⟨-, -, -, -, -, hleast⟩ := Loose.bounds hloose'
    dsimp only at hle hrsize hleast ⊢
    rw [hrsize]
    split_ifs with hbetter haddr hrest
    · refine ⟨_, rfl, .inr ⟨by simp, ?_⟩⟩
      rw [Nat.sub_add_cancel hle]
      exact Loose.serve hloose' hdv hle (SameMemory.keeps ⟨rfl, rfl, ⟨rfl, rfl⟩, rfl, rfl, rfl⟩)
    · exact ⟨_, rfl, .inr ⟨by simp, Loose.serve_insert hloose' hdv hnb (by omega)
        (SameMemory.keeps ⟨rfl, rfl, ⟨rfl, rfl⟩, rfl, rfl, rfl⟩)⟩⟩
    · exact absurd ⟨hleast, by omega⟩ haddr
    · exact ⟨_, rfl, .inl rfl⟩

theorem cut_comm (hnb : 0 < nb) (r : ℕ) : (s.setSizeAndPinuseOfFreeChunk (p + nb) r).setSizeAndPinuseOfInuseChunk p nb =
    (s.setSizeAndPinuseOfInuseChunk p nb).setSizeAndPinuseOfFreeChunk (p + nb) r := by
  simp only [State.setSizeAndPinuseOfFreeChunk, State.setSizeAndPinuseOfInuseChunk, State.setHead, State.setFoot,
    Function.update_comm (by omega : p + nb ≠ p)]

theorem splitDv_spec (h : Sound s used direct) (hnb : Request nb) (hle : nb ≤ s.dvsize) :
    Served s used direct nb (s.splitDv nb) := by
  obtain ⟨⟨C, hloose⟩, -⟩ := h
  have hmin : MIN_CHUNK_SIZE = 16 := rfl
  have hnbmin := hnb.min
  rw [dvPart_eq (by omega)] at hloose
  unfold State.splitDv
  dsimp only
  split_ifs with hrest
  · rw [cut_comm (by omega)]
    obtain ⟨hcut, hkeep⟩ := Loose.cut (L := 0) hloose hnb.min hnb.aligned (by omega) rfl
    refine .chunk le_rfl ⟨⟨C, ?_⟩, fun h0 => ?_⟩ hkeep
    · have hrsize : s.dvsize - nb ≠ 0 := by omega
      rw [dvPart_eq (by exact hrsize)]
      exact hcut.setDv (s.dv + nb) (s.dvsize - nb)
    · dsimp only [State.setSizeAndPinuseOfFreeChunk, State.setSizeAndPinuseOfInuseChunk, State.setHead, State.setFoot] at h0
      omega
  · obtain ⟨htake, hkeep⟩ := Loose.take (L := 0) hloose
    exact .chunk hle ⟨⟨C, htake.setDv 0 0⟩, fun _ => rfl⟩ hkeep

theorem splitTop_spec (h : Sound s used direct) (hnb : Request nb) (hlt : nb < s.topsize) :
    Served s used direct nb (s.splitTop nb) := by
  obtain ⟨⟨C, hloose⟩, hdv⟩ := h
  obtain ⟨hcut, hkeep⟩ := hloose.cutTop hnb.min hnb.aligned hlt
  exact .chunk le_rfl ⟨⟨C, hcut⟩, hdv⟩ hkeep

end Bionic.Dlmalloc
