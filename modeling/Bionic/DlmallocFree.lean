import Bionic.DlmallocTrim

/-! # Freeing chunks

A chunk that is freed is merged with the free one in front of it, and with the free one behind it or with `top`, which is trimmed
where it is large. -/

namespace Bionic.Dlmalloc

variable {s s' : State} {R : Region} {A B regions : List Region} {direct : List (ℕ × ℕ)}
  {records used C D L : Multiset (ℕ × ℕ)} {l M r bs : List Block} {m : Params} {ans : TrimAnswer} {p n k : ℕ}

/-- The chunk in front is free: the size behind it leads to its head. -/
theorem Frag.last_free {head : ℕ → Head} {foot : ℕ → ℕ} {a e : ℕ} (h : Frag head foot a true bs e false) :
    ∃ l k, bs = l ++ [⟨k, false⟩] ∧ Frag head foot a true l (a + total l) true ∧ foot e = k ∧ e = a + total l + k ∧
      MIN_CHUNK_SIZE ≤ k ∧ k % 8 = 0 := by
  rcases List.eq_nil_or_concat' bs with rfl | ⟨l, b, rfl⟩
  · cases h.2
  · obtain ⟨pm, hl, hb⟩ := frag_append.mp h
    obtain ⟨hhd, hmin, h8, hfree, hend, hpout⟩ := hb
    obtain ⟨k, u⟩ := b
    dsimp only at hpout
    subst hpout
    obtain ⟨rfl, hfoot⟩ := hfree rfl
    dsimp only at hfoot hend hmin h8
    exact ⟨l, k, rfl, hl, by rw [← hend, hfoot], hend.symm, hmin, h8⟩

/-- What has been merged is one free chunk that is in no bin yet. -/
theorem Heap.release_loose (h : Heap s (A ++ R :: B) records direct) (hblocks : R.blocks = l ++ (M ++ r))
    (hat : p = R.seg.base + total l) (hl : Frag s.head s.prevFoot R.seg.base true l p true)
    (hM : MIN_CHUNK_SIZE ≤ total M ∧ total M % 8 = 0) {pq : Bool} (hr : Frag s.head s.prevFoot (p + total M) pq r R.stop true)
    (hne : r ≠ []) (hfirst : ∀ b ∈ r.head?, b.inuse = true)
    (hhead : ∀ x, s'.head x = if x = p then ⟨total M, true, false⟩ else
      if x = p + total M then { s.head x with pinuse := false } else s.head x)
    (hfoot : ∀ x, s'.prevFoot x = if x = p + total M then total M else s.prevFoot x)
    (hsame : (s'.seg = s.seg ∧ s'.contiguous = s.contiguous) ∧ s'.leastAddr = s.leastAddr ∧ s'.top = s.top ∧
      s'.topsize = s.topsize) (hbin : Binned s' C)
    (hfree : chunksOf false (A ++ R :: B) = blocksOf false p M + (L + C))
    (hused : chunksOf true (A ++ R :: B) = blocksOf true p M + (used + records)) :
    Loose s' C ((p, total M) ::ₘ L) used direct ∧ Keeps s s' (used + ↑direct) := by
  have hmin : MIN_CHUNK_SIZE = 16 := rfl
  obtain ⟨regions', hheap', hfree', hused'⟩ := h.release (h.ok R (by simp)) hblocks hat hl hM hr hne hfirst
    (fun x hx => by rw [hhead, if_neg (by omega), if_neg (by omega)]) (by rw [hhead, if_pos rfl])
    (by rw [hhead, if_neg (by omega), if_pos rfl]) hfoot hsame
  have hfree'' : chunksOf false regions' = (p, total M) ::ₘ L + C := by
    rw [hfree, ← Multiset.add_cons, add_comm] at hfree'
    rw [Multiset.cons_add]
    exact add_left_cancel hfree'
  have hused'' : chunksOf true regions' = used + records := by
    rw [hused, add_comm] at hused'
    exact add_left_cancel hused'
  refine ⟨⟨regions', records, hheap', hbin, hfree'', hused''⟩, ?_⟩
  refine keeps_of_range (a := p) (e := p + total M) (fun x hx => ?_) (fun x hx => ?_)
    fun c hc _ => hheap'.inuse_apart (d := (p, total M)) hused'' (by rw [hfree'']; simp) hc
  · rw [hhead, if_neg (by omega), if_neg (by omega)]
  · rw [hfoot, if_neg (by omega)]

/-- A chunk that is freed, with the free one in front of it, as it stands in its segment: `M` from `p` on. -/
structure Freed (s : State) (A : List Region) (R : Region) (B : List Region) (records used C D : Multiset (ℕ × ℕ))
    (direct : List (ℕ × ℕ)) (p : ℕ) (l M r : List Block) : Prop where
  heap : Heap s (A ++ R :: B) records direct
  blocks : R.blocks = l ++ (M ++ r)
  place : p = R.seg.base + total l
  front : Frag s.head s.prevFoot R.seg.base true l p true
  back : Frag s.head s.prevFoot (p + total M) true r R.stop true
  size : MIN_CHUNK_SIZE ≤ total M ∧ total M % 8 = 0
  binned : Binned s C
  free : chunksOf false (A ++ R :: B) = blocksOf false p M + (D + C)
  inuse : chunksOf true (A ++ R :: B) = blocksOf true p M + (used + records)
  dv : s.dvsize = 0 → s.dv = 0
  /-- `dv` is elsewhere, or in front of the chunk that is freed. -/
  loose : s.dv ≠ p ∧ D = dvPart s ∨ s.dv = p ∧ D = 0
  last : r = [] → p + total M = s.top

namespace Freed

/-- The chunk behind is in use. -/
theorem behind_inuse (h : Freed s A R B records used C D direct p l M r) {b : Block} {rest : List Block} (hr : r = b :: rest)
    (hb : b.inuse = true) : Loose (s.setFreeWithPinuse p (total M) (p + total M)) C ((p, total M) ::ₘ D) used direct ∧
      Keeps s (s.setFreeWithPinuse p (total M) (p + total M)) (used + ↑direct) := by
  subst hr
  refine h.heap.release_loose h.blocks h.place h.front h.size h.back (by simp) (fun c hc => Option.some.inj hc ▸ hb) (fun x => ?_)
    (fun x => State.setFreeWithPinuse_prevFoot ..) ⟨⟨rfl, rfl⟩, rfl, rfl, rfl⟩ h.binned h.free h.inuse
  rw [State.setFreeWithPinuse_head]
  split_ifs with h₁ h₂
  · rfl
  · rw [h₂]
  · rfl

/-- The free chunk behind is merged, too. -/
theorem behind_free (h : Freed s A R B records used C D direct p l M r) {rest : List Block} (hr : r = ⟨k, false⟩ :: rest)
    {t : State} (hsame : SameMemory s t) {E L : Multiset (ℕ × ℕ)} (hbin : Binned t E)
    (hC : D + C = {(p + total M, k)} + (L + E)) :
    Loose (t.setSizeAndPinuseOfFreeChunk p (total M + k)) E ((p, total M + k) ::ₘ L) used direct ∧
      Keeps s (t.setSizeAndPinuseOfFreeChunk p (total M + k)) (used + ↑direct) := by
  subst hr
  have hsum : total (M ++ [⟨k, false⟩]) = total M + k := by simp
  obtain ⟨hhd, hmin, h8, -, hback⟩ := h.back
  dsimp only at hmin h8 hback
  have hsize := h.size
  have hnext : (s.head (p + (total M + k))).pinuse = false := by
    rw [← Nat.add_assoc]
    cases rest with
    | nil => cases hback.2
    | cons b rest => rw [hback.1]
  have hmin16 : MIN_CHUNK_SIZE = 16 := rfl
  have hbin' : Binned (t.setSizeAndPinuseOfFreeChunk p (total M + k)) E := hbin
  rw [← hsum] at hbin' ⊢
  refine h.heap.release_loose (M := M ++ [⟨k, false⟩]) (r := rest) (by rw [h.blocks]; simp) h.place h.front ⟨by omega, by omega⟩
    (by rw [hsum, ← Nat.add_assoc]; exact hback) hback.ne_nil hback.first_inuse (fun x => ?_) (fun x => ?_)
    ?_ hbin' ?_ ?_
  · rw [State.setSizeAndPinuseOfFreeChunk_head, hsame.head, hsum]
    split_ifs with h₁ h₂
    · rfl
    · rw [h₂, free_pinuse hnext]
    · rfl
  · rw [State.setSizeAndPinuseOfFreeChunk_prevFoot, hsame.prevFoot]
  · exact ⟨hsame.seg, hsame.leastAddr, hsame.top, hsame.topsize⟩
  · rw [h.free, hC, blocksOf_append]
    simp only [blocksOf, if_true, add_zero]
    abel
  · rw [h.inuse, blocksOf_append]
    simp [blocksOf]

/-- `top` is behind, and takes everything in. -/
theorem behind_top (h : Freed s A R B records used C D direct p l M r) (hr : r = []) {t : State}
    (hhead : ∀ x, t.head x = if x = p then ⟨s.topsize + total M, true, false⟩ else s.head x)
    (hfoot : t.prevFoot = s.prevFoot)
    (hsame : (t.seg = s.seg ∧ t.contiguous = s.contiguous) ∧ t.leastAddr = s.leastAddr ∧ t.top = p ∧
      t.topsize = s.topsize + total M)
    (hbin : Binned t C) : Loose t C D used direct ∧ Keeps s t (used + ↑direct) := by
  subst hr
  have hok := h.heap.ok R (by simp)
  have hstop : R.stop = p + total M := by
    rw [Region.stop, h.blocks, h.place]
    simp [Nat.add_assoc]
  have hbase : R.stop = R.seg.base + total R.blocks := rfl
  have hroom := hok.room
  have hlow := hok.low
  have hlast := h.last rfl
  have hhas := h.heap.hasTop (by omega) (by omega)
  obtain ⟨regions', hheap', hfree', hused'⟩ := h.heap.releaseTop hok hhas (by rw [h.blocks, List.append_nil]) h.place h.front
    (fun x hx => by rw [hhead, if_neg hx]) (by rw [hhead, if_pos rfl]) (fun x => congrFun hfoot x) hsame
  have hused'' : chunksOf true regions' = used + records := by
    rw [h.inuse, add_comm] at hused'
    exact add_left_cancel hused'
  refine ⟨⟨regions', records, hheap', hbin, ?_, hused''⟩, ?_⟩
  · rw [h.free, add_comm] at hfree'
    exact add_left_cancel hfree'
  · have hp : t.top ≠ 0 := by
      have := h.place
      rw [hsame.2.2.1]
      omega
    refine keeps_of_range (a := p) (e := p) (fun x hx => by rw [hhead, if_neg (by omega)]) (fun x _ => congrFun hfoot x)
      fun c hc _ => ?_
    have := hheap'.inuse_top_apart hused'' hp hc
    rw [hsame.2.2.1] at this
    omega

/-- What comes behind: `top`, or a chunk. -/
theorem behind (h : Freed s A R B records used C D direct p l M r) :
    r = [] ∧ p + total M = s.top ∧ s.head s.top = ⟨s.topsize, true, false⟩ ∨
      ∃ k u rest, r = ⟨k, u⟩ :: rest ∧ s.head (p + total M) = ⟨k, true, u⟩ ∧ p + total M ≠ s.top ∧
        (u = false → (p + total M, k) ∈ D + C) := by
  have hok := h.heap.ok R (by simp)
  have hstop : R.stop = p + total M + total r := by
    rw [Region.stop, h.blocks, h.place]
    simp [Nat.add_assoc]
  have hbase : R.stop = R.seg.base + total R.blocks := rfl
  have hroom := hok.room
  have hplace := h.place
  have hmin : MIN_CHUNK_SIZE = 16 := rfl
  cases hr : r with
  | nil =>
    rw [hr, total_nil] at hstop
    have hlast := h.last hr
    exact .inl ⟨rfl, hlast, (h.heap.hasTop (by omega) (by omega)).head⟩
  | cons b rest =>
    obtain ⟨k, u⟩ := b
    rw [hr, total_cons] at hstop
    have hback := h.back
    rw [hr] at hback
    have hk := hback.2.1
    dsimp only at hk hstop
    refine .inr ⟨k, u, rest, rfl, hback.1, fun htop => ?_, fun hu => ?_⟩
    · have := (h.heap.hasTop (by omega) (by omega)).stop
      omega
    · subst hu
      have hmem : (p + total M, k) ∈ chunksOf false (A ++ R :: B) := by
        rw [chunksOf_middle, h.blocks, hr, blocksOf_append, blocksOf_append, ← h.place]
        simp [blocksOf]
      rw [h.free, Multiset.mem_add] at hmem
      refine hmem.resolve_left fun hM => ?_
      have := (blocksOf_range _ hM).2
      dsimp only at this
      omega

end Freed

theorem consolidate_spec (h : Freed s A R B records used C D direct p l M r)
    (hdv : s.dv = p → ∀ b ∈ r.head?, b.inuse = false) (hans : ans.Ok) :
    ∃ s', s.consolidate m p (total M) (p + total M) ans = .ok s' ∧ Sound s' used direct ∧ Keeps s s' (used + ↑direct) := by
  have hsize := h.size.1
  have hmin : MIN_CHUNK_SIZE = 16 := rfl
  have hlt : p < p + total M := by omega
  unfold State.consolidate
  rcases h.behind with ⟨hr, hnext, hhd⟩ | ⟨k, u, rest, hr, hhd, hntop, hmem⟩
  · rw [hnext, hhd, if_pos ⟨by omega, rfl⟩, if_pos (by simp), if_pos rfl]
    obtain ⟨hloose, hkeep⟩ := h.behind_top hr (t := { s with topsize := s.topsize + total M, top := p }.setHead p
      ⟨s.topsize + total M, true, false⟩) (fun x => State.setHead_head ..) rfl ⟨⟨rfl, rfl⟩, rfl, rfl, rfl⟩ h.binned
    refine ⟨_, rfl, ?_⟩
    generalize hs₁ : (if p = _ then _ else _ : State) = s₁
    have hsound : Sound s₁ used direct ∧ Keeps s s₁ (used + ↑direct) := by
      rw [← hs₁]
      rcases h.loose with ⟨hne, rfl⟩ | ⟨heq, rfl⟩
      · rw [if_neg (fun heq => hne heq.symm)]
        exact ⟨⟨⟨C, hloose⟩, h.dv⟩, hkeep⟩
      · rw [if_pos (by exact heq.symm)]
        exact ⟨⟨⟨C, hloose.setDv 0 0⟩, fun _ => rfl⟩, hkeep⟩
    split_ifs
    · obtain ⟨htrim, hkeep'⟩ := sysTrim_spec (m := m) hsound.1 hans
      exact ⟨htrim, hsound.2.trans hkeep'⟩
    · exact hsound
  · rw [hhd, if_pos ⟨hlt, rfl⟩]
    cases u with
    | true =>
      rw [if_neg (by simp)]
      rcases h.loose with ⟨hne, rfl⟩ | ⟨heq, -⟩
      · obtain ⟨hloose, hkeep⟩ := h.behind_inuse hr rfl
        exact ⟨_, rfl, Loose.insert_sound hloose h.dv, hkeep.trans insertChunk_same.keeps⟩
      · exact absurd (hdv heq ⟨k, true⟩ (by rw [hr]; rfl)) (by simp)
    | false =>
      rw [if_pos (by simp), if_neg hntop]
      have hchunk : (p + total M, k) ∈ chunksOf false (A ++ R :: B) := by
        rw [h.free]
        exact Multiset.mem_add.mpr (.inr (hmem rfl))
      by_cases hnextdv : p + total M = s.dv
      · rw [if_pos hnextdv]
        rcases h.loose with ⟨-, rfl⟩ | ⟨heq, -⟩
        · have hle : dvPart s ≤ chunksOf false (A ++ R :: B) :=
            ((Multiset.le_add_right _ _).trans (Multiset.le_add_left _ _)).trans_eq h.free.symm
          obtain ⟨hdvsize, rfl, -⟩ := h.heap.chunk_at_dv hle h.dv hchunk hnextdv
          have hpart := dvPart_eq hdvsize
          obtain ⟨hloose, hkeep⟩ := h.behind_free hr (t := { s with dvsize := s.dvsize + total M, dv := p })
            ⟨rfl, rfl, ⟨rfl, rfl⟩, rfl, rfl, rfl⟩ (E := C) (L := 0) h.binned (by rw [hpart, hnextdv, zero_add])
          rw [Nat.add_comm (total M)] at hloose hkeep
          have hne : s.dvsize + total M ≠ 0 := by omega
          refine ⟨_, rfl, ⟨⟨C, ?_⟩, fun h0 => absurd h0 hne⟩, hkeep⟩
          rw [dvPart_eq (by exact hne)]
          exact hloose
        · omega
      · have hmemC : (p + total M, k) ∈ C := by
          refine (Multiset.mem_add.mp (hmem rfl)).resolve_left fun hD => ?_
          rcases h.loose with ⟨-, rfl⟩ | ⟨-, rfl⟩
          · exact hnextdv (mem_dvPart hD)
          · exact Multiset.notMem_zero _ hD
        obtain ⟨C', rfl⟩ := Multiset.exists_cons_of_mem hmemC
        have hdv' := unlinkChunk_dv (s := s) (p := p + total M) (n := k)
        obtain ⟨hloose, hkeep⟩ := h.behind_free hr (E := C') (L := D) unlinkChunk_same (unlinkChunk_binned h.binned)
          (by rw [← Multiset.singleton_add]; abel)
        have hsize' : s.chunksize (p + total M) = k := by rw [State.chunksize, hhd]
        rw [if_neg hnextdv]
        dsimp only
        rw [hsize']
        generalize s.unlinkChunk (p + total M) k = s₁ at *
        refine ⟨_, rfl, ?_⟩
        rcases h.loose with ⟨hne, rfl⟩ | ⟨heq, rfl⟩
        · rw [if_neg fun heq => hne (hdv'.1.symm.trans heq.symm)]
          refine ⟨Loose.insert_sound (C := C') ?_ fun h0 => hdv'.1.trans (h.dv (hdv'.2.symm.trans h0)),
            hkeep.trans insertChunk_same.keeps⟩
          have hpart : dvPart (s₁.setSizeAndPinuseOfFreeChunk p (total M + k)) = dvPart s := dvPart_congr hdv'
          rw [hpart]
          exact hloose
        · have hp : (s₁.setSizeAndPinuseOfFreeChunk p (total M + k)).dv = p := hdv'.1.trans heq
          have hne : total M + k ≠ 0 := by omega
          rw [if_pos hp.symm]
          refine ⟨⟨⟨C', ?_⟩, fun h0 => absurd h0 hne⟩, hkeep⟩
          rw [dvPart_eq (by exact hne)]
          dsimp only
          rw [hp]
          exact hloose.setDv p (total M + k)

/-- A record of a segment is not in use otherwise. -/
theorem last_of_used {records : Multiset (ℕ × ℕ)} (h : Heap s (A ++ R :: B) records direct)
    (hused : chunksOf true (A ++ R :: B) = (p, n) ::ₘ used + records) (hblocks : R.blocks = l ++ [⟨n, true⟩])
    (hat : p = R.seg.base + total l) : p + n = s.top := by
  rcases h.closed R (by simp) with hstop | ⟨l', hl', hrec⟩
  · rw [← hstop, Region.stop, hblocks, hat]
    simp [Nat.add_assoc]
  · exfalso
    rw [hblocks] at hl'
    obtain ⟨rfl, -⟩ := List.append_inj' hl' rfl
    rw [← hat] at hrec
    have hnodup := h.nodup (k := true)
    rw [hused, Multiset.cons_add, Multiset.map_cons, Multiset.nodup_cons] at hnodup
    exact hnodup.1 (Multiset.mem_map.mpr ⟨_, Multiset.mem_add.mpr (.inr hrec), rfl⟩)

theorem dlfree_spec (m : Params) (h : Sound s ((p, n) ::ₘ used) direct) (hans : ans.Ok) :
    ∃ s', s.dlfree m (chunk2mem p) ans = .ok s' ∧ Sound s' used direct ∧ Keeps s s' (used + ↑direct) := by
  obtain ⟨⟨C, regions, records, hheap, hbin, hfree, hused⟩, hdv⟩ := h
  have hmin : MIN_CHUNK_SIZE = 16 := rfl
  have hmem : (p, n) ∈ chunksOf true regions := by
    rw [hused]
    simp
  obtain ⟨hp8, -, hn, hn8, -, hleast⟩ := hheap.chunk hmem
  obtain ⟨A, R, B, l, r, pm, rfl, hok, hblocks, hat, hl, hhd, -, -, -, hr⟩ := hheap.split hmem
  dsimp only at hp8 hn hn8 hleast hhd hr
  have hnil : r = [] → p + n = s.top := fun hr0 => last_of_used hheap hused (by rw [hblocks, hr0]) hat
  have hdvle : dvPart s ≤ chunksOf false (A ++ R :: B) := (Multiset.le_add_right _ _).trans_eq hfree.symm
  unfold State.dlfree
  dsimp only
  rw [if_neg (by rw [chunk2mem]; omega), show mem2chunk (chunk2mem p) = p from Nat.add_sub_cancel p 8, State.chunksize, hhd,
    if_pos ⟨hleast, rfl⟩]
  cases pm with
  | true =>
    rw [if_neg (by simp)]
    have hpdv : s.dv ≠ p := fun heq => absurd (hheap.chunk_at_dv hdvle hdv hmem heq.symm).2.2 (by simp)
    have hfreed : Freed s A R B records used C (dvPart s) direct p l [⟨n, true⟩] r := by
      refine ⟨hheap, by rw [hblocks]; rfl, hat, hl, hr, ⟨hn, hn8⟩, hbin, ?_, ?_, hdv, .inl ⟨hpdv, rfl⟩, hnil⟩
      · rw [hfree]
        simp [blocksOf]
      · rw [hused]
        simp [blocksOf]
    exact consolidate_spec hfreed (fun heq => absurd heq hpdv) hans
  | false =>
    rw [if_pos (by simp)]
    obtain ⟨l', k, rfl, hl', hfoot, hpk, hk, hk8⟩ := hl.last_free
    have hprev : p - k = R.seg.base + total l' := by omega
    rw [← hprev] at hl'
    have hblocks' : R.blocks = l' ++ ([⟨k, false⟩, ⟨n, true⟩] ++ r) := by rw [hblocks]; simp
    have hsum : total [⟨k, false⟩, ⟨n, true⟩] = n + k := by
      simp only [total_cons, total_nil]
      omega
    have hnext : p + n = p - k + (n + k) := by omega
    have hkmem : (p - k, k) ∈ chunksOf false (A ++ R :: B) := by
      rw [chunksOf_middle, hblocks', blocksOf_append, ← hprev]
      simp [blocksOf]
    have hleast' := (hheap.chunk hkmem).2.2.2.2.2
    have hpart : blocksOf false (p - k) [⟨k, false⟩, ⟨n, true⟩] = {(p - k, k)} := by simp [blocksOf]
    have hpart' : blocksOf true (p - k) [⟨k, false⟩, ⟨n, true⟩] = {(p, n)} := by
      simp only [blocksOf, Bool.false_eq_true, if_false, if_true, zero_add, add_zero, show p - k + k = p by omega]
    rw [hfoot, if_neg (by omega), if_pos hleast', hnext]
    have hr' : Frag s.head s.prevFoot (p - k + (n + k)) true r R.stop true := by rwa [← hnext]
    by_cases hpdv : p - k = s.dv
    · rw [if_neg (by simpa using hpdv)]
      obtain ⟨hdvsize, hkdv, -⟩ := hheap.chunk_at_dv hdvle hdv hkmem hpdv
      have hfreed : Freed s A R B records used C 0 direct (p - k) l' [⟨k, false⟩, ⟨n, true⟩] r := by
        refine ⟨hheap, hblocks', hprev, hl', by rwa [hsum], by rw [hsum]; omega, hbin, ?_, ?_, hdv, .inr ⟨hpdv.symm, rfl⟩, ?_⟩
        · rw [hfree, hpart, dvPart_eq hdvsize, ← hpdv, ← hkdv, zero_add]
        · rw [hused, hpart', Multiset.cons_add, Multiset.singleton_add]
        · rw [hsum, ← hnext]
          exact hnil
      split_ifs with huse
      · refine ⟨_, rfl, ?_⟩
        rcases hfreed.behind with ⟨-, htop, hhd'⟩ | ⟨k', u, rest, hrest, hhd', -⟩
        · rw [← hsum, htop, hhd'] at huse
          exact absurd huse.2 (by simp)
        · rw [← hsum, hhd'] at huse
          obtain ⟨hloose, hkeep⟩ := hfreed.behind_inuse hrest huse.2
          rw [hsum] at hloose hkeep
          have hne : n + k ≠ 0 := by omega
          refine ⟨⟨⟨C, ?_⟩, fun h0 => absurd h0 hne⟩, hkeep⟩
          rw [dvPart_eq (by exact hne)]
          have hnew := hloose.setDv (p - k) (n + k)
          rw [hpdv] at hnew ⊢
          exact hnew
      · have := consolidate_spec (m := m) hfreed (fun _ b hb => ?_) hans
        · rwa [hsum] at this
        · by_contra hbuse
          rw [Bool.not_eq_false] at hbuse
          refine huse ?_
          cases r with
          | nil => cases hb
          | cons c rest =>
            cases hb
            rw [hr'.1]
            exact ⟨rfl, hbuse⟩
    · rw [if_pos hpdv]
      have hmemC : (p - k, k) ∈ C := by
        rw [hfree, Multiset.mem_add] at hkmem
        exact hkmem.resolve_left fun hd => hpdv (mem_dvPart hd)
      obtain ⟨C', rfl⟩ := Multiset.exists_cons_of_mem hmemC
      have hsame := unlinkChunk_same (s := s) (p := p - k) (n := k)
      have hdv' := unlinkChunk_dv (s := s) (p := p - k) (n := k)
      have hbin' := unlinkChunk_binned hbin
      generalize s.unlinkChunk (p - k) k = s₁ at *
      have hpart₁ := dvPart_congr hdv'
      have hfreed : Freed s₁ A R B records used C' (dvPart s₁) direct (p - k) l' [⟨k, false⟩, ⟨n, true⟩] r := by
        refine ⟨hheap.congr hsame, hblocks', hprev, by rwa [hsame.head, hsame.prevFoot], by rwa [hsum, hsame.head, hsame.prevFoot],
          by rw [hsum]; omega, hbin', ?_, ?_, fun h0 => hdv'.1.trans (hdv (hdv'.2.symm.trans h0)),
          .inl ⟨fun heq => hpdv (heq.symm.trans hdv'.1), rfl⟩, ?_⟩
        · rw [hfree, hpart, hpart₁, ← Multiset.singleton_add]
          abel
        · rw [hused, hpart', Multiset.cons_add, Multiset.singleton_add]
        · rw [hsum, ← hnext, hsame.top]
          exact hnil
      obtain ⟨s', heq, hsound, hkeep⟩ := consolidate_spec (m := m) hfreed
        (fun heq => absurd heq fun heq => hpdv (heq.symm.trans hdv'.1)) hans
      rw [hsum] at heq
      exact ⟨s', heq, hsound, hsame.keeps.trans hkeep⟩

/-- A chunk with a mapping of its own leaves the heap as it is; below `least_addr` it is taken for a wrong address. -/
theorem dlfree_mapped (m : Params) (ans : TrimAnswer) {l r : List (ℕ × ℕ)} (h : Sound s used (l ++ (p, n) :: r)) :
    s.dlfree m (chunk2mem p) ans = (if s.leastAddr ≤ p then .ok s else .error .usage) ∧ Sound s used (l ++ r) := by
  obtain ⟨⟨C, regions, records, hheap, hbin, hfree, hused⟩, hdv⟩ := h
  obtain ⟨hhd, hfoot, hlow, -, -, -⟩ := hheap.mapped (p, n) (by simp)
  dsimp only at hhd hfoot hlow
  constructor
  · unfold State.dlfree
    dsimp only
    rw [if_neg (by rw [chunk2mem]; omega), show mem2chunk (chunk2mem p) = p from Nat.add_sub_cancel p 8, hhd]
    by_cases hleast : s.leastAddr ≤ p
    · rw [if_pos ⟨hleast, rfl⟩, if_pos (by simp), hfoot, if_pos rfl, if_pos hleast]
    · rw [if_neg fun hcheck => hleast hcheck.1, if_neg hleast]
  · refine ⟨⟨C, regions, records, ⟨hheap.seg, hheap.apart, hheap.ok, hheap.top, hheap.first, hheap.closed, hheap.least, hheap.paged,
      fun c hc => ?_, ?_⟩, hbin, hfree, hused⟩, hdv⟩
    · exact hheap.mapped c (mem_middle.mpr (.inr (List.mem_append.mp hc)))
    · exact hheap.mappedApart.sublist (List.Sublist.append_left (List.sublist_cons_self _ _) l)

end Bionic.Dlmalloc
