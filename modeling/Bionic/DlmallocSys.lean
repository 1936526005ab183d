import Bionic.DlmallocMalloc

/-! # Memory from the system

`sys_alloc` makes a first segment of it, or adds it to the end of the segment of `top` or to the front of some segment, or
makes a segment of its own of it; a large chunk has a mapping of its own. -/

namespace Bionic.Dlmalloc

/-- Memory that is not in use by the allocator. -/
structure Unused (s : State) (direct : List (ℕ × ℕ)) (base size : ℕ) : Prop where
  low : 8 ≤ base
  high : base + size ≤ 2 ^ 32
  begins : base % 8 = 0
  apart (sp : Segment) : sp ∈ s.seg → base + size ≤ sp.base ∨ sp.base + sp.size ≤ base
  mapped (c : ℕ × ℕ) : c ∈ direct → base + size ≤ c.1 ∨ c.1 + c.2 + MMAP_FOOT_PAD ≤ base

/-- Its size is one that segments have. -/
structure Fresh (s : State) (direct : List (ℕ × ℕ)) (base size : ℕ) : Prop extends Unused s direct base size where
  aligned : base % 8 = 0 ∧ size % 8 = 0

variable {s s' : State} {R R' : Region} {A B regions : List Region} {direct : List (ℕ × ℕ)}
  {records used : Multiset (ℕ × ℕ)} {bs M r : List Block} {m : Params} {tbase tsize nb p n : ℕ} {mmapped k : Bool}

theorem Fresh.size_add (hf : Fresh s direct tbase tsize) (hn : n % 8 = 0) : (n + tsize) % 8 = 0 := by
  rw [Nat.add_mod, hn, hf.aligned.2]

/-- There is room for the end of a segment. -/
theorem Fresh.sub32_foot (hf : Fresh s direct tbase tsize) (hroom : TOP_FOOT_SIZE < tsize) :
    sub32 tsize TOP_FOOT_SIZE = tsize - TOP_FOOT_SIZE := by
  have := hf.low
  have := hf.high
  unfold sub32
  omega

theorem alignOffset_eq {a : ℕ} (h : a % 8 = 0) : alignOffset a = 0 := if_pos h

theorem alignAsChunk_eq {a : ℕ} (h : a % 8 = 0) : alignAsChunk a = a := by
  rw [alignAsChunk, alignOffset_eq (by rw [chunk2mem]; omega), add_zero]

theorem initTop_eq (h : p % 8 = 0) : s.initTop m p n =
    ({ s with top := p, topsize := n, trimCheck := m.trimThreshold }.setHead p ⟨n, true, false⟩).setHead (p + n)
      ⟨TOP_FOOT_SIZE, false, false⟩ := by
  rw [State.initTop, alignOffset_eq (by rw [chunk2mem]; omega)]
  rfl

theorem initTop_spec (h : p % 8 = 0) {s₀ : State} (hs : s₀ = s.initTop m p n) : s₀.top = p ∧ s₀.topsize = n ∧
    s₀.prevFoot = s.prevFoot ∧ (s₀.seg = s.seg ∧ s₀.contiguous = s.contiguous) ∧ s₀.leastAddr = s.leastAddr ∧ ∀ x, s₀.head x =
      if x = p + n then ⟨TOP_FOOT_SIZE, false, false⟩ else if x = p then ⟨n, true, false⟩ else s.head x := by
  rw [hs, initTop_eq h]
  exact ⟨rfl, rfl, rfl, ⟨rfl, rfl⟩, rfl, fun x => by rw [State.setHead_head, State.setHead_head]⟩

/-! ### The first segment -/

theorem Heap.regions_nil (h : Heap s regions records direct) (htop : s.top = 0) : regions = [] := by
  rcases h.top with ⟨-, -, hnil⟩ | ⟨R, hR, hhas⟩
  · exact hnil
  · have := (h.ok R hR).low
    have hstop : R.stop = R.seg.base + total R.blocks := rfl
    have := hhas.stop
    omega

/-- The state of the heap with the first segment. -/
def firstSegment (s : State) (m : Params) (tbase tsize : ℕ) (mmapped : Bool) : State :=
  { s with seg := [⟨tbase, tsize, mmapped⟩], leastAddr := tbase }.initTop m tbase (tsize - TOP_FOOT_SIZE)

theorem Heap.start (h : Heap s regions records direct) (hf : Fresh s direct tbase tsize)
    (hroom : TOP_FOOT_SIZE < tsize) (hpaged : mmapped = true → s.contiguous = false ∧ tsize % PAGE_SIZE = 0) :
    Heap (firstSegment s m tbase tsize mmapped) [⟨⟨tbase, tsize, mmapped⟩, []⟩] records direct := by
  have hfoot : TOP_FOOT_SIZE = 40 := by decide
  have hpad : 0 < MMAP_FOOT_PAD := by decide
  obtain ⟨htop', htopsize', hprev, hseg, hleast, hhead⟩ :=
    initTop_spec hf.aligned.1 (rfl : firstSegment s m tbase tsize mmapped = _)
  generalize firstSegment s m tbase tsize mmapped = s' at *
  dsimp only at hprev hseg hleast hhead
  constructor
  · rw [hseg.1]
    rfl
  · rw [hseg.1]
    exact List.pairwise_singleton _ _
  · intro R hR
    rw [List.mem_singleton] at hR
    subst hR
    refine ⟨⟨rfl, rfl⟩, ?_, hf.low, hf.high, hf.aligned⟩
    dsimp only [Region.stop, Region.fin, total_nil]
    omega
  · refine .inr ⟨_, List.mem_singleton.mpr rfl, htop'.symm, ?_, ?_, by rw [htopsize']; exact Nat.sub_pos_of_lt hroom⟩
    · rw [htop', htopsize']
      dsimp only [Region.fin]
      omega
    · rw [htop', htopsize', hhead, if_neg (by omega), if_pos rfl]
  · intro R hR
    rw [← Option.some.inj hR]
    exact htop'.symm
  · intro R hR
    rw [List.mem_singleton] at hR
    subst hR
    exact .inl htop'.symm
  · intro R hR
    rw [List.mem_singleton] at hR
    subst hR
    exact hleast.le
  · intro R hR
    rw [List.mem_singleton] at hR
    subst hR
    rw [hseg.2]
    exact hpaged
  · intro c hc
    have hold := h.mapped c hc
    have hout := hf.mapped c hc
    refine ⟨?_, by rw [hprev]; exact hold.foot, hold.low, hold.aligned, hold.high, ?_⟩
    · rw [hhead, if_neg (by omega), if_neg (by omega)]
      exact hold.head
    · rw [hseg.1]
      intro sp hsp
      rw [List.mem_singleton] at hsp
      subst hsp
      exact hout.symm
  · exact h.mappedApart

/-! ### The end of the segment of `top` -/

/-- A segment is in the list once. -/
theorem Heap.seg_notMem (h : Heap s (A ++ R :: B) records direct) : R.seg ∉ A.map Region.seg := by
  intro hmem
  obtain ⟨Q, hQ, hQR⟩ := List.mem_map.mp hmem
  have hapart := h.apart_middle Q (.inl hQ)
  have hroom := (h.ok R (by simp)).room
  have hstop : R.stop = R.seg.base + total R.blocks := rfl
  have hfin : R.fin = R.seg.base + R.seg.size := rfl
  rw [hQR] at hapart
  unfold Segment.Apart at hapart
  omega

/-- The segments with one of them replaced. -/
theorem Heap.replace_seg (h : Heap s (A ++ R :: B) records direct) (sp : Segment) :
    s.seg.replace R.seg sp = A.map Region.seg ++ sp :: B.map Region.seg := by
  rw [← h.seg, List.map_append, List.map_cons, List.replace_append_right h.seg_notMem, List.replace_cons_self]

/-- The region of a segment. -/
theorem Heap.exists_region (h : Heap s regions records direct) {sp : Segment} (hsp : sp ∈ s.seg) :
    ∃ A R B, regions = A ++ R :: B ∧ R.seg = sp ∧ R.Ok s.head s.prevFoot := by
  rw [← h.seg] at hsp
  obtain ⟨R, hR, rfl⟩ := List.mem_map.mp hsp
  obtain ⟨A, B, rfl⟩ := List.append_of_mem hR
  exact ⟨A, R, B, rfl, rfl, h.ok R hR⟩

/-- The state where the segment of `top` has `size` bytes, `n` of them in `top`. -/
def resizedTop (s : State) (m : Params) (sp : Segment) (size n : ℕ) : State :=
  { s with seg := s.seg.replace sp { sp with size := size } }.initTop m s.top n

theorem Heap.top_aligned (h : Heap s (A ++ R :: B) records direct) (hhas : R.HasTop s) : s.top % 8 = 0 := by
  have hok := h.ok R (by simp)
  have hseg8 := hok.aligned
  have htot8 := total_mod fun b hb => (hok.frag.sizes b hb).2
  have hstop : R.stop = R.seg.base + total R.blocks := rfl
  have hhstop := hhas.stop
  omega

/-- The segment ends where nothing else is. -/
theorem Heap.resizeTop (h : Heap s (A ++ R :: B) records direct) (hhas : R.HasTop s) {size : ℕ}
    (hend : s.top + n + TOP_FOOT_SIZE = R.seg.base + size) (hpos : 0 < n) (hsize : size % 8 = 0)
    (hhigh : R.seg.base + size ≤ 2 ^ 32) (hpaged : R.seg.mmapped = true → size % PAGE_SIZE = 0)
    (hapart : ∀ Q, Q ∈ A ∨ Q ∈ B → Q.seg.Apart { R.seg with size := size })
    (hdirect : ∀ c ∈ direct, c.1 + c.2 + MMAP_FOOT_PAD ≤ R.seg.base ∨ R.seg.base + size ≤ c.1) :
    Heap (resizedTop s m R.seg size n) (A ++ ⟨{ R.seg with size := size }, R.blocks⟩ :: B) records direct := by
  have hok := h.ok R (by simp)
  have hfoot : TOP_FOOT_SIZE = 40 := by decide
  have hstop : R.stop = R.seg.base + total R.blocks := rfl
  have hhstop := hhas.stop
  obtain ⟨htop', htopsize', hprev, hseg', hleast, hhead⟩ :=
    initTop_spec (h.top_aligned hhas) (rfl : resizedTop s m R.seg size n = _)
  generalize resizedTop s m R.seg size n = s' at *
  dsimp only at hprev hseg' hleast hhead
  have hfin' : Region.fin ⟨{ R.seg with size := size }, R.blocks⟩ = R.seg.base + size := rfl
  have hstop' : Region.stop ⟨{ R.seg with size := size }, R.blocks⟩ = R.stop := rfl
  have hhas' : Region.HasTop s' ⟨{ R.seg with size := size }, R.blocks⟩ := by
    refine ⟨by rw [hstop', htop', hhstop], by rw [htop', htopsize', hfin', hend], ?_, by rw [htopsize']; exact hpos⟩
    rw [htop', htopsize', hhead, if_neg (by omega), if_pos rfl]
  refine h.regrow (fun x hx => ?_) (fun x _ => by rw [hprev]) (by rw [hseg'.1, h.replace_seg]) hapart hdirect
    ⟨hleast.le, by rw [hleast]; exact h.least R (by simp)⟩ ⟨hseg'.2, fun hm => ⟨hm, hpaged hm⟩⟩
    ⟨?_, ?_, hok.low, hhigh, hok.aligned.1, hsize⟩ (.inl (by rw [hstop', htop', hhstop])) (.inr ⟨hhstop, hhas'⟩)
  · rw [hfin'] at hx
    dsimp only at hx
    rw [hhead, if_neg (by omega), if_neg (by omega)]
  · rw [hstop', hprev]
    exact hok.frag.congr (fun x hx hx' => by rw [hhead, if_neg (by omega), if_neg (by omega)]) fun _ _ _ => rfl
  · rw [hstop', hfin']
    omega

/-- There is more memory behind `top`. -/
theorem Heap.extendTop (h : Heap s (A ++ R :: B) records direct) (hhas : R.HasTop s) (hf : Fresh s direct R.fin tsize)
    (hpaged : R.seg.mmapped = true → tsize % PAGE_SIZE = 0) :
    Heap (resizedTop s m R.seg (R.seg.size + tsize) (s.topsize + tsize))
      (A ++ ⟨{ R.seg with size := R.seg.size + tsize }, R.blocks⟩ :: B) records direct := by
  have hfin : R.fin = R.seg.base + R.seg.size := rfl
  have hhfin := hhas.fin
  have hhigh := hf.high
  refine h.resizeTop hhas (by omega) (Nat.add_pos_left hhas.pos _) (hf.size_add (h.ok R (by simp)).aligned.2) (by omega)
    (fun hm => ?_) (fun Q hQ => ?_) fun c hc => ?_
  · rw [Nat.add_mod, (h.paged R (by simp) hm).2, hpaged hm]
    rfl
  · have hold := h.apart_middle Q hQ
    have hQ' : Q ∈ A ++ R :: B := mem_middle.mpr (.inr hQ)
    have hnew := hf.apart Q.seg (by
      rw [← h.seg]
      exact List.mem_map_of_mem hQ')
    have hroomQ := (h.ok Q hQ').room
    have hstopQ : Q.stop = Q.seg.base + total Q.blocks := rfl
    have hfinQ : Q.fin = Q.seg.base + Q.seg.size := rfl
    unfold Segment.Apart at hold ⊢
    dsimp only
    omega
  · have := hf.mapped c hc
    have := (h.mapped c hc).apart R.seg (by
      rw [← h.seg]
      simp)
    have hpad : 0 < MMAP_FOOT_PAD := by decide
    omega

/-! ### Memory in front of a segment -/

/-- A segment with what is in front of it. -/
def Segment.grown (sp : Segment) (tbase tsize : ℕ) : Segment := { sp with base := tbase, size := sp.size + tsize }

/-- Memory that goes to the front of a segment can make it meet no other. -/
theorem Heap.grow_front (h : Heap s (A ++ R :: B) records direct) (hf : Fresh s direct tbase tsize)
    (hbase : R.seg.base = tbase + tsize) :
    (∀ Q, Q ∈ A ∨ Q ∈ B → Q.seg.Apart (R.seg.grown tbase tsize)) ∧
      ∀ c ∈ direct, c.1 + c.2 + MMAP_FOOT_PAD ≤ tbase ∨ R.fin ≤ c.1 := by
  have hmem (Q : Region) (hQ : Q ∈ A ++ R :: B) : Q.seg ∈ s.seg := by
    rw [← h.seg]
    exact List.mem_map_of_mem hQ
  have hfin : R.fin = R.seg.base + R.seg.size := rfl
  refine ⟨fun Q hQ => ?_, fun c hc => ?_⟩
  · have hQ' : Q ∈ A ++ R :: B := mem_middle.mpr (.inr hQ)
    have hold := h.apart_middle Q hQ
    have hnew := hf.apart Q.seg (hmem Q hQ')
    have hroom := (h.ok Q hQ').room
    have hroomR := (h.ok R (by simp)).room
    have hstop : Q.stop = Q.seg.base + total Q.blocks := rfl
    have hfinQ : Q.fin = Q.seg.base + Q.seg.size := rfl
    have hstopR : R.stop = R.seg.base + total R.blocks := rfl
    unfold Segment.Apart Segment.grown at *
    dsimp only
    omega
  · have := hf.mapped c hc
    have := (h.mapped c hc).apart R.seg (hmem R (by simp))
    have : 0 < MMAP_FOOT_PAD := by decide
    have hroomR := (h.ok R (by simp)).room
    have hstopR : R.stop = R.seg.base + total R.blocks := rfl
    omega

theorem Heap.grown_paged (h : Heap s (A ++ R :: B) records direct) (hpaged : R.seg.mmapped = true → tsize % PAGE_SIZE = 0)
    (hm : (R.seg.grown tbase tsize).mmapped = true) :
    R.seg.mmapped = true ∧ (R.seg.grown tbase tsize).size % PAGE_SIZE = 0 := by
  refine ⟨hm, ?_⟩
  dsimp only [Segment.grown]
  rw [Nat.add_mod, (h.paged R (by simp) hm).2, hpaged hm]
  rfl

/-- A segment without chunks has `top` alone. -/
theorem Heap.prependTop (h : Heap s (A ++ R :: B) records direct) (hhas : R.HasTop s) (hblocks : R.blocks = [])
    (hf : Fresh s direct tbase tsize) (hbase : R.seg.base = tbase + tsize) (hnb : MIN_CHUNK_SIZE ≤ nb) (hnb8 : nb % 8 = 0)
    (hlt : nb ≤ tsize)
    (hhead : ∀ x, s'.head x = if x = tbase + nb then ⟨s.topsize + (tsize - nb), true, false⟩ else
      if x = tbase then ⟨nb, true, true⟩ else s.head x)
    (hpaged : R.seg.mmapped = true → tsize % PAGE_SIZE = 0) (hfoot : s'.prevFoot = s.prevFoot)
    (hseg : s'.seg = s.seg.replace R.seg (R.seg.grown tbase tsize) ∧ s'.contiguous = s.contiguous)
    (hleast : s'.leastAddr = min s.leastAddr tbase) (htop : s'.top = tbase + nb ∧ s'.topsize = s.topsize + (tsize - nb)) :
    Heap s' (A ++ ⟨R.seg.grown tbase tsize, [⟨nb, true⟩]⟩ :: B) records direct := by
  have hok := h.ok R (by simp)
  obtain ⟨hapart, hdirect⟩ := h.grow_front hf hbase
  have hpos : MIN_CHUNK_SIZE = 16 := rfl
  have htopfoot : TOP_FOOT_SIZE = 40 := by decide
  have hfin : R.fin = R.seg.base + R.seg.size := rfl
  have hfin' : Region.fin ⟨R.seg.grown tbase tsize, [⟨nb, true⟩]⟩ = R.fin := by
    dsimp only [Region.fin, Segment.grown]
    omega
  have hstop' : Region.stop ⟨R.seg.grown tbase tsize, [⟨nb, true⟩]⟩ = tbase + nb := rfl
  have hhstop := hhas.stop
  have hhfin := hhas.fin
  have hstop : R.stop = R.seg.base := by
    rw [Region.stop, hblocks]
    rfl
  have hrange (x : ℕ) (hx : x < tbase ∨ R.fin ≤ x) : s'.head x = s.head x := by
    rw [hhead, if_neg (by omega), if_neg (by omega)]
  refine h.regrow (fun x hx => hrange x (by rwa [hfin'] at hx)) (fun x _ => by rw [hfoot]) (by rw [hseg.1, h.replace_seg]) hapart
    (fun c hc => by rw [hfin']; exact hdirect c hc) ⟨by rw [hleast]; exact min_le_left _ _, by rw [hleast]; exact min_le_right _ _⟩
    ⟨hseg.2, h.grown_paged hpaged⟩ ⟨?_, ?_, hf.low, ?_, ?_⟩ (.inl (by rw [hstop', htop.1]))
    (.inr ⟨hhstop, by rw [hstop', htop.1], ?_, ?_, by rw [htop.2]; exact Nat.add_pos_left hhas.pos _⟩)
  · rw [hstop']
    refine ⟨?_, hnb, hnb8, fun hb => absurd hb (by simp), rfl, rfl⟩
    dsimp only [Segment.grown]
    rw [hhead, if_neg (by omega), if_pos rfl]
  · rw [hstop', hfin']
    omega
  · rw [hfin']
    exact hok.high
  · exact ⟨hf.aligned.1, hf.size_add hok.aligned.2⟩
  · rw [htop.1, htop.2, hfin']
    omega
  · rw [htop.1, htop.2, hhead, if_pos rfl]

/-- What changes when the new memory in front of a segment gets a chunk of `nb` bytes, and a free one that takes `M` in. -/
structure Prepended (s s' : State) (R : Region) (M : List Block) (tbase tsize nb : ℕ) : Prop where
  head (x : ℕ) : s'.head x = if x = tbase + nb then ⟨tsize - nb + total M, true, false⟩ else
    if x = R.seg.base + total M then { s.head x with pinuse := false } else if x = tbase then ⟨nb, true, true⟩ else s.head x
  foot (x : ℕ) : s'.prevFoot x = if x = R.seg.base + total M then tsize - nb + total M else s.prevFoot x
  seg : s'.seg = s.seg.replace R.seg (R.seg.grown tbase tsize) ∧ s'.contiguous = s.contiguous
  leastAddr : s'.leastAddr = min s.leastAddr tbase
  top : s'.top = s.top ∧ s'.topsize = s.topsize

theorem Heap.prepend (h : Heap s (A ++ R :: B) records direct) (hblocks : R.blocks = M ++ r) (hne : r ≠ [])
    (hM : M = [] ∧ (∀ b ∈ r.head?, b.inuse = true) ∨ ∃ n, M = [⟨n, false⟩])
    (hf : Fresh s direct tbase tsize) (hbase : R.seg.base = tbase + tsize) (hnb : MIN_CHUNK_SIZE ≤ nb) (hnb8 : nb % 8 = 0)
    (hlt : nb + MIN_CHUNK_SIZE ≤ tsize) (hpaged : R.seg.mmapped = true → tsize % PAGE_SIZE = 0)
    (hs' : Prepended s s' R M tbase tsize nb) : ∃ regions', Heap s' regions' records direct ∧
      chunksOf false regions' + blocksOf false R.seg.base M = (tbase + nb, tsize - nb + total M) ::ₘ chunksOf false (A ++ R :: B) ∧
      chunksOf true regions' = (tbase, nb) ::ₘ chunksOf true (A ++ R :: B) := by
  obtain ⟨hhead, hfoot, hseg, hleast, htop⟩ := hs'
  have hok := h.ok R (by simp)
  have hsizes := hok.frag.sizes
  rw [hblocks] at hsizes
  have hM8 := total_mod fun b hb => (hsizes b (List.mem_append_left _ hb)).2
  obtain ⟨hapart, hdirect⟩ := h.grow_front hf hbase
  have hpos : MIN_CHUNK_SIZE = 16 := rfl
  have hfin : R.fin = R.seg.base + R.seg.size := rfl
  have hroom := hok.room
  have hfrag := hok.frag
  rw [hblocks] at hfrag
  obtain ⟨pm, -, hr⟩ := frag_append.mp hfrag
  have hstop : R.stop = R.seg.base + total M + total r := by
    rw [Region.stop, hblocks, total_append, Nat.add_assoc]
  have hr16 := hr.total_ge hne
  have hfirst : ∀ b ∈ r.head?, b.inuse = true := by
    rcases hM with ⟨-, hfirst⟩ | ⟨n, rfl⟩
    · exact hfirst
    · obtain ⟨hpm, -⟩ := frag_append.mp hfrag |>.choose_spec
      have hpm' := hpm.2.2.2.2.2
      have hr' := frag_append.mp hfrag |>.choose_spec.2
      rw [← hpm'] at hr'
      exact hr'.first_inuse
  generalize hR' : (⟨R.seg.grown tbase tsize, ⟨nb, true⟩ :: ⟨tsize - nb + total M, false⟩ :: r⟩ : Region) = R'
  have hseg' : R'.seg = R.seg.grown tbase tsize := by rw [← hR']
  have hfin' : R'.fin = R.fin := by
    rw [← hR']
    dsimp only [Region.fin, Segment.grown]
    omega
  have hstop' : R'.stop = R.stop := by
    rw [hstop, ← hR']
    dsimp only [Region.stop, Segment.grown, total_cons]
    omega
  have hrange (x : ℕ) (hx : x < tbase ∨ R.seg.base + total M < x) : s'.head x = s.head x := by
    rw [hhead, if_neg (by omega), if_neg (by omega), if_neg (by omega)]
  have hheap : Heap s' (A ++ R' :: B) records direct := by
    refine h.regrow (fun x hx => hrange x ?_) (fun x hx => ?_) (by rw [hseg.1, h.replace_seg, hseg'])
      (fun Q hQ => ?_) (fun c hc => ?_) ⟨?_, ?_⟩ ⟨hseg.2, by rw [hseg']; exact h.grown_paged hpaged⟩ ⟨?_, ?_, ?_, ?_, ?_⟩ ?_
      (.inl ⟨htop.1, htop.2, fun hhas => ?_⟩)
    · rw [hfin', hseg'] at hx
      dsimp only [Segment.grown] at hx
      omega
    · rw [hfin', hseg'] at hx
      dsimp only [Segment.grown] at hx
      rw [hfoot, if_neg (by omega)]
    · rw [hseg']
      exact hapart Q hQ
    · rw [hfin', hseg']
      exact hdirect c hc
    · rw [hleast]
      exact min_le_left _ _
    · rw [hleast, hseg']
      exact min_le_right _ _
    · rw [hstop', ← hR']
      dsimp only [Segment.grown]
      refine ⟨?_, hnb, hnb8, fun hb => absurd hb (by simp), ?_, ?_, ?_, fun _ => ⟨rfl, ?_⟩, ?_⟩
      · rw [hhead, if_neg (by omega), if_neg (by omega), if_pos rfl]
      · rw [hhead, if_pos rfl]
      · dsimp only
        omega
      · have := hf.aligned
        dsimp only
        omega
      · dsimp only
        rw [hfoot, if_pos (by omega)]
      · dsimp only
        rw [show tbase + nb + (tsize - nb + total M) = R.seg.base + total M by omega]
        refine hr.reseam hfirst (fun hnil => absurd hnil hne) (fun _ => ?_) (fun x hx _ => hrange x (.inr hx)) fun x hx _ => ?_
        · rw [hhead, if_neg (by omega), if_pos rfl]
        · rw [hfoot, if_neg (by omega)]
    · rw [hstop', hfin']
      exact hroom
    · rw [hseg']
      exact hf.low
    · rw [hfin']
      exact hok.high
    · rw [hseg']
      exact ⟨hf.aligned.1, hf.size_add hok.aligned.2⟩
    · rcases h.closed R (by simp) with hst | ⟨l₀, hl₀, hrec⟩
      · exact .inl (by rw [hstop', htop.1, hst])
      · obtain ⟨r₁, b, rfl⟩ := (List.eq_nil_or_concat' r).resolve_left hne
        rw [hblocks, ← List.append_assoc] at hl₀
        obtain ⟨rfl, hb⟩ := List.append_inj' hl₀ rfl
        obtain rfl := List.cons.inj hb |>.1
        refine .inr ⟨⟨nb, true⟩ :: ⟨tsize - nb + total M, false⟩ :: r₁, by rw [← hR']; simp, ?_⟩
        rw [total_append] at hrec
        rw [hseg']
        dsimp only [Segment.grown, total_cons]
        rwa [show tbase + (nb + (tsize - nb + total M + total r₁)) = R.seg.base + (total M + total r₁) by omega]
    · have := hhas.stop
      exact ⟨by rw [hstop', htop.1, hhas.stop], by rw [htop.1, htop.2, hfin', hhas.fin],
        by rw [htop.1, htop.2, hrange _ (.inr (by omega)), hhas.head], by rw [htop.2]; exact hhas.pos⟩
  refine ⟨_, hheap, ?_, ?_⟩
  · rw [chunksOf_middle, chunksOf_middle, hblocks, blocksOf_append, ← hR']
    dsimp only [Segment.grown]
    rw [blocksOf, blocksOf, if_neg (by simp), if_pos rfl, zero_add]
    dsimp only
    rw [show tbase + nb + (tsize - nb + total M) = R.seg.base + total M by omega, ← Multiset.singleton_add]
    abel
  · have hnone : blocksOf true R.seg.base M = 0 := by
      rcases hM with ⟨rfl, -⟩ | ⟨n, rfl⟩
      · rfl
      · simp [blocksOf]
    rw [chunksOf_middle, chunksOf_middle, hblocks, blocksOf_append, hnone, ← hR']
    dsimp only [Segment.grown]
    rw [blocksOf, blocksOf, if_pos rfl, if_neg (by simp), zero_add]
    dsimp only
    rw [show tbase + nb + (tsize - nb + total M) = R.seg.base + total M by omega, ← Multiset.singleton_add]
    abel

/-! ### A segment of its own -/

/-- What is left of `top` when the chunk `csp` behind it is taken for a record. -/
def leftOfTop (top csp : ℕ) : List Block := if csp = top then [] else [⟨csp - top, false⟩]

theorem total_leftOfTop {top csp : ℕ} : total (leftOfTop top csp) = csp - top := by
  unfold leftOfTop
  split_ifs with hc
  · simp [hc]
  · simp

/-- What is left of `top`, with the record. -/
theorem Frag.push {a top csp : ℕ} (h : Frag s.head s.prevFoot a true bs top true)
    (hcsp : csp = top ∨ top + MIN_CHUNK_SIZE ≤ csp) (htop8 : top % 8 = 0) (hcsp8 : csp % 8 = 0)
    (hhead : ∀ x, a ≤ x → x < top → s'.head x = s.head x) (hfoot : ∀ x, x ≤ top → s'.prevFoot x = s.prevFoot x)
    (hrec : s'.head csp = ⟨SEGMENT_SIZE, decide (csp = top), true⟩)
    (hleft : csp ≠ top → s'.head top = ⟨csp - top, true, false⟩ ∧ s'.prevFoot csp = csp - top) :
    Frag s'.head s'.prevFoot a true (bs ++ (leftOfTop top csp ++ [⟨SEGMENT_SIZE, true⟩])) (csp + SEGMENT_SIZE) true := by
  have hmin : MIN_CHUNK_SIZE = 16 := rfl
  have hlast (b : Bool) (hb : b = decide (csp = top)) :
      Frag s'.head s'.prevFoot csp b [⟨SEGMENT_SIZE, true⟩] (csp + SEGMENT_SIZE) true :=
    ⟨by rw [hrec, hb], by decide, by decide, fun hb => absurd hb (by simp), rfl, rfl⟩
  have hend := h.end_eq
  refine frag_append.mpr ⟨true, ?_, ?_⟩
  · rw [← hend]
    exact h.congr hhead fun x _ hx => hfoot x hx
  · rw [← hend]
    unfold leftOfTop
    split_ifs with hc
    · rw [← hc]
      exact hlast true (by simp [hc])
    · obtain ⟨hl, hlf⟩ := hleft hc
      have hsum : top + (csp - top) = csp := by omega
      refine ⟨hl, by dsimp only; omega, by dsimp only; omega, fun _ => ⟨rfl, by dsimp only; rw [hsum, hlf]⟩, ?_⟩
      dsimp only
      rw [hsum]
      exact hlast false (by simp [hc])

/-- The segment that `top` was in ends with the record of it; `top` is in the new one. -/
theorem Heap.push (h : Heap s (A ++ R :: B) records direct) (hhas : R.HasTop s) (hf : Fresh s direct tbase tsize)
    (hroom : TOP_FOOT_SIZE < tsize) {csp : ℕ} (hR' : R'.Ok s'.head s'.prevFoot) (hRseg : R'.seg = R.seg)
    (hclosed : R'.Closed s'.top ((csp, SEGMENT_SIZE) ::ₘ records))
    (hhead : ∀ x, x < R.seg.base ∨ R.fin ≤ x → x ≠ tbase → x ≠ tbase + (tsize - TOP_FOOT_SIZE) → s'.head x = s.head x)
    (hfoot : ∀ x, x ≤ R.seg.base ∨ R.fin ≤ x → s'.prevFoot x = s.prevFoot x)
    (hself : s'.head tbase = ⟨tsize - TOP_FOOT_SIZE, true, false⟩)
    (hpaged : mmapped = true → s.contiguous = false ∧ tsize % PAGE_SIZE = 0)
    (hseg : s'.seg = ⟨tbase, tsize, mmapped⟩ :: s.seg ∧ s'.contiguous = s.contiguous)
    (hleast : s'.leastAddr = min s.leastAddr tbase) (htop : s'.top = tbase ∧ s'.topsize = tsize - TOP_FOOT_SIZE) :
    Heap s' (⟨⟨tbase, tsize, mmapped⟩, []⟩ :: (A ++ R' :: B)) ((csp, SEGMENT_SIZE) ::ₘ records) direct := by
  have hpad : 0 < MMAP_FOOT_PAD := by decide
  have hsize : TOP_FOOT_SIZE = 40 := by decide
  have hfin : R.fin = R.seg.base + R.seg.size := rfl
  have hmem (Q : Region) (hQ : Q ∈ A ++ R :: B) : Q.seg ∈ s.seg := by
    rw [← h.seg]
    exact List.mem_map_of_mem hQ
  have hcases (Q : Region) (hQ : Q ∈ (⟨⟨tbase, tsize, mmapped⟩, []⟩ : Region) :: (A ++ R' :: B)) :
      Q = ⟨⟨tbase, tsize, mmapped⟩, []⟩ ∨ Q = R' ∨ Q ∈ A ∨ Q ∈ B := by
    rwa [List.mem_cons, mem_middle] at hQ
  have hold (Q : Region) (hQ : Q ∈ A ∨ Q ∈ B) : Q ∈ A ++ R :: B := mem_middle.mpr (.inr hQ)
  have hNfin : Region.fin ⟨⟨tbase, tsize, mmapped⟩, []⟩ = tbase + tsize := rfl
  constructor
  · rw [hseg.1, ← h.seg]
    simp [hRseg]
  · rw [hseg.1]
    exact List.pairwise_cons.mpr ⟨fun sp hsp => hf.apart sp hsp, h.apart⟩
  · intro Q hQ
    rcases hcases Q hQ with rfl | rfl | hQ
    · refine ⟨⟨rfl, rfl⟩, ?_, hf.low, hf.high, hf.aligned⟩
      dsimp only [Region.stop, Region.fin, total_nil]
      omega
    · exact hR'
    · have hQR := h.apart_middle Q hQ
      have hQN := hf.apart Q.seg (hmem Q (hold Q hQ))
      have hQfin : Q.fin = Q.seg.base + Q.seg.size := rfl
      unfold Segment.Apart at hQR
      exact (h.ok Q (hold Q hQ)).congr (fun x hx hx' => hhead x (by omega) (by omega) (by omega))
        fun x hx hx' => hfoot x (by omega)
  · refine .inr ⟨_, List.mem_cons_self, htop.1.symm, ?_, ?_, by rw [htop.2]; exact Nat.sub_pos_of_lt hroom⟩
    · rw [htop.1, htop.2, hNfin]
      omega
    · rw [htop.1, htop.2, hself]
  · intro Q hQ
    rw [← Option.some.inj hQ]
    exact htop.1.symm
  · intro Q hQ
    rcases hcases Q hQ with rfl | rfl | hQ
    · exact .inl htop.1.symm
    · exact hclosed
    · obtain ⟨l, hl, hmemrec⟩ := (h.closed Q (hold Q hQ)).resolve_left (h.stop_ne_top hhas.stop hQ)
      exact .inr ⟨l, hl, Multiset.mem_cons_of_mem hmemrec⟩
  · intro Q hQ
    rw [hleast]
    rcases hcases Q hQ with rfl | rfl | hQ
    · exact min_le_right _ _
    · rw [hRseg]
      exact (min_le_left _ _).trans (h.least R (by simp))
    · exact (min_le_left _ _).trans (h.least Q (hold Q hQ))
  · intro Q hQ hm
    rw [hseg.2]
    rcases hcases Q hQ with rfl | rfl | hQ
    · exact hpaged hm
    · rw [hRseg] at hm ⊢
      exact h.paged R (by simp) hm
    · exact h.paged Q (hold Q hQ) hm
  · intro c hc
    have hc' := h.mapped c hc
    have hcN := hf.mapped c hc
    have hcR := hc'.apart R.seg (hmem R (by simp))
    refine hc'.congr (hhead _ (by omega) (by omega) (by omega)) (hfoot _ (by omega)) fun sp hsp => ?_
    rw [hseg.1] at hsp
    rcases List.mem_cons.mp hsp with rfl | hsp
    · exact hcN.symm
    · exact hc'.apart sp hsp
  · exact h.mappedApart

/-- What the chunks count then. -/
theorem chunksOf_push {N : Region} (hN : N.blocks = []) {top csp : ℕ} (hstop : R.stop = top) (hle : top ≤ csp) :
    chunksOf false (N :: (A ++ ⟨R.seg, R.blocks ++ (leftOfTop top csp ++ [⟨SEGMENT_SIZE, true⟩])⟩ :: B)) =
        blocksOf false top (leftOfTop top csp) + chunksOf false (A ++ R :: B) ∧
      chunksOf true (N :: (A ++ ⟨R.seg, R.blocks ++ (leftOfTop top csp ++ [⟨SEGMENT_SIZE, true⟩])⟩ :: B)) =
        (csp, SEGMENT_SIZE) ::ₘ chunksOf true (A ++ R :: B) := by
  have hbase : R.seg.base + total R.blocks = top := hstop
  have hsum : top + (csp - top) = csp := by omega
  have hnone : blocksOf true top (leftOfTop top csp) = 0 := by
    unfold leftOfTop
    split_ifs
    · rfl
    · simp [blocksOf]
  constructor
  · rw [chunksOf_cons, chunksOf_middle, chunksOf_middle, hN, blocksOf_nil, zero_add]
    dsimp only
    rw [blocksOf_append, blocksOf_append, hbase, total_leftOfTop, hsum]
    simp only [blocksOf, Bool.true_eq_false, if_false, add_zero]
    abel
  · rw [chunksOf_cons, chunksOf_middle, chunksOf_middle, hN, blocksOf_nil, zero_add]
    dsimp only
    rw [blocksOf_append, blocksOf_append, hbase, total_leftOfTop, hsum, hnone, zero_add]
    simp only [blocksOf, if_true, add_zero]
    rw [← Multiset.singleton_add]
    abel

/-! ### A mapping of its own -/

theorem Heap.map (h : Heap s regions records direct) (hf : Fresh s direct p (n + MMAP_FOOT_PAD))
    (hhead : ∀ x, x < p ∨ p + (n + MMAP_FOOT_PAD) ≤ x → s'.head x = s.head x) (hself : s'.head p = ⟨n, false, true⟩)
    (hfoot : ∀ x, s'.prevFoot x = if x = p then 1 else s.prevFoot x)
    (hseg : s'.seg = s.seg ∧ s'.contiguous = s.contiguous) (hleast : s'.leastAddr = min s.leastAddr p)
    (htop : s'.top = s.top ∧ s'.topsize = s.topsize) : Heap s' regions records ((p, n) :: direct) := by
  have hpad : 0 < MMAP_FOOT_PAD := by decide
  have hmem (Q : Region) (hQ : Q ∈ regions) : Q.seg ∈ s.seg := by
    rw [← h.seg]
    exact List.mem_map_of_mem hQ
  have outside (Q : Region) (hQ : Q ∈ regions) (x : ℕ) (hx : Q.seg.base ≤ x) (hx' : x < Q.fin) :
      x < p ∨ p + (n + MMAP_FOOT_PAD) ≤ x := by
    have := hf.apart Q.seg (hmem Q hQ)
    have hfin : Q.fin = Q.seg.base + Q.seg.size := rfl
    omega
  refine ⟨by rw [hseg.1, h.seg], by rw [hseg.1]; exact h.apart, fun Q hQ => ?_, ?_,
    fun Q hQ => by rw [htop.1]; exact h.first Q hQ, fun Q hQ => ?_, fun Q hQ => ?_,
    fun Q hQ hm => by rw [hseg.2]; exact h.paged Q hQ hm, fun c hc => ?_, ?_⟩
  · refine (h.ok Q hQ).congr (fun x hx hx' => hhead x (outside Q hQ x hx hx')) fun x hx hx' => ?_
    have := outside Q hQ x hx.le hx'
    rw [hfoot, if_neg (by omega)]
  · rw [htop.1, htop.2]
    refine h.top.imp_right fun ⟨Q, hQ, hhas⟩ => ⟨Q, hQ, hhas.congr htop (hhead _ ?_)⟩
    have hstop : Q.stop = Q.seg.base + total Q.blocks := rfl
    have := hhas.stop
    have := (h.ok Q hQ).room
    exact outside Q hQ s.top (by omega) (by omega)
  · rw [htop.1]
    exact h.closed Q hQ
  · rw [hleast]
    exact (min_le_left _ _).trans (h.least Q hQ)
  · rcases List.mem_cons.mp hc with rfl | hc
    · refine ⟨hself, by rw [hfoot, if_pos rfl], hf.low, hf.aligned.1, ?_, fun sp hsp => ?_⟩
      · have := hf.high
        dsimp only
        omega
      · rw [hseg.1] at hsp
        have := hf.apart sp hsp
        dsimp only
        omega
    · have := hf.mapped c hc
      have hc' := h.mapped c hc
      refine hc'.congr (hhead _ (by omega)) (by rw [hfoot, if_neg (by omega)]) ?_
      rw [hseg.1]
      exact hc'.apart
  · refine List.pairwise_cons.mpr ⟨fun c hc => ?_, h.mappedApart⟩
    have := hf.mapped c hc
    unfold DirectApart
    dsimp only
    omega

/-! ### Where the heap is as it was -/

/-- What is in use does not meet new memory. -/
theorem Heap.inuse_fresh_apart (h : Heap s regions records direct) (hused : chunksOf true regions = used + records)
    (hf : Fresh s direct tbase tsize) {c : ℕ × ℕ} (hc : c ∈ used + ↑direct) : c.1 + c.2 + 8 ≤ tbase ∨ tbase + tsize ≤ c.1 := by
  rcases Multiset.mem_add.mp hc with hc | hc
  · obtain ⟨R, -, hseg, hlo, hhi⟩ := h.chunk_inside (k := true) (c := c) (by
      rw [hused]
      exact Multiset.mem_add.mpr (.inl hc))
    have := hf.apart R.seg hseg
    omega
  · have := hf.mapped c (Multiset.mem_coe.mp hc)
    have hpad : MMAP_FOOT_PAD = 16 := rfl
    omega

theorem Heap.region_of_top (h : Heap s regions records direct) {sp : Segment} (hsp : sp ∈ s.seg)
    (hholds : State.segmentHolds sp s.top = true) : ∃ A R B, regions = A ++ R :: B ∧ R.seg = sp ∧ R.HasTop s := by
  obtain ⟨A, R, B, rfl, rfl, -⟩ := h.exists_region hsp
  simp only [State.segmentHolds, decide_eq_true_eq] at hholds
  exact ⟨A, R, B, rfl, rfl, h.hasTop hholds.1 hholds.2⟩

theorem Sound.first (m : Params) (h : Sound s used direct) (htop : s.top = 0) (hf : Fresh s direct tbase tsize)
    (hroom : TOP_FOOT_SIZE < tsize) (hpaged : mmapped = true → s.contiguous = false ∧ tsize % PAGE_SIZE = 0) :
    Sound (firstSegment s m tbase tsize mmapped) used direct ∧
      Keeps s (firstSegment s m tbase tsize mmapped) (used + ↑direct) := by
  obtain ⟨⟨C, regions, records, hheap, hbin, hfree, hused⟩, hdv⟩ := h
  obtain rfl := hheap.regions_nil htop
  have hinit := initTop_eq (s := { s with seg := [⟨tbase, tsize, mmapped⟩], leastAddr := tbase }) (m := m)
    (n := tsize - TOP_FOOT_SIZE) hf.aligned.1
  rw [← firstSegment] at hinit
  constructor
  · refine ⟨⟨C, _, records, hheap.start hf hroom hpaged, ?_, ?_, hused⟩, ?_⟩
    · rw [hinit]
      exact hbin
    · rw [dvPart_congr (s := s) (by rw [hinit]; exact ⟨rfl, rfl⟩)]
      exact hfree
    · rw [hinit]
      exact hdv
  · have hsize : TOP_FOOT_SIZE = 40 := by decide
    refine keeps_of_range (a := tbase) (e := tbase + tsize) (fun x hx => ?_) (fun x _ => ?_)
      fun c hc _ => (hheap.inuse_fresh_apart hused hf hc).imp_left (by omega)
    · rw [hinit, State.setHead_head, State.setHead_head, if_neg (by omega), if_neg (by omega)]
    · rw [hinit]
      rfl

/-- Nothing in use is where `top` is then. -/
theorem Sound.resizeTop {C : Multiset (ℕ × ℕ)} {size : ℕ} (hhas : R.HasTop s) (h : Heap s (A ++ R :: B) records direct)
    (hnew : Heap (resizedTop s m R.seg size n) (A ++ ⟨{ R.seg with size := size }, R.blocks⟩ :: B) records direct)
    (hbin : Binned s C) (hfree : chunksOf false (A ++ R :: B) = dvPart s + C)
    (hused : chunksOf true (A ++ R :: B) = used + records) (hdv : s.dvsize = 0 → s.dv = 0)
    (hout : ∀ c ∈ used + ↑direct, c.1 + c.2 ≤ s.top ∨ s.top + n ≤ c.1) :
    Sound (resizedTop s m R.seg size n) used direct ∧ Keeps s (resizedTop s m R.seg size n) (used + ↑direct) := by
  have hinit := initTop_eq (s := { s with seg := s.seg.replace R.seg { R.seg with size := size } }) (m := m) (n := n)
    (h.top_aligned hhas)
  rw [← resizedTop] at hinit
  constructor
  · refine ⟨⟨C, _, records, hnew, ?_, ?_, ?_⟩, ?_⟩
    · rw [hinit]
      exact hbin
    · rw [dvPart_congr (s := s) (by rw [hinit]; exact ⟨rfl, rfl⟩), ← hfree, chunksOf_middle, chunksOf_middle]
    · rw [← hused, chunksOf_middle, chunksOf_middle]
    · rw [hinit]
      exact hdv
  · refine keeps_of_range (a := s.top) (e := s.top + n) (fun x hx => ?_) (fun x _ => ?_) fun c hc _ => hout c hc
    · rw [hinit, State.setHead_head, State.setHead_head, if_neg (by omega), if_neg (by omega)]
    · rw [hinit]
      rfl

theorem Sound.extendTop (m : Params) (h : Sound s used direct) (htop : s.top ≠ 0) {sp : Segment} (hsp : sp ∈ s.seg)
    (hend : sp.base + sp.size = tbase) (hholds : State.segmentHolds sp s.top = true) (hf : Fresh s direct tbase tsize)
    (hpaged : sp.mmapped = true → tsize % PAGE_SIZE = 0) :
    Sound (resizedTop s m sp (sp.size + tsize) (s.topsize + tsize)) used direct ∧
      Keeps s (resizedTop s m sp (sp.size + tsize) (s.topsize + tsize)) (used + ↑direct) := by
  obtain ⟨⟨C, regions, records, hheap, hbin, hfree, hused⟩, hdv⟩ := h
  obtain ⟨A, R, B, rfl, rfl, hhas⟩ := hheap.region_of_top hsp hholds
  have hfin : R.fin = R.seg.base + R.seg.size := rfl
  rw [← hend] at hf
  have hhfin := hhas.fin
  have hsize : TOP_FOOT_SIZE = 40 := by decide
  refine Sound.resizeTop hhas hheap (hheap.extendTop hhas hf hpaged) hbin hfree hused hdv fun c hc => ?_
  have := hheap.inuse_top_apart hused htop hc
  have := hheap.inuse_fresh_apart hused hf hc
  omega

/-- A segment begins with `top`, or with a chunk. -/
theorem Heap.first_chunk (h : Heap s (A ++ R :: B) records direct) : R.seg.base = s.top ∧ R.blocks = [] ∧ R.HasTop s ∨
    R.seg.base ≠ s.top ∧ ∃ b rest, R.blocks = b :: rest ∧ s.head R.seg.base = ⟨b.size, true, b.inuse⟩ ∧
      (R.seg.base, b.size) ∈ chunksOf b.inuse (A ++ R :: B) := by
  have hok := h.ok R (by simp)
  have hstop : R.stop = R.seg.base + total R.blocks := rfl
  have hroom := hok.room
  have hmin : MIN_CHUNK_SIZE = 16 := rfl
  cases hblocks : R.blocks with
  | nil =>
    rcases h.closed R (by simp) with htop | ⟨l, hl, -⟩
    · rw [hblocks, total_nil] at hstop
      exact .inl ⟨by omega, rfl, h.hasTop (by omega) (by omega)⟩
    · rw [hblocks] at hl
      simp at hl
  | cons b rest =>
    have hfrag := hok.frag
    rw [hblocks] at hfrag
    rw [hblocks, total_cons] at hstop
    refine .inr ⟨fun htop => ?_, b, rest, rfl, hfrag.1, ?_⟩
    · have := (h.hasTop htop.le (by omega)).stop
      have := hfrag.2.1
      omega
    · rw [chunksOf_middle, hblocks]
      simp [blocksOf]

/-- The state with memory in front of a segment. -/
def frontMemory (s : State) (sp : Segment) (tbase tsize : ℕ) : State :=
  { s with leastAddr := min s.leastAddr tbase, seg := s.seg.replace sp (sp.grown tbase tsize) }

/-- The chunk that is free then is in no bin yet. -/
theorem Heap.prepend_loose (h : Heap s (A ++ R :: B) records direct) (hused : chunksOf true (A ++ R :: B) = used + records)
    (hblocks : R.blocks = M ++ r) (hne : r ≠ []) (hM : M = [] ∧ (∀ b ∈ r.head?, b.inuse = true) ∨ ∃ n, M = [⟨n, false⟩])
    (hf : Fresh s direct tbase tsize) (hbase : R.seg.base = tbase + tsize) (hnb : Request nb)
    (hlt : nb + MIN_CHUNK_SIZE ≤ tsize) (hpaged : R.seg.mmapped = true → tsize % PAGE_SIZE = 0)
    (hs' : Prepended s s' R M tbase tsize nb) {C L : Multiset (ℕ × ℕ)} (hbin : Binned s' C)
    (hfree : chunksOf false (A ++ R :: B) = blocksOf false R.seg.base M + (L + C)) :
    Loose s' C ((tbase + nb, tsize - nb + total M) ::ₘ L) ((tbase, nb) ::ₘ used) direct ∧ Keeps s s' (used + ↑direct) := by
  obtain ⟨regions', hheap', hfree', hused'⟩ := h.prepend hblocks hne hM hf hbase hnb.min hnb.aligned hlt hpaged hs'
  have hfree'' : chunksOf false regions' = (tbase + nb, tsize - nb + total M) ::ₘ (L + C) := by
    rw [hfree, ← Multiset.add_cons, add_comm] at hfree'
    exact add_left_cancel hfree'
  have hused'' : chunksOf true regions' = (tbase, nb) ::ₘ used + records := by rw [hused', hused, Multiset.cons_add]
  have hpos : 0 < MIN_CHUNK_SIZE := by decide
  refine ⟨⟨regions', records, hheap', hbin, by rw [hfree'', Multiset.cons_add], hused''⟩, ?_⟩
  refine keeps_of_range (a := tbase) (e := R.seg.base + total M) (fun x hx => ?_) (fun x hx => ?_) fun c hc hpos => ?_
  · rw [hs'.head, if_neg (by omega), if_neg (by omega), if_neg (by omega)]
  · rw [hs'.foot, if_neg (by omega)]
  · have := h.inuse_fresh_apart hused hf hc
    have hmem : (tbase + nb, tsize - nb + total M) ∈ chunksOf false regions' := by
      rw [hfree'']
      exact Multiset.mem_cons_self _ _
    have := hheap'.inuse_apart hused'' hmem (c := c) (by
      rw [Multiset.cons_add]
      exact Multiset.mem_cons_of_mem hc)
    dsimp only at this
    omega

theorem free_pinuse {h : Head} (hp : h.pinuse = false) : { h with pinuse := false } = h := by rw [← hp]

/-- Behind the free chunk that a segment begins with comes another. -/
theorem Region.Ok.behind_free (h : R.Ok s.head s.prevFoot) (hblocks : R.blocks = ⟨n, false⟩ :: r) :
    r ≠ [] ∧ (s.head (R.seg.base + n)).pinuse = false := by
  have hfrag := h.frag
  rw [hblocks] at hfrag
  obtain ⟨-, -, -, -, hr⟩ := hfrag
  cases r with
  | nil => cases hr.2
  | cons b r => exact ⟨by simp, by rw [hr.1]⟩

/-- The first chunk of the new memory has its head. -/
structure Front (s s₁ : State) (R : Region) (tbase tsize nb : ℕ) : Prop where
  head (x : ℕ) : s₁.head x = if x = tbase then ⟨nb, true, true⟩ else s.head x
  prevFoot : s₁.prevFoot = s.prevFoot
  seg : s₁.seg = s.seg.replace R.seg (R.seg.grown tbase tsize) ∧ s₁.contiguous = s.contiguous
  leastAddr : s₁.leastAddr = min s.leastAddr tbase
  top : s₁.top = s.top ∧ s₁.topsize = s.topsize
  dv : s₁.dv = s.dv ∧ s₁.dvsize = s.dvsize

theorem front_frontMemory : Front s ((frontMemory s R.seg tbase tsize).setSizeAndPinuseOfInuseChunk tbase nb) R tbase tsize nb :=
  ⟨fun x => by rw [State.setSizeAndPinuseOfInuseChunk_head]; rfl, rfl, ⟨rfl, rfl⟩, rfl, ⟨rfl, rfl⟩, ⟨rfl, rfl⟩⟩

section Front

variable {s₁ : State} {C C' : Multiset (ℕ × ℕ)}

theorem Front.congr {s₂ : State} (h : Front s s₁ R tbase tsize nb) (hsame : SameMemory s₁ s₂)
    (hdv : s₂.dv = s₁.dv ∧ s₂.dvsize = s₁.dvsize) : Front s s₂ R tbase tsize nb :=
  ⟨fun x => by rw [hsame.head, h.head], by rw [hsame.prevFoot, h.prevFoot], ⟨hsame.seg.1.trans h.seg.1, hsame.seg.2.trans h.seg.2⟩,
    by rw [hsame.leastAddr, h.leastAddr], by rw [hsame.top, hsame.topsize]; exact h.top, by rw [hdv.1, hdv.2]; exact h.dv⟩

/-- The rest goes to the front of `top`. -/
theorem Front.top_served (h₁ : Front s s₁ R tbase tsize nb) (h : Heap s (A ++ R :: B) records direct)
    (hused : chunksOf true (A ++ R :: B) = used + records) (hfree : chunksOf false (A ++ R :: B) = dvPart s + C)
    (hbin : Binned s₁ C) (hdv : s.dvsize = 0 → s.dv = 0) (hhas : R.HasTop s) (hblocks : R.blocks = [])
    (hf : Fresh s direct tbase tsize) (hbase : R.seg.base = tbase + tsize) (hnb : Request nb) (hlt : nb + MIN_CHUNK_SIZE ≤ tsize)
    (hpaged : R.seg.mmapped = true → tsize % PAGE_SIZE = 0) : Served s used direct nb
      ({ s₁ with topsize := s₁.topsize + (tsize - nb), top := tbase + nb }.setHead (tbase + nb)
        ⟨s₁.topsize + (tsize - nb), true, false⟩, some (chunk2mem tbase)) := by
  obtain ⟨hhead₁, hprev₁, hseg₁, hleast₁, htop₁, hdv₁⟩ := h₁
  rw [htop₁.2]
  have hhead (x : ℕ) : ({ s₁ with topsize := s.topsize + (tsize - nb), top := tbase + nb }.setHead (tbase + nb)
      ⟨s.topsize + (tsize - nb), true, false⟩).head x = if x = tbase + nb then ⟨s.topsize + (tsize - nb), true, false⟩ else
        if x = tbase then ⟨nb, true, true⟩ else s.head x := by
    rw [State.setHead_head]
    dsimp only
    rw [hhead₁]
  have hnew := h.prependTop hhas hblocks hf hbase hnb.min hnb.aligned (by omega) hhead hpaged hprev₁ hseg₁ hleast₁ ⟨rfl, rfl⟩
  refine .chunk le_rfl ⟨⟨C, _, records, hnew, hbin, ?_, ?_⟩, fun h0 => ?_⟩
    (keeps_of_range (a := tbase) (e := tbase + tsize) (fun x hx => ?_) (fun x _ => congrFun hprev₁ x)
      fun c hc _ => (h.inuse_fresh_apart hused hf hc).imp_left (by omega))
  · have hdv' : dvPart (({ s₁ with topsize := s.topsize + (tsize - nb), top := tbase + nb } : State).setHead (tbase + nb)
        ⟨s.topsize + (tsize - nb), true, false⟩) = dvPart s := dvPart_congr hdv₁
    rw [hdv', ← hfree, chunksOf_middle, chunksOf_middle, hblocks]
    rfl
  · rw [chunksOf_middle] at hused ⊢
    rw [hblocks, blocksOf_nil, zero_add] at hused
    rw [hused, Multiset.cons_add, ← Multiset.singleton_add]
    rfl
  · exact hdv₁.1.trans (hdv (hdv₁.2.symm.trans h0))
  · exact (hhead x).trans (by rw [if_neg (by omega), if_neg (by omega)])

/-- The rest goes to the front of `dv`. -/
theorem Front.dv_served (h₁ : Front s s₁ R tbase tsize nb) (h : Heap s (A ++ R :: B) records direct)
    (hused : chunksOf true (A ++ R :: B) = used + records) (hfree : chunksOf false (A ++ R :: B) = dvPart s + C)
    (hbin : Binned s₁ C) (hdvsize : s.dvsize ≠ 0) (hdvb : R.seg.base = s.dv) (hblocks : R.blocks = ⟨s.dvsize, false⟩ :: r)
    (hf : Fresh s direct tbase tsize) (hbase : R.seg.base = tbase + tsize) (hnb : Request nb) (hlt : nb + MIN_CHUNK_SIZE ≤ tsize)
    (hpaged : R.seg.mmapped = true → tsize % PAGE_SIZE = 0) : Served s used direct nb
      ({ s₁ with dvsize := s₁.dvsize + (tsize - nb), dv := tbase + nb }.setSizeAndPinuseOfFreeChunk
        (tbase + nb) (s₁.dvsize + (tsize - nb)), some (chunk2mem tbase)) := by
  obtain ⟨hhead₁, hprev₁, hseg₁, hleast₁, htop₁, hdv₁⟩ := h₁
  obtain ⟨hne, hnext⟩ := (h.ok R (by simp)).behind_free hblocks
  rw [hdv₁.2, Nat.add_comm s.dvsize]
  rw [dvPart_eq hdvsize] at hfree
  have hmin : MIN_CHUNK_SIZE = 16 := rfl
  have hs' : Prepended s ({ s₁ with dvsize := tsize - nb + s.dvsize, dv := tbase + nb }.setSizeAndPinuseOfFreeChunk (tbase + nb)
      (tsize - nb + s.dvsize)) R [⟨s.dvsize, false⟩] tbase tsize nb := by
    refine ⟨fun x => ?_, fun x => ?_, hseg₁, hleast₁, htop₁⟩
    · rw [State.setSizeAndPinuseOfFreeChunk_head]
      dsimp only
      rw [hhead₁]
      simp only [total_cons, total_nil, add_zero]
      split_ifs with h₁ h₂ h₃ h₃
      · rfl
      · omega
      · rfl
      · rw [h₃, free_pinuse hnext]
      · rfl
    · rw [State.setSizeAndPinuseOfFreeChunk_prevFoot]
      dsimp only
      rw [hprev₁]
      simp only [total_cons, total_nil, add_zero]
      rw [show tbase + nb + (tsize - nb + s.dvsize) = R.seg.base + s.dvsize by omega]
  obtain ⟨hloose, hkeep⟩ := h.prepend_loose (C := C) (L := 0) hused hblocks hne (.inr ⟨_, rfl⟩) hf hbase hnb hlt hpaged hs'
    hbin (by rw [hfree, hdvb]; simp [blocksOf])
  have hrest : tsize - nb + s.dvsize ≠ 0 := by omega
  refine .chunk le_rfl ⟨⟨C, ?_⟩, fun h0 => absurd h0 hrest⟩ hkeep
  rw [dvPart_eq (by exact hrest)]
  exact hloose

/-- The rest goes to a bin, with the chunk `M` behind it if that was free. -/
theorem Front.insert_served (h₁ : Front s s₁ R tbase tsize nb) (h : Heap s (A ++ R :: B) records direct)
    (hused : chunksOf true (A ++ R :: B) = used + records)
    (hfree : chunksOf false (A ++ R :: B) = dvPart s + (blocksOf false R.seg.base M + C))
    (hbin : Binned s₁ C) (hdv : s.dvsize = 0 → s.dv = 0) (hblocks : R.blocks = M ++ r) (hne : r ≠ [])
    (hM : M = [] ∧ (∀ b ∈ r.head?, b.inuse = true) ∨ ∃ n, M = [⟨n, false⟩])
    (hf : Fresh s direct tbase tsize) (hbase : R.seg.base = tbase + tsize) (hnb : Request nb) (hlt : nb + MIN_CHUNK_SIZE ≤ tsize)
    (hpaged : R.seg.mmapped = true → tsize % PAGE_SIZE = 0) : Served s used direct nb
      ((s₁.setFreeWithPinuse (tbase + nb) (tsize - nb + total M) (R.seg.base + total M)).insertChunk
        (tbase + nb) (tsize - nb + total M), some (chunk2mem tbase)) := by
  obtain ⟨hhead₁, hprev₁, hseg₁, hleast₁, htop₁, hdv₁⟩ := h₁
  have hmin : MIN_CHUNK_SIZE = 16 := rfl
  have hs' : Prepended s (s₁.setFreeWithPinuse (tbase + nb) (tsize - nb + total M) (R.seg.base + total M)) R M tbase tsize nb := by
    refine ⟨fun x => ?_, fun x => ?_, hseg₁, hleast₁, htop₁⟩
    · rw [State.setFreeWithPinuse_head, hhead₁, hhead₁, if_neg (by omega : R.seg.base + total M ≠ tbase)]
      split_ifs with h₁ h₂
      · rfl
      · rw [h₂]
      · rfl
      · rfl
    · rw [State.setFreeWithPinuse_prevFoot, hprev₁, show tbase + nb + (tsize - nb + total M) = R.seg.base + total M by omega]
  obtain ⟨hloose, hkeep⟩ := h.prepend_loose (C := C) (L := dvPart s) hused hblocks hne hM hf hbase hnb hlt hpaged hs' hbin
    (by rw [hfree]; abel)
  have hdv' : dvPart (s₁.setFreeWithPinuse (tbase + nb) (tsize - nb + total M) (R.seg.base + total M)) = dvPart s :=
    dvPart_congr hdv₁
  refine .chunk le_rfl (Loose.insert_sound (C := C) (by rw [hdv']; exact hloose) fun h0 => ?_) (hkeep.trans insertChunk_same.keeps)
  exact hdv₁.1.trans (hdv (hdv₁.2.symm.trans h0))

end Front

theorem Sound.prepend (h : Sound s used direct) {sp : Segment} (hsp : sp ∈ s.seg) (hbase : sp.base = tbase + tsize)
    (hf : Fresh s direct tbase tsize) (hnb : Request nb) (hlt : nb + MIN_CHUNK_SIZE ≤ tsize)
    (hpaged : sp.mmapped = true → tsize % PAGE_SIZE = 0) :
    Served s used direct nb ((frontMemory s sp tbase tsize).prependAlloc tbase sp.base nb) := by
  obtain ⟨⟨C, regions, records, hheap, hbin, hfree, hused⟩, hdv⟩ := h
  obtain ⟨A, R, B, rfl, rfl, hok⟩ := hheap.exists_region hsp
  have hmin : MIN_CHUNK_SIZE = 16 := rfl
  have h8 : R.seg.base % 8 = 0 := hok.aligned.1
  have hpsize : R.seg.base - tbase = tsize := by omega
  have h₁ : Front s ((frontMemory s R.seg tbase tsize).setSizeAndPinuseOfInuseChunk tbase nb) R tbase tsize nb := front_frontMemory
  have hbin₁ : Binned ((frontMemory s R.seg tbase tsize).setSizeAndPinuseOfInuseChunk tbase nb) C := hbin
  unfold State.prependAlloc
  simp only [alignAsChunk_eq h8, alignAsChunk_eq hf.aligned.1, hpsize]
  generalize (frontMemory s R.seg tbase tsize).setSizeAndPinuseOfInuseChunk tbase nb = s₁ at *
  rcases hheap.first_chunk with ⟨htop, hblocks, hhas⟩ | ⟨htop, b, rest, hblocks, hhd, hmem⟩
  · rw [if_pos (htop.trans h₁.top.1.symm)]
    exact h₁.top_served hheap hused hfree hbin₁ hdv hhas hblocks hf hbase hnb hlt hpaged
  · rw [if_neg fun heq => htop (heq.trans h₁.top.1)]
    have hold : s₁.head R.seg.base = ⟨b.size, true, b.inuse⟩ := by rw [h₁.head, if_neg (by omega), hhd]
    by_cases hdvb : R.seg.base = s.dv
    · rw [if_pos (hdvb.trans h₁.dv.1.symm)]
      obtain ⟨n, k⟩ := b
      obtain ⟨hdvsize, rfl, rfl⟩ := hheap.chunk_at_dv ((Multiset.le_add_right _ _).trans_eq hfree.symm) hdv hmem hdvb
      exact h₁.dv_served hheap hused hfree hbin₁ hdvsize hdvb hblocks hf hbase hnb hlt hpaged
    · rw [if_neg fun heq => hdvb (heq.trans h₁.dv.1), State.chunksize, hold]
      obtain ⟨n, k⟩ := b
      cases k with
      | false =>
        have hmemC : (R.seg.base, n) ∈ C := by
          rw [hfree, Multiset.mem_add] at hmem
          exact hmem.resolve_left fun hd => hdvb (mem_dvPart hd)
        obtain ⟨C', rfl⟩ := Multiset.exists_cons_of_mem hmemC
        simp only [Bool.false_eq_true, not_false_eq_true, if_true]
        exact (h₁.congr unlinkChunk_same unlinkChunk_dv).insert_served (M := [⟨n, false⟩]) hheap hused
          (by rw [hfree]; simp [blocksOf]) (unlinkChunk_binned hbin₁) hdv hblocks (hok.behind_free hblocks).1 (.inr ⟨n, rfl⟩) hf
          hbase hnb hlt hpaged
      | true =>
        simp only [not_true_eq_false, if_false]
        exact h₁.insert_served (M := []) hheap hused (by rw [hfree]; simp) hbin₁ hdv hblocks (by simp)
          (.inl ⟨rfl, fun c hc => Option.some.inj hc ▸ rfl⟩) hf hbase hnb hlt hpaged

/-! ### The place of the record -/

/-- What changes when `top` moves to a new segment: `csp` becomes the record of the old one, and what is in front of it free. -/
structure Pushed (s s' : State) (R : Region) (tbase tsize : ℕ) (mmapped : Bool) (csp : ℕ) : Prop where
  head (x : ℕ) : x < s.top ∨ R.fin ≤ x → x ≠ tbase → x ≠ tbase + (tsize - TOP_FOOT_SIZE) → s'.head x = s.head x
  record : s'.head csp = ⟨SEGMENT_SIZE, decide (csp = s.top), true⟩
  left : csp ≠ s.top → s'.head s.top = ⟨csp - s.top, true, false⟩ ∧ s'.prevFoot csp = csp - s.top
  foot (x : ℕ) : x ≤ s.top ∨ csp < x → s'.prevFoot x = s.prevFoot x
  self : s'.head tbase = ⟨tsize - TOP_FOOT_SIZE, true, false⟩
  seg : s'.seg = ⟨tbase, tsize, mmapped⟩ :: s.seg ∧ s'.contiguous = s.contiguous
  leastAddr : s'.leastAddr = min s.leastAddr tbase
  top : s'.top = tbase ∧ s'.topsize = tsize - TOP_FOOT_SIZE

theorem Heap.pushed (h : Heap s (A ++ R :: B) records direct) (hused : chunksOf true (A ++ R :: B) = used + records)
    (hhas : R.HasTop s) (hf : Fresh s direct tbase tsize) (hroom : TOP_FOOT_SIZE < tsize) {csp : ℕ}
    (hcsp : csp = s.top ∨ s.top + MIN_CHUNK_SIZE ≤ csp) (hcsp8 : csp % 8 = 0) (hend : csp + SEGMENT_SIZE + 8 ≤ R.fin)
    (hpaged : mmapped = true → s.contiguous = false ∧ tsize % PAGE_SIZE = 0) (hs' : Pushed s s' R tbase tsize mmapped csp)
    {C L : Multiset (ℕ × ℕ)} (hbin : Binned s' C) (hfree : chunksOf false (A ++ R :: B) = L + C) :
    Loose s' C (blocksOf false s.top (leftOfTop s.top csp) + L) used direct ∧ Keeps s s' (used + ↑direct) := by
  have hok := h.ok R (by simp)
  have hhstop := hhas.stop
  have hhfin := hhas.fin
  have hbase : R.stop = R.seg.base + total R.blocks := rfl
  have hrecsize : SEGMENT_SIZE = 24 := by decide
  have htopfoot : TOP_FOOT_SIZE = 40 := by decide
  have hmem : R.seg ∈ s.seg := by
    rw [← h.seg]
    simp
  have hR := hf.apart R.seg hmem
  have hfin : R.fin = R.seg.base + R.seg.size := rfl
  have hfrag := hok.frag
  rw [hhstop] at hfrag
  have hnew : Frag s'.head s'.prevFoot R.seg.base true (R.blocks ++ (leftOfTop s.top csp ++ [⟨SEGMENT_SIZE, true⟩]))
      (csp + SEGMENT_SIZE) true := by
    refine hfrag.push hcsp ?_ hcsp8 (fun x hx hx' => hs'.head x (.inl hx') (by omega) (by omega)) (fun x hx => hs'.foot x (.inl hx))
      hs'.record hs'.left
    have := hok.aligned
    have := total_mod fun b hb => (hok.frag.sizes b hb).2
    omega
  have hstop' : Region.stop ⟨R.seg, R.blocks ++ (leftOfTop s.top csp ++ [⟨SEGMENT_SIZE, true⟩])⟩ = csp + SEGMENT_SIZE :=
    hnew.end_eq.symm
  have hclosed : Region.Closed s'.top ((csp, SEGMENT_SIZE) ::ₘ records)
      ⟨R.seg, R.blocks ++ (leftOfTop s.top csp ++ [⟨SEGMENT_SIZE, true⟩])⟩ := by
    refine .inr ⟨R.blocks ++ leftOfTop s.top csp, by simp, ?_⟩
    dsimp only
    rw [total_append, total_leftOfTop, show R.seg.base + (total R.blocks + (csp - s.top)) = csp by omega]
    exact Multiset.mem_cons_self _ _
  have hok' : Region.Ok s'.head s'.prevFoot ⟨R.seg, R.blocks ++ (leftOfTop s.top csp ++ [⟨SEGMENT_SIZE, true⟩])⟩ :=
    ⟨by rw [hstop']; exact hnew, by rw [hstop']; exact hend, hok.low, hok.high, hok.aligned⟩
  have hheap := h.push hhas hf hroom hok' rfl hclosed (fun x hx h₁ h₂ => hs'.head x (by omega) h₁ h₂)
    (fun x hx => hs'.foot x (by omega)) hs'.self hpaged hs'.seg hs'.leastAddr hs'.top
  obtain ⟨hfree', hused'⟩ := chunksOf_push (A := A) (R := R) (B := B) (N := ⟨⟨tbase, tsize, mmapped⟩, []⟩) rfl hhstop
    (by omega : s.top ≤ csp)
  refine ⟨⟨_, _, hheap, hbin, by rw [hfree', hfree, add_assoc], by rw [hused', hused, Multiset.add_cons]⟩, fun c hc => ?_⟩
  have htop : s.top ≠ 0 := by
    have := hok.low
    omega
  have h₁ := h.inuse_top_apart hused htop hc
  have h₂ := h.inuse_fresh_apart hused hf hc
  exact ⟨fun x hx hx' => hs'.head x (by omega) (by omega) (by omega), fun x hx hx' => hs'.foot x (by omega)⟩

/-- Fenceposts are heads. -/
theorem fenceposts_spec {n : ℕ} (hs' : s' = s.fenceposts p n) : (∃ head, s' = { s with head := head }) ∧
    ∀ x, x < p ∨ p + 4 * n ≤ x → s'.head x = s.head x := by
  subst hs'
  induction n generalizing s p with
  | zero => exact ⟨⟨s.head, rfl⟩, fun _ _ => rfl⟩
  | succ n ih =>
    obtain ⟨⟨head, heq⟩, hout⟩ := ih (s := s.setHead p FENCEPOST_HEAD) (p := p + 4)
    refine ⟨⟨head, heq⟩, fun x hx => ?_⟩
    rw [State.fenceposts, hout x (by omega), State.setHead_head, if_neg (by omega)]

/-- The place for the record that is left at the end of a segment. -/
theorem record_place {top topsize oldEnd : ℕ} (h : top + topsize + TOP_FOOT_SIZE = oldEnd) (htop : 8 ≤ top) (h8 : oldEnd % 8 = 0) :
    oldEnd - (SEGMENT_SIZE + 16 + CHUNK_ALIGN_MASK) + alignOffset (chunk2mem (oldEnd - (SEGMENT_SIZE + 16 + CHUNK_ALIGN_MASK))) =
      top + topsize := by
  have hrecsize : SEGMENT_SIZE = 24 := by decide
  have htopfoot : TOP_FOOT_SIZE = 40 := by decide
  have hmask : CHUNK_ALIGN_MASK = 7 := rfl
  rw [alignOffset, chunk2mem, if_neg (by omega)]
  omega

theorem Heap.find_top (h : Heap s regions records direct) (htop : s.top ≠ 0) :
    ∃ sp ∈ s.seg, s.seg.find? (State.segmentHolds · s.top) = some sp ∧ State.segmentHolds sp s.top = true := by
  cases hfind : s.seg.find? (State.segmentHolds · s.top) with
  | some sp => exact ⟨sp, List.mem_of_find?_eq_some hfind, rfl, by simpa using List.find?_some hfind⟩
  | none =>
    exfalso
    obtain ⟨A, R, B, rfl, hok, hhas⟩ := h.exists_top htop
    refine List.find?_eq_none.mp hfind R.seg (by rw [← h.seg]; simp) ?_
    rw [← hhas.stop]
    exact hok.holds_stop

theorem Sound.addSegment (m : Params) (h : Sound s used direct) (htop : s.top ≠ 0) (hf : Fresh s direct tbase tsize)
    (hroom : TOP_FOOT_SIZE < tsize) (hpaged : mmapped = true → s.contiguous = false ∧ tsize % PAGE_SIZE = 0) :
    Sound ({ s with leastAddr := min s.leastAddr tbase }.addSegment m tbase tsize mmapped) used direct ∧
      Keeps s ({ s with leastAddr := min s.leastAddr tbase }.addSegment m tbase tsize mmapped) (used + ↑direct) := by
  obtain ⟨⟨C, regions, records, hheap, hbin, hfree, hused⟩, hdv⟩ := h
  obtain ⟨sp, hsp, hfind, hholds⟩ := hheap.find_top htop
  obtain ⟨A, R, B, rfl, rfl, hhas⟩ := hheap.region_of_top hsp hholds
  have hok := hheap.ok R (by simp)
  have hrecsize : SEGMENT_SIZE = 24 := by decide
  have htopfoot : TOP_FOOT_SIZE = 40 := by decide
  have hmin : MIN_CHUNK_SIZE = 16 := rfl
  have hfin : R.seg.base + R.seg.size = R.fin := rfl
  have hstop : R.stop = R.seg.base + total R.blocks := rfl
  have hhstop := hhas.stop
  have hhfin := hhas.fin
  have hseg8 := hok.aligned
  have htot8 := total_mod fun b hb => (hok.frag.sizes b hb).2
  have hlow := hok.low
  have hfresh := hf.apart R.seg hsp
  have hplace := record_place hhfin (by omega) (by omega)
  unfold State.addSegment
  dsimp only
  rw [hfind]
  dsimp only
  rw [hfin, hplace, hf.sub32_foot hroom]
  clear hplace
  generalize hcsp : (if s.top + s.topsize < s.top + MIN_CHUNK_SIZE then s.top else s.top + s.topsize) = csp
  have hcsp' : csp = s.top ∨ s.top + MIN_CHUNK_SIZE ≤ csp := by
    split_ifs at hcsp
    · exact .inl hcsp.symm
    · exact .inr (by omega)
  have hle : csp ≤ s.top + s.topsize ∧ csp % 8 = 0 := by
    split_ifs at hcsp
    · omega
    · omega
  have hfences : csp + SEGMENT_SIZE + 4 * ((R.fin - (csp + SEGMENT_SIZE)) / 4 - 1) ≤ R.fin := by omega
  generalize hs₄ : State.fenceposts _ (csp + SEGMENT_SIZE) _ = s₄
  rw [initTop_eq hf.aligned.1] at hs₄
  obtain ⟨⟨head₄, heq₄⟩, hout₄⟩ := fenceposts_spec hs₄.symm
  have hhead₄ (x : ℕ) (hx : x < csp + SEGMENT_SIZE ∨ R.fin ≤ x) : s₄.head x = if x = csp then ⟨SEGMENT_SIZE, true, true⟩ else
      if x = tbase + (tsize - TOP_FOOT_SIZE) then ⟨TOP_FOOT_SIZE, false, false⟩ else
        if x = tbase then ⟨tsize - TOP_FOOT_SIZE, true, false⟩ else s.head x := by
    rw [hout₄ x (hx.imp_right hfences.trans)]
    dsimp only
    rw [State.setSizeAndPinuseOfInuseChunk_head, State.setHead_head, State.setHead_head]
  have hbin₄ : Binned s₄ C := by
    rw [heq₄]
    exact hbin
  have hdv₄ : s₄.dv = s.dv ∧ s₄.dvsize = s.dvsize := by
    rw [heq₄]
    exact ⟨rfl, rfl⟩
  have hfoot₄ : s₄.prevFoot = s.prevFoot := by
    rw [heq₄]
    rfl
  have hseg₄ : (s₄.seg = ⟨tbase, tsize, mmapped⟩ :: s.seg ∧ s₄.contiguous = s.contiguous) ∧
      s₄.leastAddr = min s.leastAddr tbase ∧ s₄.top = tbase ∧ s₄.topsize = tsize - TOP_FOOT_SIZE := by
    rw [heq₄]
    exact ⟨⟨rfl, rfl⟩, rfl, rfl, rfl⟩
  clear hs₄ heq₄ hout₄
  obtain ⟨hseg₄, hleast₄, htop₄⟩ := hseg₄
  have htopcsp : s.top ≤ csp := by omega
  have hcspfin : csp + SEGMENT_SIZE + 8 ≤ R.fin := by omega
  have hself : tbase ≠ csp ∧ tbase ≠ s.top ∧ (tbase < csp + SEGMENT_SIZE ∨ R.fin ≤ tbase) := by
    clear hcsp hcsp' hfences htot8 hseg8
    omega
  clear hfences hfresh hfin hstop hhstop hhfin hseg8 htot8 hlow hcsp
  split_ifs with hne
  · have hsum : s.top + (csp - s.top) = csp := by omega
    have hs' : Pushed s (s₄.setFreeWithPinuse s.top (csp - s.top) csp) R tbase tsize mmapped csp := by
      refine ⟨fun x hx h₁ h₂ => ?_, ?_, fun _ => ⟨?_, ?_⟩, fun x hx => ?_, ?_, hseg₄, hleast₄, htop₄⟩
      · rw [State.setFreeWithPinuse_head, if_neg (by omega), if_neg (by omega), hhead₄ x (by omega), if_neg (by omega),
          if_neg h₂, if_neg h₁]
      · rw [State.setFreeWithPinuse_head, if_neg hne, if_pos rfl, hhead₄ csp (by omega), if_pos rfl, decide_eq_false hne]
      · rw [State.setFreeWithPinuse_head, if_pos rfl]
      · rw [State.setFreeWithPinuse_prevFoot, hsum, if_pos rfl]
      · rw [State.setFreeWithPinuse_prevFoot, hsum, if_neg (by omega), hfoot₄]
      · rw [State.setFreeWithPinuse_head, if_neg hself.2.1, if_neg hself.1, hhead₄ tbase hself.2.2, if_neg hself.1,
          if_neg (by omega), if_pos rfl]
    obtain ⟨hloose, hkeep⟩ := hheap.pushed hused hhas hf hroom hcsp' hle.2 hcspfin hpaged hs' (C := C) hbin₄ hfree
    have hleft : blocksOf false s.top (leftOfTop s.top csp) = {(s.top, csp - s.top)} := by
      rw [leftOfTop, if_neg hne]
      simp [blocksOf]
    have hdv' : dvPart (s₄.setFreeWithPinuse s.top (csp - s.top) csp) = dvPart s := dvPart_congr hdv₄
    rw [hleft, ← hdv'] at hloose
    exact ⟨Loose.insert_sound hloose fun h0 => hdv₄.1.trans (hdv (hdv₄.2.symm.trans h0)), hkeep.trans insertChunk_same.keeps⟩
  · have hs' : Pushed s s₄ R tbase tsize mmapped csp := by
      refine ⟨fun x hx h₁ h₂ => ?_, ?_, fun h => absurd h hne, fun x _ => congrFun hfoot₄ x, ?_, hseg₄, hleast₄, htop₄⟩
      · rw [hhead₄ x (by omega), if_neg (by omega), if_neg h₂, if_neg h₁]
      · rw [hhead₄ csp (by omega), if_pos rfl, decide_eq_true (not_not.mp hne)]
      · rw [hhead₄ tbase hself.2.2, if_neg hself.1, if_neg (by omega), if_pos rfl]
    obtain ⟨hloose, hkeep⟩ := hheap.pushed hused hhas hf hroom hcsp' hle.2 hcspfin hpaged hs' (C := C) hbin₄ hfree
    have hleft : blocksOf false s.top (leftOfTop s.top csp) = 0 := by
      rw [leftOfTop, if_pos (not_not.mp hne)]
      rfl
    rw [hleft, zero_add, ← dvPart_congr hdv₄] at hloose
    exact ⟨⟨⟨C, hloose⟩, fun h0 => hdv₄.1.trans (hdv (hdv₄.2.symm.trans h0))⟩, hkeep⟩

/-! ### `sys_alloc` -/

/-- The memory that `sys_alloc` has got: there is room for the end of a segment in it, or it extends the segment of `top`; `MMAP`
gives whole pages, and more than was asked for, and `MORECORE` gives memory behind what it gave before. -/
structure Space (s : State) (direct : List (ℕ × ℕ)) (nb tbase tsize : ℕ) (mmapped : Bool) : Prop extends
    Fresh s direct tbase tsize where
  room : TOP_FOOT_SIZE < tsize ∨
    ∃ sp ∈ s.seg, sp.base + sp.size = tbase ∧ sp.mmapped = mmapped ∧ State.segmentHolds sp s.top = true
  mmap : mmapped = true → (nb + TOP_FOOT_SIZE < tsize ∧ tsize % PAGE_SIZE = 0) ∧ s.contiguous = false
  morecore : mmapped = false → ∀ sp ∈ s.seg, sp.mmapped = false → sp.base + sp.size ≤ tbase

/-- What is asked for: a request, or more than there can be. -/
def Asked (nb : ℕ) : Prop := Request nb ∨ nb = MAX_SIZE_T

theorem Served.trans {r : State × Option ℕ} (h : Served s' used direct nb r) (hkeep : Keeps s s' (used + ↑direct)) :
    Served s used direct nb r := by
  cases h with
  | fail hsound hkeep' => exact .fail hsound (hkeep.trans hkeep')
  | chunk hle hsound hkeep' => exact .chunk hle hsound (hkeep.trans hkeep')
  | mapped hle hsound hkeep' => exact .mapped hle hsound (hkeep.trans hkeep')

theorem Sound.topsize_lt (h : Sound s used direct) : s.topsize < MAX_SIZE_T := by
  obtain ⟨⟨C, regions, records, hheap, -⟩, -⟩ := h
  have hmax : MAX_SIZE_T = 2 ^ 32 - 1 := rfl
  have htopfoot : TOP_FOOT_SIZE = 40 := by decide
  rcases hheap.top with ⟨-, h0, -⟩ | ⟨R, hR, hhas⟩
  · omega
  · have := hhas.fin
    have := (hheap.ok R hR).high
    omega

theorem Sound.dvsize_lt (h : Sound s used direct) : s.dvsize < MAX_SIZE_T := by
  obtain ⟨⟨C, hloose⟩, -⟩ := h
  have hmax : MAX_SIZE_T = 2 ^ 32 - 1 := rfl
  by_cases hdv : s.dvsize = 0
  · omega
  · rw [dvPart_eq hdv] at hloose
    have := (Loose.bounds (L := 0) hloose).2.2.2.2.1
    omega

theorem fromTop_spec (h : Sound s used direct) (hnb : Asked nb) : Served s used direct nb (s.fromTop nb) := by
  unfold State.fromTop
  split_ifs with hlt
  · rcases hnb with hnb | rfl
    · exact splitTop_spec h hnb hlt
    · exact absurd h.topsize_lt hlt.not_gt
  · exact .fail h (SameMemory.keeps ⟨rfl, rfl, ⟨rfl, rfl⟩, rfl, rfl, rfl⟩)

theorem Space.paged (hsp : Space s direct nb tbase tsize mmapped) (hm : mmapped = true) :
    s.contiguous = false ∧ tsize % PAGE_SIZE = 0 := ⟨(hsp.mmap hm).2, (hsp.mmap hm).1.2⟩

theorem newMemory_spec (h : Sound s used direct) (hnb : Asked nb) (htop : s.top ≠ 0) (hsp : Space s direct nb tbase tsize mmapped)
    (hroom : TOP_FOOT_SIZE < tsize) : Served s used direct nb (s.newMemory m tbase tsize mmapped nb) := by
  have alone : Served s used direct nb
      (({ s with leastAddr := min s.leastAddr tbase }.addSegment m tbase tsize mmapped).fromTop nb) := by
    obtain ⟨hsound, hkeep⟩ := Sound.addSegment m h htop hsp.toFresh hroom hsp.paged
    exact (fromTop_spec hsound hnb).trans hkeep
  unfold State.newMemory
  dsimp only
  cases hfind : s.seg.find? (fun sp => sp.base = tbase + tsize) with
  | none => exact alone
  | some sp =>
    dsimp only
    have hmem := List.mem_of_find?_eq_some hfind
    have hbase : sp.base = tbase + tsize := by simpa using List.find?_some hfind
    split_ifs with hsame
    · cases hm : mmapped with
      | false =>
        have := hsp.morecore hm sp hmem (hsame.trans hm)
        omega
      | true =>
        have hmap := (hsp.mmap hm).1.1
        have htopfoot : TOP_FOOT_SIZE = 40 := by decide
        have hmin : MIN_CHUNK_SIZE = 16 := rfl
        have hmax : MAX_SIZE_T = 2 ^ 32 - 1 := rfl
        have hhigh := hsp.high
        rcases hnb with hnb | rfl
        · exact h.prepend hmem hbase hsp.toFresh hnb (by omega) fun _ => (hsp.paged hm).2
        · omega
    · exact alone

theorem useMemory_spec (h : Sound s used direct) (hnb : Asked nb) (hsp : Space s direct nb tbase tsize mmapped) :
    Served s used direct nb (s.useMemory m tbase tsize mmapped nb) := by
  unfold State.useMemory
  split_ifs with htop
  · have hroom : TOP_FOOT_SIZE < tsize := by
      refine hsp.room.resolve_right ?_
      rintro ⟨sp, hmem, -⟩
      obtain ⟨⟨C, regions, records, hheap, -⟩, -⟩ := h
      rw [← hheap.seg, hheap.regions_nil htop] at hmem
      simp at hmem
    obtain ⟨hsound, hkeep⟩ := Sound.first m h htop hsp.toFresh hroom hsp.paged
    rw [hsp.sub32_foot hroom]
    exact (fromTop_spec hsound hnb).trans hkeep
  · have hunique (sp sq : Segment) (hp : sp ∈ s.seg) (hq : sq ∈ s.seg) (hpe : sp.base + sp.size = tbase)
        (hqe : sq.base + sq.size = tbase) : sp = sq := by
      obtain ⟨⟨C, regions, records, hheap, -⟩, -⟩ := h
      obtain ⟨A, R, B, rfl, rfl, hok⟩ := hheap.exists_region hp
      rw [← hheap.seg] at hq
      obtain ⟨Q, hQ, rfl⟩ := List.mem_map.mp hq
      by_cases hQR : Q = R
      · rw [hQR]
      · exfalso
        have hapart := hheap.apart_middle Q ((mem_middle.mp hQ).resolve_left hQR)
        have hsize := hok.size_le
        have hsizeQ := (hheap.ok Q hQ).size_le
        unfold Segment.Apart at hapart
        omega
    cases hfind : s.seg.find? (fun sp => sp.base + sp.size = tbase) with
    | none =>
      refine newMemory_spec h hnb htop hsp (hsp.room.resolve_right ?_)
      rintro ⟨sp, hmem, hend, -⟩
      exact absurd hend (by simpa using List.find?_eq_none.mp hfind sp hmem)
    | some sp =>
      dsimp only
      have hmem := List.mem_of_find?_eq_some hfind
      have hend : sp.base + sp.size = tbase := by simpa using List.find?_some hfind
      split_ifs with hext
      · obtain ⟨hsound, hkeep⟩ := h.extendTop m htop hmem hend hext.2 hsp.toFresh fun hm =>
          (hsp.paged (hext.1.symm.trans hm)).2
        exact (fromTop_spec hsound hnb).trans hkeep
      · refine newMemory_spec h hnb htop hsp (hsp.room.resolve_right ?_)
        rintro ⟨sq, hmem', hend', hsame, hholds⟩
        obtain rfl := hunique sp sq hmem hmem' hend hend'
        exact hext ⟨hsame, hholds⟩

theorem granularity_spec (m : Params) : m.granularity % PAGE_SIZE = 0 ∧ PAGE_SIZE ≤ m.granularity ∧ m.granularity ≤ 2 ^ 30 := by
  obtain ⟨k, hk, hk31, hg⟩ := m.pow
  rw [hg]
  exact ⟨Nat.mod_eq_zero_of_dvd (Nat.pow_dvd_pow 2 hk), Nat.pow_le_pow_right (by decide) hk,
    Nat.pow_le_pow_right (by decide) (by omega)⟩

theorem granularityAlign_mod (m : Params) (n : ℕ) : m.granularityAlign n % PAGE_SIZE = 0 :=
  Nat.mod_eq_zero_of_dvd ((Nat.dvd_of_mod_eq_zero (granularity_spec m).1).mul_left _)

/-- Where it does not wrap around, the aligned size has more room. -/
theorem granularityAlign_gt (m : Params) {n : ℕ} (hn : n + m.granularity < 2 ^ 32) : n < m.granularityAlign n := by
  have hpos : 0 < m.granularity := lt_of_lt_of_le (by decide) (granularity_spec m).2.1
  have hdiv := Nat.div_add_mod (n + m.granularity) m.granularity
  have hmod := Nat.mod_lt (n + m.granularity) hpos
  unfold Params.granularityAlign
  rw [Nat.mod_eq_of_lt hn, Nat.mul_comm]
  omega

/-- Where it is more than was asked for, it has not wrapped around. -/
theorem granularityAlign_gt_add (m : Params) {n k : ℕ} (hn : n < 2 ^ 32) (hk : k < 2 ^ 12) (hlt : n < m.granularityAlign (n + k)) :
    n + k < m.granularityAlign (n + k) := by
  have hle := (granularity_spec m).2.2
  by_cases hwrap : n + k + m.granularity < 2 ^ 32
  · exact granularityAlign_gt m hwrap
  · exfalso
    have hmul := Nat.div_mul_le_self ((n + k + m.granularity) % 2 ^ 32) m.granularity
    unfold Params.granularityAlign at hlt
    omega

theorem mmapAlloc_spec (h : Sound s used direct) (m : Params) (hnb : nb < 2 ^ 32) {mm : Option ℕ}
    (hmm : ∀ p, mm = some p → Fresh s direct p (m.granularityAlign (nb + 24 + CHUNK_ALIGN_MASK))) :
    Served s used direct nb (s.mmapAlloc m nb mm) := by
  have stays : Served s used direct nb (s, none) := .fail h (SameMemory.keeps ⟨rfl, rfl, ⟨rfl, rfl⟩, rfl, rfl, rfl⟩)
  have hpad : MMAP_FOOT_PAD = 16 := rfl
  unfold State.mmapAlloc
  dsimp only
  split_ifs with hlt
  · cases mm with
    | none => exact stays
    | some p =>
      have hf := hmm p rfl
      have hsize := granularityAlign_gt_add m (k := 31) hnb (by decide) hlt
      rw [show nb + 24 + CHUNK_ALIGN_MASK = nb + 31 by rfl] at hf ⊢
      generalize m.granularityAlign (nb + 31) = mmsize at *
      dsimp only
      rw [alignOffset_eq (by rw [chunk2mem]; exact (Nat.add_mod_right p 8).trans hf.aligned.1), Nat.sub_zero, Nat.add_zero]
      have hf' : Fresh s direct p (mmsize - MMAP_FOOT_PAD + MMAP_FOOT_PAD) := by rwa [Nat.sub_add_cancel (by omega)]
      obtain ⟨⟨C, regions, records, hheap, hbin, hfree, hused⟩, hdv⟩ := h
      have hrange (x : ℕ) (hx : x < p ∨ p + mmsize ≤ x) : Function.update (Function.update (Function.update s.head p
          ⟨mmsize - MMAP_FOOT_PAD, false, true⟩) (p + (mmsize - MMAP_FOOT_PAD)) FENCEPOST_HEAD)
            (p + (mmsize - MMAP_FOOT_PAD) + 4) ⟨0, false, false⟩ x = s.head x := by
        rw [Function.update_of_ne (by omega), Function.update_of_ne (by omega), Function.update_of_ne (by omega)]
      refine .mapped (n := mmsize - MMAP_FOOT_PAD) (by omega) ⟨⟨C, regions, records,
        hheap.map hf' (fun x hx => hrange x (by omega)) ?_ (fun x => Function.update_apply ..) ⟨rfl, rfl⟩ rfl
          ⟨rfl, rfl⟩, hbin, hfree, hused⟩,
        hdv⟩ (keeps_of_range (a := p - 1) (e := p + mmsize) (fun x hx => hrange x (by omega)) (fun x hx => ?_) fun c hc _ => ?_)
      · dsimp only [State.setHead]
        rw [Function.update_of_ne (by omega), Function.update_of_ne (by omega), Function.update_self]
      · have := hf.low
        exact (Function.update_apply ..).trans (if_neg (by omega))
      · have := hheap.inuse_fresh_apart hused hf hc
        omega
  · exact stays

end Bionic.Dlmalloc
