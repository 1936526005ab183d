import Bionic.DlmallocHeap

/-! # The allocator between its steps

Within a call some free chunks are in no bin (`Loose`): one that has been unlinked, one that is left of another, or `dv`.
Unlinking, inserting, taking and cutting a chunk move it between the bins, the loose chunks and those in use, and keep
whatever stands within the chunks in use (`Keeps`).  Between two calls only `dv` is loose (`Sound`). -/

namespace Bionic.Dlmalloc

/-- The words that bins do not have. -/
structure SameMemory (s s' : State) : Prop where
  head : s'.head = s.head
  prevFoot : s'.prevFoot = s.prevFoot
  seg : s'.seg = s.seg ∧ s'.contiguous = s.contiguous
  leastAddr : s'.leastAddr = s.leastAddr
  top : s'.top = s.top
  topsize : s'.topsize = s.topsize

/-- What stands within the chunks is the same. -/
def Keeps (s s' : State) (chunks : Multiset (ℕ × ℕ)) : Prop :=
  ∀ c ∈ chunks, (∀ x, c.1 < x → x < c.1 + c.2 → s'.head x = s.head x) ∧
    ∀ x, c.1 < x → x ≤ c.1 + c.2 → s'.prevFoot x = s.prevFoot x

/-- The free chunks are `L` and those in the bins, `C`; the chunks in use are `used` and the records of segments. -/
def Loose (s : State) (C L used : Multiset (ℕ × ℕ)) (direct : List (ℕ × ℕ)) : Prop :=
  ∃ regions records, Heap s regions records direct ∧ Binned s C ∧ chunksOf false regions = L + C ∧
    chunksOf true regions = used + records

/-- The chunk `dv`, if there is one. -/
def dvPart (s : State) : Multiset (ℕ × ℕ) := if s.dvsize = 0 then 0 else {(s.dv, s.dvsize)}

/-- What holds between two calls. -/
def Sound (s : State) (used : Multiset (ℕ × ℕ)) (direct : List (ℕ × ℕ)) : Prop :=
  (∃ C, Loose s C (dvPart s) used direct) ∧ (s.dvsize = 0 → s.dv = 0)

/-- What a call that asks for a chunk of `nb` bytes makes of the chunks in use. -/
inductive Served (s : State) (used : Multiset (ℕ × ℕ)) (direct : List (ℕ × ℕ)) (nb : ℕ) : State × Option ℕ → Prop
  | fail {s' : State} : Sound s' used direct → Keeps s s' (used + ↑direct) → Served s used direct nb (s', none)
  | chunk {s' : State} {p n : ℕ} : nb ≤ n → Sound s' ((p, n) ::ₘ used) direct → Keeps s s' (used + ↑direct) →
      Served s used direct nb (s', some (chunk2mem p))
  | mapped {s' : State} {p n : ℕ} : nb + 4 ≤ n → Sound s' used ((p, n) :: direct) → Keeps s s' (used + ↑direct) →
      Served s used direct nb (s', some (chunk2mem p))

section Same

variable {s s' s'' : State} {used C chunks : Multiset (ℕ × ℕ)} {direct : List (ℕ × ℕ)} {p n : ℕ}

theorem SameMemory.trans (h : SameMemory s s') (h' : SameMemory s' s'') : SameMemory s s'' :=
  ⟨h'.head.trans h.head, h'.prevFoot.trans h.prevFoot, ⟨h'.seg.1.trans h.seg.1, h'.seg.2.trans h.seg.2⟩,
    h'.leastAddr.trans h.leastAddr, h'.top.trans h.top, h'.topsize.trans h.topsize⟩

theorem insertSmallChunk_same : SameMemory s (s.insertSmallChunk p n) := by
  unfold State.insertSmallChunk
  dsimp only
  split_ifs
  · exact ⟨rfl, rfl, ⟨rfl, rfl⟩, rfl, rfl, rfl⟩
  · exact ⟨rfl, rfl, ⟨rfl, rfl⟩, rfl, rfl, rfl⟩

theorem unlinkSmallChunk_same : SameMemory s (s.unlinkSmallChunk p n) := by
  unfold State.unlinkSmallChunk
  split_ifs
  · exact ⟨rfl, rfl, ⟨rfl, rfl⟩, rfl, rfl, rfl⟩
  · exact ⟨rfl, rfl, ⟨rfl, rfl⟩, rfl, rfl, rfl⟩

theorem insertChunk_same : SameMemory s (s.insertChunk p n) := by
  unfold State.insertChunk
  split_ifs
  · exact insertSmallChunk_same
  · exact ⟨rfl, rfl, ⟨rfl, rfl⟩, rfl, rfl, rfl⟩

theorem unlinkChunk_same : SameMemory s (s.unlinkChunk p n) := by
  unfold State.unlinkChunk
  split_ifs
  · exact unlinkSmallChunk_same
  · exact ⟨rfl, rfl, ⟨rfl, rfl⟩, rfl, rfl, rfl⟩

theorem insertSmallChunk_dv : (s.insertSmallChunk p n).dv = s.dv ∧ (s.insertSmallChunk p n).dvsize = s.dvsize := by
  unfold State.insertSmallChunk
  dsimp only
  split_ifs
  · exact ⟨rfl, rfl⟩
  · exact ⟨rfl, rfl⟩

theorem unlinkSmallChunk_dv : (s.unlinkSmallChunk p n).dv = s.dv ∧ (s.unlinkSmallChunk p n).dvsize = s.dvsize := by
  unfold State.unlinkSmallChunk
  split_ifs
  · exact ⟨rfl, rfl⟩
  · exact ⟨rfl, rfl⟩

theorem insertChunk_dv : (s.insertChunk p n).dv = s.dv ∧ (s.insertChunk p n).dvsize = s.dvsize := by
  unfold State.insertChunk
  split_ifs
  · exact insertSmallChunk_dv
  · exact ⟨rfl, rfl⟩

theorem unlinkChunk_dv : (s.unlinkChunk p n).dv = s.dv ∧ (s.unlinkChunk p n).dvsize = s.dvsize := by
  unfold State.unlinkChunk
  split_ifs
  · exact unlinkSmallChunk_dv
  · exact ⟨rfl, rfl⟩

theorem dvPart_congr (h : s'.dv = s.dv ∧ s'.dvsize = s.dvsize) : dvPart s' = dvPart s := by
  rw [dvPart, dvPart, h.1, h.2]

theorem dvPart_eq (h : s.dvsize ≠ 0) : dvPart s = {(s.dv, s.dvsize)} := if_neg h

theorem mem_dvPart {c : ℕ × ℕ} (h : c ∈ dvPart s) : c.1 = s.dv := by
  rw [dvPart] at h
  split_ifs at h
  · exact absurd h (Multiset.notMem_zero c)
  · rw [Multiset.mem_singleton.mp h]

theorem Heap.congr {regions : List Region} {records : Multiset (ℕ × ℕ)} (h : Heap s regions records direct)
    (hsame : SameMemory s s') : Heap s' regions records direct where
  seg := by rw [hsame.seg.1]; exact h.seg
  apart := by rw [hsame.seg.1]; exact h.apart
  ok R hR := by rw [hsame.head, hsame.prevFoot]; exact h.ok R hR
  top := by
    rw [hsame.top, hsame.topsize]
    refine h.top.imp_right fun ⟨R, hR, hhas⟩ => ⟨R, hR, ?_⟩
    exact ⟨by rw [hsame.top, hhas.stop], by rw [hsame.top, hsame.topsize, hhas.fin],
      by rw [hsame.top, hsame.topsize, hsame.head, hhas.head], by rw [hsame.topsize]; exact hhas.pos⟩
  first R hR := by rw [hsame.top]; exact h.first R hR
  closed R hR := by rw [hsame.top]; exact h.closed R hR
  least R hR := by rw [hsame.leastAddr]; exact h.least R hR
  paged R hR hm := by rw [hsame.seg.2]; exact h.paged R hR hm
  mapped c hc := by
    have hold := h.mapped c hc
    exact ⟨by rw [hsame.head, hold.head], by rw [hsame.prevFoot, hold.foot], hold.low, hold.aligned,
      hold.high, by rw [hsame.seg.1]; exact hold.apart⟩
  mappedApart := h.mappedApart

theorem SameMemory.keeps (h : SameMemory s s') : Keeps s s' chunks :=
  fun _ _ => ⟨fun _ _ _ => by rw [h.head], fun _ _ _ => by rw [h.prevFoot]⟩

theorem Keeps.trans (h : Keeps s s' chunks) (h' : Keeps s' s'' chunks) : Keeps s s'' chunks := by
  intro c hc
  refine ⟨fun x hx hx' => ?_, fun x hx hx' => ?_⟩
  · rw [(h' c hc).1 x hx hx', (h c hc).1 x hx hx']
  · rw [(h' c hc).2 x hx hx', (h c hc).2 x hx hx']

/-- Something has changed only where none of the chunks are. -/
theorem keeps_of_range {a e : ℕ} (hhead : ∀ x, x < a ∨ e < x → s'.head x = s.head x)
    (hfoot : ∀ x, x ≤ a ∨ e < x → s'.prevFoot x = s.prevFoot x)
    (hout : ∀ c ∈ chunks, 0 < c.2 → c.1 + c.2 ≤ a ∨ e ≤ c.1) : Keeps s s' chunks := by
  intro c hc
  refine ⟨fun x hx hx' => hhead x ?_, fun x hx hx' => hfoot x ?_⟩
  · have := hout c hc (by omega)
    omega
  · have := hout c hc (by omega)
    omega

end Same

section Chunks

variable {s : State} {regions : List Region} {records : Multiset (ℕ × ℕ)} {direct : List (ℕ × ℕ)} {k : Bool} {c d : ℕ × ℕ}

/-- Where a segment with its chunks lies. -/
theorem Heap.chunk_inside (h : Heap s regions records direct) (hc : c ∈ chunksOf k regions) :
    ∃ R ∈ regions, R.seg ∈ s.seg ∧ R.seg.base ≤ c.1 ∧ c.1 + c.2 + 8 ≤ R.seg.base + R.seg.size := by
  obtain ⟨R, hR, hmem⟩ := mem_chunksOf.mp hc
  exact ⟨R, hR, by rw [← h.seg]; exact List.mem_map_of_mem hR, (h.ok R hR).inside hmem⟩

/-- Where a chunk begins, there is only one. -/
theorem Heap.chunk_unique (h : Heap s regions records direct) {k' : Bool} {p n n' : ℕ} (hc : (p, n) ∈ chunksOf k regions)
    (hd : (p, n') ∈ chunksOf k' regions) : n = n' ∧ k = k' := by
  have hn := (h.chunk hc).2.2.1
  have hn' := (h.chunk hd).2.2.1
  have hmin : MIN_CHUNK_SIZE = 16 := rfl
  rcases h.chunks_apart hc hd with hap | hap | ⟨heq, hk⟩
  · dsimp only at *
    omega
  · dsimp only at *
    omega
  · exact ⟨(Prod.mk.inj heq).2, hk⟩

/-- The chunk that begins at `dv` is `dv`, and it is free. -/
theorem Heap.chunk_at_dv (h : Heap s regions records direct) (hpart : dvPart s ≤ chunksOf false regions)
    (hdv : s.dvsize = 0 → s.dv = 0) {p n : ℕ} (hc : (p, n) ∈ chunksOf k regions) (hp : p = s.dv) :
    s.dvsize ≠ 0 ∧ n = s.dvsize ∧ k = false := by
  have hdvsize : s.dvsize ≠ 0 := by
    intro h0
    have hlow : 8 ≤ p := (h.chunk hc).1
    rw [hp, hdv h0] at hlow
    omega
  have hmem : (p, s.dvsize) ∈ chunksOf false regions := by
    refine Multiset.mem_of_le hpart ?_
    rw [dvPart_eq hdvsize, hp]
    exact Multiset.mem_singleton_self _
  exact ⟨hdvsize, h.chunk_unique hc hmem⟩

theorem Heap.direct_apart (h : Heap s regions records direct) (hc : c ∈ direct) (hd : d ∈ chunksOf k regions) :
    c.1 + c.2 ≤ d.1 ∨ d.1 + d.2 ≤ c.1 := by
  obtain ⟨R, -, hseg, hlo, hhi⟩ := h.chunk_inside hd
  have := (h.mapped c hc).apart R.seg hseg
  omega

/-- What is in use does not meet a free chunk. -/
theorem Heap.inuse_apart (h : Heap s regions records direct) {used : Multiset (ℕ × ℕ)}
    (hused : chunksOf true regions = used + records) (hd : d ∈ chunksOf false regions) (hc : c ∈ used + ↑direct) :
    c.1 + c.2 ≤ d.1 ∨ d.1 + d.2 ≤ c.1 := by
  rcases Multiset.mem_add.mp hc with hc | hc
  · have hmem : c ∈ chunksOf true regions := by
      rw [hused]
      exact Multiset.mem_add.mpr (.inl hc)
    have := h.chunks_apart hmem hd
    simpa using this
  · exact h.direct_apart (Multiset.mem_coe.mp hc) hd

/-- No chunk meets `top`. -/
theorem Heap.top_apart (h : Heap s regions records direct) (htop : s.top ≠ 0) (hc : c ∈ chunksOf k regions) :
    c.1 + c.2 ≤ s.top ∨ s.top + s.topsize + TOP_FOOT_SIZE ≤ c.1 := by
  obtain ⟨A, R, B, rfl, hok, hhas⟩ := h.exists_top htop
  obtain ⟨R', hR', hmem⟩ := mem_chunksOf.mp hc
  have hrange := blocksOf_range c hmem
  have hstop : R.stop = R.seg.base + total R.blocks := rfl
  have hfin : R.fin = R.seg.base + R.seg.size := rfl
  have hhstop := hhas.stop
  have hhfin := hhas.fin
  by_cases hRR : R' = R
  · subst hRR
    omega
  · have hR'' : R' ∈ A ∨ R' ∈ B := (mem_middle.mp hR').resolve_left hRR
    have hapart := h.apart_middle R' hR''
    have hin := (h.ok R' hR').inside hmem
    unfold Segment.Apart at hapart
    omega

theorem Heap.direct_top_apart (h : Heap s regions records direct) (htop : s.top ≠ 0) (hc : c ∈ direct) :
    c.1 + c.2 ≤ s.top ∨ s.top + s.topsize + TOP_FOOT_SIZE ≤ c.1 := by
  obtain ⟨A, R, B, rfl, hok, hhas⟩ := h.exists_top htop
  have hseg : R.seg ∈ s.seg := by
    rw [← h.seg]
    simp
  have := (h.mapped c hc).apart R.seg hseg
  have hstop : R.stop = R.seg.base + total R.blocks := rfl
  have hfin : R.fin = R.seg.base + R.seg.size := rfl
  have := hhas.stop
  have := hhas.fin
  omega

/-- What is in use does not meet `top`. -/
theorem Heap.inuse_top_apart (h : Heap s regions records direct) {used : Multiset (ℕ × ℕ)}
    (hused : chunksOf true regions = used + records) (htop : s.top ≠ 0) (hc : c ∈ used + ↑direct) :
    c.1 + c.2 ≤ s.top ∨ s.top + s.topsize + TOP_FOOT_SIZE ≤ c.1 := by
  rcases Multiset.mem_add.mp hc with hc | hc
  · refine h.top_apart htop (k := true) ?_
    rw [hused]
    exact Multiset.mem_add.mpr (.inl hc)
  · exact h.direct_top_apart htop (Multiset.mem_coe.mp hc)

end Chunks

/-! ### Chunks that move -/

namespace Loose

variable {s s' : State} {C C' L L' used : Multiset (ℕ × ℕ)} {direct : List (ℕ × ℕ)} {p n nb : ℕ}

/-- Only the bins have changed. -/
theorem rebin (h : Loose s C L used direct) (hsame : SameMemory s s') (hb : Binned s C → Binned s' C')
    (hC : L' + C' = L + C) : Loose s' C' L' used direct := by
  obtain ⟨regions, records, hheap, hbin, hfree, hused⟩ := h
  exact ⟨regions, records, hheap.congr hsame, hb hbin, by rw [hfree, hC], hused⟩

theorem unlink (h : Loose s ((p, n) ::ₘ C) L used direct) : Loose (s.unlinkChunk p n) C ((p, n) ::ₘ L) used direct :=
  h.rebin unlinkChunk_same unlinkChunk_binned (by rw [Multiset.cons_add, Multiset.add_cons])

theorem bounds (h : Loose s C ((p, n) ::ₘ L) used direct) :
    8 ≤ p ∧ p % 8 = 0 ∧ MIN_CHUNK_SIZE ≤ n ∧ n % 8 = 0 ∧ p + n + 8 ≤ 2 ^ 32 ∧ s.leastAddr ≤ p := by
  obtain ⟨regions, records, hheap, -, hfree, -⟩ := h
  exact hheap.chunk (k := false) (c := (p, n)) (by rw [hfree]; simp)

theorem insert (h : Loose s C ((p, n) ::ₘ L) used direct) : Loose (s.insertChunk p n) ((p, n) ::ₘ C) L used direct := by
  obtain ⟨-, -, -, hn8, hlt, -⟩ := h.bounds
  have hfresh : p ∉ C.map Prod.fst := by
    obtain ⟨regions, records, hheap, -, hfree, -⟩ := h
    have hnodup := hheap.nodup (k := false)
    rw [hfree, Multiset.cons_add, Multiset.map_cons, Multiset.nodup_cons, Multiset.map_add] at hnodup
    exact fun hmem => hnodup.1 (Multiset.mem_add.mpr (.inr hmem))
  exact h.rebin insertChunk_same (fun hb => insertChunk_binned hb (by omega) hn8 hfresh)
    (by rw [Multiset.cons_add, Multiset.add_cons])

/-- `dv` is not a part of it. -/
theorem setDv (h : Loose s C L used direct) (dv dvsize : ℕ) : Loose { s with dv := dv, dvsize := dvsize } C L used direct :=
  h.rebin ⟨rfl, rfl, ⟨rfl, rfl⟩, rfl, rfl, rfl⟩ (fun hb => hb) rfl

theorem take (h : Loose s C ((p, n) ::ₘ L) used direct) :
    Loose (s.setInuseAndPinuse p n) C L ((p, n) ::ₘ used) direct ∧ Keeps s (s.setInuseAndPinuse p n) (used + ↑direct) := by
  obtain ⟨-, -, hmin, -⟩ := h.bounds
  have hpos : 0 < n := lt_of_lt_of_le (by decide) hmin
  obtain ⟨regions, records, hheap, hbin, hfree, hused⟩ := h
  have hmem : (p, n) ∈ chunksOf false regions := by rw [hfree]; simp
  constructor
  · obtain ⟨regions', hheap', hfree', hused'⟩ := hheap.take hmem
    refine ⟨regions', records, hheap', hbin, ?_, by rw [hused', hused, Multiset.cons_add]⟩
    rw [hfree, Multiset.cons_add] at hfree'
    exact (Multiset.cons_inj_right _).mp hfree'
  · refine keeps_of_range (a := p) (e := p + n) (fun x hx => ?_) (fun _ _ => rfl) fun c hc _ =>
      hheap.inuse_apart hused hmem hc
    rw [State.setInuseAndPinuse_head _ _ _ hpos, if_neg (by omega), if_neg (by omega)]

theorem cut (h : Loose s C ((p, n) ::ₘ L) used direct) (hnb : MIN_CHUNK_SIZE ≤ nb) (hnb8 : nb % 8 = 0)
    (hrest : nb + MIN_CHUNK_SIZE ≤ n)
    (hs' : s' = (s.setSizeAndPinuseOfInuseChunk p nb).setSizeAndPinuseOfFreeChunk (p + nb) (n - nb)) :
    Loose s' C ((p + nb, n - nb) ::ₘ L) ((p, nb) ::ₘ used) direct ∧ Keeps s s' (used + ↑direct) := by
  subst hs'
  have hpos : 0 < MIN_CHUNK_SIZE := by decide
  obtain ⟨regions, records, hheap, hbin, hfree, hused⟩ := h
  have hmem : (p, n) ∈ chunksOf false regions := by rw [hfree]; simp
  constructor
  · obtain ⟨regions', hheap', hfree', hused'⟩ := hheap.cut hmem hnb hnb8 hrest
    refine ⟨regions', records, hheap', hbin, ?_, by rw [hused', hused, Multiset.cons_add]⟩
    rw [hfree, Multiset.cons_add, Multiset.cons_swap] at hfree'
    rw [Multiset.cons_add]
    exact (Multiset.cons_inj_right _).mp hfree'
  · refine keeps_of_range (a := p) (e := p + n) (fun x hx => ?_) (fun x hx => ?_) fun c hc _ =>
      hheap.inuse_apart hused hmem hc
    · rw [State.setSizeAndPinuseOfFreeChunk_head, State.setSizeAndPinuseOfInuseChunk_head, if_neg (by omega), if_neg (by omega)]
    · rw [State.setSizeAndPinuseOfFreeChunk_prevFoot, State.setSizeAndPinuseOfInuseChunk_prevFoot, if_neg (by omega)]

theorem cutTop (h : Loose s C L used direct) (hnb : MIN_CHUNK_SIZE ≤ nb) (hnb8 : nb % 8 = 0) (hlt : nb < s.topsize) :
    Loose (s.splitTop nb).1 C L ((s.top, nb) ::ₘ used) direct ∧ Keeps s (s.splitTop nb).1 (used + ↑direct) := by
  obtain ⟨regions, records, hheap, hbin, hfree, hused⟩ := h
  have htop : s.top ≠ 0 := by
    intro h0
    rcases hheap.top with ⟨-, hsize, -⟩ | ⟨R, hR, hhas⟩
    · omega
    · have := (hheap.ok R hR).low
      have hstop : R.stop = R.seg.base + total R.blocks := rfl
      have := hhas.stop
      omega
  constructor
  · obtain ⟨regions', hheap', hfree', hused'⟩ := hheap.cutTop htop hnb hnb8 hlt
    exact ⟨regions', records, hheap', hbin, by rw [hfree', hfree], by rw [hused', hused, Multiset.cons_add]⟩
  · refine keeps_of_range (a := s.top) (e := s.top + nb) (fun x hx => ?_) (fun _ _ => rfl) fun c hc _ => ?_
    · rw [State.splitTop, State.setSizeAndPinuseOfInuseChunk_head, State.setHead_head, if_neg (by omega), if_neg (by omega)]
    · have := hheap.inuse_top_apart hused htop hc
      omega

/-- The last loose chunk goes to a bin. -/
theorem insert_sound (h : Loose s C ((p, n) ::ₘ dvPart s) used direct) (hdv : s.dvsize = 0 → s.dv = 0) :
    Sound (s.insertChunk p n) used direct := by
  refine ⟨⟨(p, n) ::ₘ C, ?_⟩, ?_⟩
  · rw [dvPart_congr insertChunk_dv]
    exact h.insert
  · rw [insertChunk_dv.1, insertChunk_dv.2]
    exact hdv

end Loose

end Bionic.Dlmalloc
