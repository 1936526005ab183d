import Bionic.DlmallocCalls

/-! # Giving memory back

`sys_trim` moves the end of the segment of `top`, and unmaps the segments that are one free chunk.  What is in use stays where it
is. -/

namespace Bionic.Dlmalloc

variable {s s' : State} {R : Region} {A B regions : List Region} {direct : List (ℕ × ℕ)} {records used C L : Multiset (ℕ × ℕ)}
  {m : Params} {a : TrimAnswer} {sp : Segment} {n r : ℕ}

/-- What `MORECORE` takes back is no more than it is asked to, and what is left ends at a multiple of eight. -/
def TrimAnswer.Ok (a : TrimAnswer) : Prop :=
  ∀ extra oldBr newBr, a.oldBr = some oldBr → a.newBr extra = some newBr → newBr % 8 = 0 ∧ oldBr ≤ newBr + extra

/-! ### The end of the segment of `top` -/

/-- A multiple of the unit that leaves something. -/
theorem unit_lt {unit : ℕ} (hunit : 0 < unit) (hn : 0 < n) : ((n + (unit - 1)) / unit - 1) * unit < n := by
  have hle := Nat.div_mul_le_self (n + (unit - 1)) unit
  rw [Nat.sub_mul, Nat.one_mul]
  omega

theorem trimmed_spec (ha : a.Ok) (h8 : (sp.base + sp.size) % 8 = 0) (htop : TOP_FOOT_SIZE < s.topsize) :
    s.trimmed m sp a < s.topsize ∧ s.trimmed m sp a % 8 = 0 ∧ (sp.mmapped = true → s.trimmed m sp a % PAGE_SIZE = 0) := by
  obtain ⟨hgran, hlo, -⟩ := granularity_spec m
  have hpage : PAGE_SIZE = 4096 := rfl
  have hlt : ((s.topsize - TOP_FOOT_SIZE + (m.granularity - 1)) / m.granularity - 1) * m.granularity < s.topsize - TOP_FOOT_SIZE :=
    unit_lt (by omega) (by omega)
  have hmul : ((s.topsize - TOP_FOOT_SIZE + (m.granularity - 1)) / m.granularity - 1) * m.granularity % PAGE_SIZE = 0 :=
    Nat.mod_eq_zero_of_dvd ((Nat.dvd_of_mod_eq_zero hgran).mul_left _)
  unfold State.trimmed
  dsimp only
  generalize ((s.topsize - TOP_FOOT_SIZE + (m.granularity - 1)) / m.granularity - 1) * m.granularity = extra at *
  by_cases hm : sp.mmapped = true
  · rw [if_pos hm]
    split_ifs
    · exact ⟨by omega, by rw [hpage] at hmul; omega, fun _ => hmul⟩
    · exact ⟨by omega, rfl, fun _ => rfl⟩
  · rw [if_neg hm]
    refine and_assoc.mp ⟨?_, fun h => absurd h hm⟩
    have hle : (if HALF_MAX_SIZE_T ≤ extra then HALF_MAX_SIZE_T + 1 - m.granularity else extra) ≤ extra := by
      split_ifs
      · omega
      · exact le_rfl
    generalize (if HALF_MAX_SIZE_T ≤ extra then HALF_MAX_SIZE_T + 1 - m.granularity else extra) = asked at hle
    split
    · rename_i oldBr newBr hold hnew
      obtain ⟨hnew8, hasked⟩ := ha asked oldBr newBr hold hnew
      split_ifs
      · omega
      · exact ⟨by omega, rfl⟩
    · exact ⟨by omega, rfl⟩

/-- The segment of `top` ends earlier. -/
theorem Sound.shrinkTop (m : Params) (h : Sound s used direct) (hsp : sp ∈ s.seg) (hholds : State.segmentHolds sp s.top = true)
    (hr : r < s.topsize) (h8 : r % 8 = 0) (hpaged : sp.mmapped = true → r % PAGE_SIZE = 0) :
    Sound (resizedTop s m sp (sp.size - r) (s.topsize - r)) used direct ∧
      Keeps s (resizedTop s m sp (sp.size - r) (s.topsize - r)) (used + ↑direct) := by
  obtain ⟨⟨C, regions, records, hheap, hbin, hfree, hused⟩, hdv⟩ := h
  obtain ⟨A, R, B, rfl, rfl, hhas⟩ := hheap.region_of_top hsp hholds
  have hok := hheap.ok R (by simp)
  have hfin : R.fin = R.seg.base + R.seg.size := rfl
  have hstop : R.stop = R.seg.base + total R.blocks := rfl
  have hhstop := hhas.stop
  have hhfin := hhas.fin
  have hhigh := hok.high
  have h8' := hok.aligned
  have hlow := hok.low
  have hnew : Heap (resizedTop s m R.seg (R.seg.size - r) (s.topsize - r))
      (A ++ ⟨{ R.seg with size := R.seg.size - r }, R.blocks⟩ :: B) records direct := by
    refine hheap.resizeTop hhas (by omega) (by omega) (by omega) (by omega) (fun hm => ?_) (fun Q hQ => ?_) fun c hc => ?_
    · have := (hheap.paged R (by simp) hm).2
      have := hpaged hm
      rw [show PAGE_SIZE = 4096 by rfl] at *
      omega
    · have := hheap.apart_middle Q hQ
      unfold Segment.Apart at *
      dsimp only
      omega
    · have := (hheap.mapped c hc).apart R.seg hsp
      omega
  refine Sound.resizeTop hhas hheap hnew hbin hfree hused hdv fun c hc => ?_
  have := hheap.inuse_top_apart hused (by omega) hc
  omega

/-! ### Segments that are one free chunk -/

theorem chunksOf_append {k : Bool} : chunksOf k (A ++ B) = chunksOf k A + chunksOf k B := by
  rw [chunksOf, List.map_append, List.sum_append]
  rfl

/-- A segment with nothing but a free chunk and its record has gone. -/
theorem Heap.drop (h : Heap s (A ++ R :: B) ((R.seg.base + n, SEGMENT_SIZE) ::ₘ records) direct) (hstop : R.stop ≠ s.top)
    (hblocks : R.blocks = [⟨n, false⟩, ⟨SEGMENT_SIZE, true⟩]) :
    Heap { s with seg := s.seg.erase R.seg } (A ++ B) records direct := by
  have hseg : s.seg.erase R.seg = A.map Region.seg ++ B.map Region.seg := by
    rw [← h.seg, List.map_append, List.map_cons, List.erase_append_right _ h.seg_notMem, List.erase_cons_head]
  have hmem (Q : Region) (hQ : Q ∈ A ++ B) : Q ∈ A ++ R :: B := mem_middle.mpr (.inr (List.mem_append.mp hQ))
  have hsub (sp : Segment) (hsp : sp ∈ s.seg.erase R.seg) : sp ∈ s.seg := List.mem_of_mem_erase hsp
  refine ⟨by rw [hseg, List.map_append], h.apart.sublist List.erase_sublist, fun Q hQ => h.ok Q (hmem Q hQ), ?_, fun Q hQ => ?_,
    fun Q hQ => ?_, fun Q hQ => h.least Q (hmem Q hQ), fun Q hQ => h.paged Q (hmem Q hQ), fun c hc => ?_, h.mappedApart⟩
  · refine .inr ?_
    obtain ⟨Q, hQ, hhas⟩ := h.top.resolve_left (by simp)
    have hQ' := (mem_middle.mp hQ).resolve_left fun heq => hstop (heq ▸ hhas.stop)
    exact ⟨Q, List.mem_append.mpr hQ', hhas.congr ⟨rfl, rfl⟩ rfl⟩
  · cases A with
    | nil => exact absurd (h.first R rfl) hstop
    | cons Q' A => exact h.first Q hQ
  · refine (h.closed Q (hmem Q hQ)).imp_right fun ⟨l, hl, hrec⟩ => ⟨l, hl, (Multiset.mem_cons.mp hrec).resolve_left fun heq => ?_⟩
    have hapart := h.apart_middle Q (List.mem_append.mp hQ)
    have hsize := (h.ok R (by simp)).size_le
    have hsizeQ := (h.ok Q (hmem Q hQ)).size_le
    rw [hblocks] at hsize
    rw [hl] at hsizeQ
    simp only [total_append, total_cons, total_nil] at hsize hsizeQ
    have := (Prod.mk.inj heq).1
    unfold Segment.Apart at hapart
    omega
  · have hold := h.mapped c hc
    exact hold.congr rfl rfl fun sp hsp => hold.apart sp (hsub sp hsp)

/-- The chunks of a segment whose first chunk is free and reaches to its end. -/
theorem Heap.whole (h : Heap s (A ++ R :: B) records direct) (hstop : R.stop ≠ s.top)
    (hmem : (R.seg.base, n) ∈ chunksOf false (A ++ R :: B)) (hsize : R.seg.base + R.seg.size - TOP_FOOT_SIZE ≤ R.seg.base + n) :
    R.blocks = [⟨n, false⟩, ⟨SEGMENT_SIZE, true⟩] ∧ (R.seg.base + n, SEGMENT_SIZE) ∈ records := by
  have hok := h.ok R (by simp)
  have hroom := hok.size_le
  have hfoot : TOP_FOOT_SIZE = 40 := by decide
  have hrecsize : SEGMENT_SIZE = 24 := by decide
  have hmin : MIN_CHUNK_SIZE = 16 := rfl
  obtain ⟨l, hl, hrec⟩ := (h.closed R (by simp)).resolve_left hstop
  rcases h.first_chunk with ⟨-, hnil, -⟩ | ⟨-, b, rest, hblocks, -, hb⟩
  · rw [hnil] at hl
    simp at hl
  · obtain ⟨hn, hfree⟩ := h.chunk_unique hmem hb
    obtain ⟨k, u⟩ := b
    dsimp only at hn hfree
    subst hn hfree
    have hsizes := hok.frag.sizes
    rw [hblocks] at hl hroom hsizes
    rcases l with _ | ⟨c, l⟩
    · simp at hl
    · obtain ⟨rfl, rfl⟩ := List.cons.inj hl
      rcases l with _ | ⟨c, l⟩
      · exact ⟨hblocks, by simpa using hrec⟩
      · have := (hsizes c (by simp)).1
        rw [show (c :: l).append [⟨SEGMENT_SIZE, true⟩] = c :: l ++ [⟨SEGMENT_SIZE, true⟩] by rfl] at hroom
        simp only [total_cons, total_append, total_nil] at hroom
        omega

/-- A loose chunk that is a whole segment can go. -/
theorem Loose.drop (h : Loose s C ((sp.base, n) ::ₘ L) used direct) (hsp : sp ∈ s.seg)
    (htop : State.segmentHolds sp s.top = false) (hsize : sp.base + sp.size - TOP_FOOT_SIZE ≤ sp.base + n) :
    Loose { s with seg := s.seg.erase sp } C L used direct := by
  obtain ⟨regions, records, hheap, hbin, hfree, hused⟩ := h
  obtain ⟨A, R, B, rfl, rfl, hok⟩ := hheap.exists_region hsp
  have hstop : R.stop ≠ s.top := by
    intro heq
    rw [← heq, hok.holds_stop] at htop
    exact absurd htop (by decide)
  obtain ⟨hblocks, hrec⟩ := hheap.whole hstop (by rw [hfree]; simp) hsize
  obtain ⟨records', rfl⟩ := Multiset.exists_cons_of_mem hrec
  refine ⟨A ++ B, records', hheap.drop hstop hblocks, hbin, ?_, ?_⟩
  · rw [chunksOf_middle, hblocks, ← chunksOf_append] at hfree
    simpa [blocksOf, Multiset.singleton_add] using hfree
  · rw [chunksOf_middle, hblocks, ← chunksOf_append] at hused
    simpa [blocksOf, Multiset.singleton_add] using hused

/-- A segment that does not begin with `top` begins with a chunk. -/
theorem Loose.first_free (h : Loose s C L used direct) (hsp : sp ∈ s.seg) (htop : State.segmentHolds sp s.top = false)
    (hfree : (s.head sp.base).cinuse = false) : (sp.base, s.chunksize sp.base) ∈ L + C := by
  obtain ⟨regions, records, hheap, -, hchunks, -⟩ := h
  obtain ⟨A, R, B, rfl, rfl, hok⟩ := hheap.exists_region hsp
  rcases hheap.first_chunk with ⟨heq, hnil, -⟩ | ⟨-, b, rest, -, hhd, hmem⟩
  · exfalso
    have hsize := hok.size_le
    simp only [State.segmentHolds, decide_eq_false_iff_not] at htop
    omega
  · rw [hhd] at hfree
    dsimp only at hfree
    rw [hfree] at hmem
    rwa [State.chunksize, hhd, ← hchunks]

/-- A free chunk leaves its bin, or is `dv` no more. -/
theorem Sound.loosen {p : ℕ} (hloose : Loose s C (dvPart s) used direct) (hdv : s.dvsize = 0 → s.dv = 0)
    (hmem : (p, n) ∈ dvPart s + C) (hlarge : isSmall n = false) :
    ∃ s₁ C', (if p = s.dv then { s with dv := 0, dvsize := 0 } else { s with trees := s.trees.unlinkLargeChunk p }) = s₁ ∧
      Loose s₁ C' ((p, n) ::ₘ dvPart s₁) used direct ∧ (s₁.dvsize = 0 → s₁.dv = 0) ∧ SameMemory s s₁ := by
  by_cases hpdv : p = s.dv
  · refine ⟨_, C, if_pos hpdv, ?_, fun _ => rfl, ⟨rfl, rfl, ⟨rfl, rfl⟩, rfl, rfl, rfl⟩⟩
    obtain ⟨hdvsize, hn⟩ : s.dvsize ≠ 0 ∧ n = s.dvsize := by
      obtain ⟨regions, records, hheap, -, hfree, -⟩ := hloose
      rw [← hfree] at hmem
      exact (hheap.chunk_at_dv ((Multiset.le_add_right _ _).trans_eq hfree.symm) hdv hmem hpdv).imp_right And.left
    rw [dvPart_eq hdvsize, ← hpdv, ← hn] at hloose
    exact hloose.setDv 0 0
  · have hC : (p, n) ∈ C := (Multiset.mem_add.mp hmem).resolve_left fun hd => hpdv (mem_dvPart hd)
    obtain ⟨C', rfl⟩ := Multiset.exists_cons_of_mem hC
    have hun : { s with trees := s.trees.unlinkLargeChunk p } = s.unlinkChunk p n := by
      rw [State.unlinkChunk, if_neg (by simp [hlarge])]
    refine ⟨_, C', (if_neg hpdv).trans hun, ?_, ?_, unlinkChunk_same⟩
    · rw [dvPart_congr unlinkChunk_dv]
      exact hloose.unlink
    · rw [unlinkChunk_dv.1, unlinkChunk_dv.2]
      exact hdv

theorem releaseSegment_spec (h : Sound s used direct) (hsp : sp ∈ s.seg) (htop : State.segmentHolds sp s.top = false)
    (munmap : ℕ → Bool) : ∃ s' r, s.releaseSegment munmap sp = (s', r) ∧ Sound s' used direct ∧
      (s'.head = s.head ∧ s'.prevFoot = s.prevFoot ∧ s'.top = s.top) ∧ (s'.seg = s.seg ∨ s'.seg = s.seg.erase sp) := by
  have hsound := h
  obtain ⟨⟨C, hloose⟩, hdv⟩ := h
  obtain ⟨h8, hsize⟩ : sp.base % 8 = 0 ∧ (sp.mmapped = true → PAGE_SIZE ≤ sp.size) := by
    obtain ⟨regions, records, hheap, -⟩ := hloose
    obtain ⟨A, R, B, rfl, rfl, hok⟩ := hheap.exists_region hsp
    refine ⟨hok.aligned.1, fun hm => ?_⟩
    have hpaged := (hheap.paged R (by simp) hm).2
    have hpos := hok.size_le
    exact Nat.le_of_dvd (by omega) (Nat.dvd_of_mod_eq_zero hpaged)
  unfold State.releaseSegment
  dsimp only
  rw [alignAsChunk_eq h8]
  by_cases hwhole : sp.mmapped = true ∧ ¬ (s.head sp.base).cinuse = true ∧
      sp.base + sp.size - TOP_FOOT_SIZE ≤ sp.base + s.chunksize sp.base
  · obtain ⟨hm, hfree, hend⟩ := hwhole
    have hlarge : ¬ isSmall (s.chunksize sp.base) = true := by
      have := hsize hm
      have hpage : PAGE_SIZE = 4096 := rfl
      have hfoot : TOP_FOOT_SIZE = 40 := by decide
      simp only [isSmall, decide_eq_true_eq]
      omega
    obtain ⟨s₁, C', hs₁, hloose₁, hdv₁, hsame⟩ := Sound.loosen hloose hdv
      (hloose.first_free hsp htop (Bool.eq_false_iff.mpr hfree)) (Bool.eq_false_iff.mpr hlarge)
    rw [if_pos ⟨hm, hfree, hend⟩, hs₁]
    split_ifs with hunmap
    · have hdrop := hloose₁.drop (by rwa [hsame.seg.1]) (by rwa [hsame.top]) hend
      exact ⟨_, _, rfl, ⟨⟨C', hdrop⟩, hdv₁⟩, ⟨hsame.head, hsame.prevFoot, hsame.top⟩, .inr (by rw [← hsame.seg.1])⟩
    · have hins : { s₁ with trees := s₁.trees.insertLargeChunk sp.base (s.chunksize sp.base) } =
          s₁.insertChunk sp.base (s.chunksize sp.base) := by rw [State.insertChunk, if_neg hlarge]
      have hsame' := hsame.trans (insertChunk_same (p := sp.base) (n := s.chunksize sp.base))
      rw [hins]
      exact ⟨_, _, rfl, Loose.insert_sound hloose₁ hdv₁, ⟨hsame'.head, hsame'.prevFoot, hsame'.top⟩, .inl hsame'.seg.1⟩
  · rw [if_neg hwhole]
    exact ⟨s, 0, rfl, hsound, ⟨rfl, rfl, rfl⟩, .inl rfl⟩

theorem releaseSegments_spec (h : Sound s used direct) {l : List Segment} (hl : l.Nodup)
    (hmem : ∀ sp ∈ l, sp ∈ s.seg ∧ State.segmentHolds sp s.top = false) (munmap : ℕ → Bool) :
    Sound (s.releaseSegments munmap l).1 used direct ∧
      (s.releaseSegments munmap l).1.head = s.head ∧ (s.releaseSegments munmap l).1.prevFoot = s.prevFoot := by
  induction l generalizing s with
  | nil => exact ⟨h, rfl, rfl⟩
  | cons sp rest ih =>
    obtain ⟨hnot, hrest⟩ := List.nodup_cons.mp hl
    obtain ⟨hsp, htop⟩ := hmem sp List.mem_cons_self
    obtain ⟨s', r, heq, hsound, ⟨hhead, hfoot, htop'⟩, hseg⟩ := releaseSegment_spec h hsp htop munmap
    have hstep := ih hsound hrest fun sq hsq => by
      obtain ⟨hin, hout⟩ := hmem sq (List.mem_cons_of_mem sp hsq)
      rw [htop']
      refine ⟨?_, hout⟩
      rcases hseg with hseg | hseg
      · rwa [hseg]
      · rw [hseg]
        exact (List.mem_erase_of_ne (ne_of_mem_of_not_mem hsq hnot)).mpr hin
    rw [State.releaseSegments, heq]
    rw [hhead, hfoot] at hstep
    exact hstep

/-- The other segments do not hold `top`. -/
theorem Sound.tail (h : Sound s used direct) :
    s.seg.tail.Nodup ∧ ∀ sp ∈ s.seg.tail, sp ∈ s.seg ∧ State.segmentHolds sp s.top = false := by
  obtain ⟨⟨C, regions, records, hheap, -⟩, -⟩ := h
  have hpos (sp : Segment) (hsp : sp ∈ s.seg) : 0 < sp.size := by
    obtain ⟨A, R, B, -, rfl, hok⟩ := hheap.exists_region hsp
    exact lt_of_lt_of_le (by decide) ((Nat.le_add_left 8 _).trans hok.size_le)
  refine ⟨?_, fun sp hsp => ⟨List.mem_of_mem_tail hsp, ?_⟩⟩
  · refine (hheap.apart.imp_of_mem (S := (· ≠ ·)) fun {a b} ha _ hapart heq => ?_).tail
    have := hpos a ha
    rw [← heq] at hapart
    unfold Segment.Apart at hapart
    omega
  · cases hregions : regions with
    | nil =>
      rw [← hheap.seg, hregions] at hsp
      simp at hsp
    | cons R rest =>
      subst hregions
      rw [← hheap.seg] at hsp
      obtain ⟨Q, hQ, rfl⟩ := List.mem_map.mp hsp
      have hapart : R.seg.Apart Q.seg := Or.symm (hheap.apart_middle (A := []) Q (.inr hQ))
      rw [← hheap.first R rfl]
      exact hapart.holds (hheap.ok R (by simp)).holds_stop

/-! ### `sys_trim` -/

theorem sysTrim_spec (h : Sound s used direct) (ha : a.Ok) :
    Sound (s.sysTrim m a) used direct ∧ Keeps s (s.sysTrim m a) (used + ↑direct) := by
  have hstay : Sound s used direct ∧ Keeps s s (used + ↑direct) :=
    ⟨h, SameMemory.keeps ⟨rfl, rfl, ⟨rfl, rfl⟩, rfl, rfl, rfl⟩⟩
  unfold State.sysTrim
  generalize hr : (if TOP_FOOT_SIZE < s.topsize then _ else _ : State × ℕ) = r
  have hshrunk : Sound r.1 used direct ∧ Keeps s r.1 (used + ↑direct) := by
    rw [← hr]
    split_ifs with htop
    · split
      · exact hstay
      · rename_i sp hfind
        have hsp := List.mem_of_find?_eq_some hfind
        have hholds : State.segmentHolds sp s.top = true := by simpa using List.find?_some hfind
        have h8 : (sp.base + sp.size) % 8 = 0 := by
          obtain ⟨⟨C, regions, records, hheap, -⟩, -⟩ := h
          obtain ⟨A, R, B, -, rfl, hok⟩ := hheap.exists_region hsp
          have := hok.aligned
          omega
        obtain ⟨hlt, htrim8, hpaged⟩ := trimmed_spec (m := m) ha h8 htop
        dsimp only
        split_ifs
        · exact h.shrinkTop m hsp hholds hlt htrim8 hpaged
        · exact hstay
    · exact hstay
  obtain ⟨s₁, released⟩ := r
  dsimp only at hshrunk ⊢
  obtain ⟨hsound, hkeep⟩ := hshrunk
  obtain ⟨hnodup, htail⟩ := hsound.tail
  obtain ⟨hsound', hhead, hfoot⟩ := releaseSegments_spec hsound hnodup htail a.munmap
  rw [← State.releaseUnusedSegments] at hsound' hhead hfoot
  generalize s₁.releaseUnusedSegments a.munmap = r₂ at *
  obtain ⟨s₂, more⟩ := r₂
  dsimp only at hsound' hhead hfoot ⊢
  have hkeep' : Keeps s s₂ (used + ↑direct) := fun c hc =>
    ⟨fun x hx hx' => by rw [hhead, (hkeep c hc).1 x hx hx'], fun x hx hx' => by rw [hfoot, (hkeep c hc).2 x hx hx']⟩
  split_ifs
  · obtain ⟨⟨C, regions, records, hheap, hrest⟩, hdv⟩ := hsound'
    exact ⟨⟨⟨C, regions, records, hheap.congr ⟨rfl, rfl, ⟨rfl, rfl⟩, rfl, rfl, rfl⟩, hrest⟩, hdv⟩, hkeep'⟩
  · exact ⟨hsound', hkeep'⟩

end Bionic.Dlmalloc
