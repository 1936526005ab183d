import Bionic.DlmallocSys

/-! # Calls of the allocator

What `dlmalloc` and `dlfree` do with the chunks in use, whatever the system answers. -/

namespace Bionic.Dlmalloc

/-- What the system gives to a call that asks for a chunk of `nb` bytes is not in use, and begins and ends at multiples of eight.
What `MORECORE` gives is behind what it has given before, and is not less than it was asked for.  What `sys_alloc` takes for one
piece is one. -/
structure Answers (s : State) (direct : List (ℕ × ℕ)) (m : Params) (nb : ℕ) (a : SysAnswer) : Prop where
  mapped (p : ℕ) : a.direct = some p → Unused s direct p (m.granularityAlign (nb + 24 + CHUNK_ALIGN_MASK))
  memory (tbase tsize : ℕ) (mmapped : Bool) : (s.getMemory m nb a).2 = some (tbase, tsize, mmapped) →
    Unused s direct tbase tsize ∧ (mmapped = false → ∀ sp ∈ s.seg, sp.mmapped = false → sp.base + sp.size ≤ tbase)
  base (base : ℕ) : a.base = some base → base % 8 = 0
  stop (br stop : ℕ) : a.br = some br → a.stop = some stop →
    stop % 8 = 0 ∧ br + m.granularityAlign (nb + TOP_FOOT_SIZE + 1) ≤ stop

/-- The size of the chunk that a call asks for. -/
def askedSize (bytes : ℕ) : ℕ :=
  if bytes ≤ MAX_SMALL_REQUEST then State.smallSize bytes else if MAX_REQUEST ≤ bytes then MAX_SIZE_T else padRequest bytes

/-- With room for the end of a segment, and rounded up to the granularity, it does not wrap around; or it is more than there can
be. -/
def Params.Fits (m : Params) (nb : ℕ) : Prop := Request nb ∧ nb + TOP_FOOT_SIZE + 1 + m.granularity < 2 ^ 32 ∨ nb = MAX_SIZE_T

variable {s s' : State} {used : Multiset (ℕ × ℕ)} {direct : List (ℕ × ℕ)} {m : Params} {nb bytes tbase tsize : ℕ} {a : SysAnswer}
  {mmapped : Bool}

/-! ### The sizes that `sys_alloc` asks for -/

theorem granularityAlign_foot (hnb : m.Fits nb) :
    TOP_FOOT_SIZE < m.granularityAlign (nb + TOP_FOOT_SIZE + 1) := by
  have hfoot : TOP_FOOT_SIZE = 40 := by decide
  have hpage : PAGE_SIZE = 4096 := rfl
  obtain ⟨-, hlo, hhi⟩ := granularity_spec m
  rcases hnb with ⟨-, hlt⟩ | rfl
  · have := granularityAlign_gt m hlt
    omega
  · have hmax : MAX_SIZE_T = 2 ^ 32 - 1 := rfl
    rw [Params.granularityAlign, show (MAX_SIZE_T + TOP_FOOT_SIZE + 1 + m.granularity) % 2 ^ 32 = 40 + m.granularity by omega,
      Nat.add_div_right _ (by omega), Nat.div_eq_of_lt (by omega)]
    omega

theorem granularityAlign_mod_eight (m : Params) (n : ℕ) : m.granularityAlign n % 8 = 0 := by
  have := granularityAlign_mod m n
  have hpage : PAGE_SIZE = 4096 := rfl
  rw [hpage] at this
  omega

theorem sub32_pageAlign {base : ℕ} (h : base % 8 = 0) : sub32 (pageAlign base) base % 8 = 0 := by
  have hpage : pageAlign base % 8 = 0 := by
    unfold pageAlign PAGE_SIZE
    omega
  unfold sub32
  omega

/-- What `MORECORE` is asked for in the first place. -/
theorem moreContiguous_spec (h : Sound s used direct) (hcont : s.contiguous = true)
    (hnb : m.Fits nb) (hle : s.topsize ≤ nb)
    (hbase : ∀ base, a.base = some base → base % 8 = 0) {asize br : ℕ} {expected : Bool}
    (heq : s.moreContiguous m nb a = (asize, some br, expected)) :
    asize % 8 = 0 ∧ (TOP_FOOT_SIZE < asize ∨ nb = MAX_SIZE_T ∧ asize = 0 ∧ (expected = true →
      ∃ sp ∈ s.seg, sp.base + sp.size = br ∧ sp.mmapped = false ∧ State.segmentHolds sp s.top = true)) := by
  unfold State.moreContiguous at heq
  split at heq
  · split at heq
    · simp at heq
    · rename_i base hb
      dsimp only at heq
      obtain ⟨rfl, -⟩ := Prod.mk.inj heq
      have h8 := granularityAlign_mod_eight m (nb + TOP_FOOT_SIZE + 1)
      have hgap : (if base % PAGE_SIZE = 0 then 0 else sub32 (pageAlign base) base) % 8 = 0 := by
        split_ifs
        · rfl
        · exact sub32_pageAlign (hbase base hb)
      exact ⟨by omega, .inl ((granularityAlign_foot hnb).trans_le (Nat.le_add_right _ _))⟩
  · rename_i ss hss
    dsimp only at heq
    obtain ⟨rfl, hbr⟩ := Prod.mk.inj heq
    obtain ⟨hbr, hexp⟩ := Prod.mk.inj hbr
    refine ⟨granularityAlign_mod_eight m _, ?_⟩
    rcases hnb with ⟨hreq, hlt⟩ | rfl
    · have hlt32 := hreq.lt
      have hsub : sub32 nb s.topsize = nb - s.topsize := by
        unfold sub32
        omega
      rw [hsub]
      have := granularityAlign_gt m (n := nb - s.topsize + TOP_FOOT_SIZE + 1) (by omega)
      exact .inl (by omega)
    · have hmod := granularityAlign_mod m (sub32 MAX_SIZE_T s.topsize + TOP_FOOT_SIZE + 1)
      have hpage : PAGE_SIZE = 4096 := rfl
      have hfoot : TOP_FOOT_SIZE = 40 := by decide
      rw [hpage] at hmod
      by_cases h0 : m.granularityAlign (sub32 MAX_SIZE_T s.topsize + TOP_FOOT_SIZE + 1) = 0
      · refine .inr ⟨rfl, h0, fun hexpected => ?_⟩
        split_ifs at hss with htop
        have hmem := List.mem_of_find?_eq_some hss
        have hholds : State.segmentHolds ss s.top = true := by simpa using List.find?_some hss
        refine ⟨ss, hmem, ?_, ?_, hholds⟩
        · rw [hexpected, hbr, decide_eq_true_eq] at hexp
          exact (Option.some.inj hexp).symm
        · obtain ⟨⟨C, regions, records, hheap, -⟩, -⟩ := h
          obtain ⟨A, R, B, rfl, rfl, -⟩ := hheap.exists_region hmem
          by_contra hm
          have := (hheap.paged R (by simp) (by simpa using hm)).1
          rw [hcont] at this
          cases this
      · exact .inl (by omega)

theorem contiguousMemory_spec (h : Sound s used direct) (hcont : s.contiguous = true)
    (hnb : m.Fits nb) (hle : s.topsize ≤ nb)
    (hbase : ∀ base, a.base = some base → base % 8 = 0) (heq : s.contiguousMemory m nb a = some (tbase, tsize)) :
    tsize % 8 = 0 ∧ (TOP_FOOT_SIZE < tsize ∨
      ∃ sp ∈ s.seg, sp.base + sp.size = tbase ∧ sp.mmapped = false ∧ State.segmentHolds sp s.top = true) := by
  unfold State.contiguousMemory at heq
  split at heq
  · cases heq
  · rename_i asize br hmore
    cases heq
    obtain ⟨h8, hsize⟩ := moreContiguous_spec h hcont hnb hle hbase hmore
    exact ⟨h8, hsize.imp_right fun hrest => hrest.2.2 rfl⟩
  · rename_i asize br hmore
    obtain ⟨h8, hsize⟩ := moreContiguous_spec h hcont hnb hle hbase hmore
    dsimp only at heq
    have hfoot : TOP_FOOT_SIZE = 40 := by decide
    generalize hreq : (nb + TOP_FOOT_SIZE + 1) % 2 ^ 32 = req at heq
    have he8 := granularityAlign_mod_eight m (sub32 req asize)
    split_ifs at heq with hask
    · obtain ⟨-, -, hpair⟩ := Option.map_eq_some_iff.mp heq
      cases hpair
      refine ⟨by omega, .inl ?_⟩
      rcases hsize with hsize | ⟨rfl, rfl, -⟩
      · omega
      · have hmax : MAX_SIZE_T = 2 ^ 32 - 1 := rfl
        have := granularityAlign_foot (m := m) (.inr rfl)
        rw [Nat.zero_add, show sub32 req 0 = 40 by unfold sub32; omega]
        unfold Params.granularityAlign at this ⊢
        rwa [show MAX_SIZE_T + TOP_FOOT_SIZE + 1 + m.granularity = 40 + m.granularity + 2 ^ 32 by omega, Nat.add_mod_right] at this
    · cases heq
      refine ⟨h8, .inl ?_⟩
      rcases hsize with hsize | ⟨rfl, rfl, -⟩
      · exact hsize
      · exfalso
        have hmax : MAX_SIZE_T = 2 ^ 32 - 1 := rfl
        have hhalf : HALF_MAX_SIZE_T = 2 ^ 31 - 1 := by decide
        refine hask ⟨by omega, by omega, ?_⟩
        have := (granularity_spec m).2.2
        have := Nat.div_mul_le_self ((sub32 req 0 + m.granularity) % 2 ^ 32) m.granularity
        unfold Params.granularityAlign
        unfold sub32 at *
        omega

theorem otherMemory_spec (hnb : m.Fits nb)
    (hstop : ∀ br stop, a.br = some br → a.stop = some stop →
      stop % 8 = 0 ∧ br + m.granularityAlign (nb + TOP_FOOT_SIZE + 1) ≤ stop)
    (h8 : tbase % 8 = 0) (heq : State.otherMemory m nb a = some (tbase, tsize, mmapped)) :
    tsize % 8 = 0 ∧ TOP_FOOT_SIZE < tsize ∧ (mmapped = true → nb + TOP_FOOT_SIZE < tsize ∧ tsize % PAGE_SIZE = 0) := by
  have hsize := granularityAlign_foot hnb
  unfold State.otherMemory at heq
  dsimp only at heq
  split at heq
  · rename_i mp hmp
    cases heq
    split_ifs at hmp with hlt
    refine ⟨granularityAlign_mod_eight m _, hsize, fun _ => ⟨?_, granularityAlign_mod m _⟩⟩
    have hlt32 : nb < 2 ^ 32 := by
      rcases hnb with ⟨hreq, -⟩ | rfl
      · exact hreq.lt
      · decide
    have := granularityAlign_gt_add m (k := TOP_FOOT_SIZE + 1) hlt32 (by decide) (by rwa [← Nat.add_assoc])
    rw [← Nat.add_assoc] at this
    omega
  · split at heq
    · rename_i br stop hbr hst
      obtain ⟨hstop8, hle⟩ := hstop br stop hbr hst
      split_ifs at heq with hask
      cases heq
      exact ⟨by omega, by omega, fun hm => absurd hm (by simp)⟩
    · cases heq

/-! ### `dlmalloc` -/

theorem Asked.lt (h : Asked nb) : nb < 2 ^ 32 := by
  rcases h with h | rfl
  · exact h.lt
  · decide

theorem Params.Fits.asked (h : m.Fits nb) : Asked nb := h.imp_left And.left

/-- Where no mapping is made, nothing has changed. -/
theorem mmapAlloc_none {mm : Option ℕ} (h : (s.mmapAlloc m nb mm).2 = none) : s.mmapAlloc m nb mm = (s, none) := by
  unfold State.mmapAlloc at h ⊢
  dsimp only at h ⊢
  split_ifs at h ⊢ with hlt
  · cases mm with
    | none => rfl
    | some p => simp at h
  · rfl

/-- The heap does not depend on whether `MORECORE` is tried first. -/
theorem Sound.noncontiguous (h : Sound s used direct) : Sound { s with contiguous := false } used direct := by
  obtain ⟨⟨C, regions, records, hheap, hbin, hfree, hused⟩, hdv⟩ := h
  refine ⟨⟨C, regions, records, ⟨hheap.seg, hheap.apart, hheap.ok, ?_, hheap.first, hheap.closed, hheap.least,
    fun R hR hm => ⟨rfl, (hheap.paged R hR hm).2⟩, fun c hc => ?_, hheap.mappedApart⟩, hbin, hfree, hused⟩, hdv⟩
  · exact hheap.top.imp_right fun ⟨R, hR, hhas⟩ => ⟨R, hR, hhas.congr ⟨rfl, rfl⟩ rfl⟩
  · have hold := hheap.mapped c hc
    exact hold.congr rfl rfl hold.apart

/-- The memory that `sys_alloc` gets. -/
theorem getMemory_spec (h : Sound s used direct) (hnb : m.Fits nb) (hle : s.topsize ≤ nb) (ha : Answers s direct m nb a) :
    ∃ s₁ r, s.getMemory m nb a = (s₁, r) ∧ Sound s₁ used direct ∧ Keeps s s₁ (used + ↑direct) ∧
      ∀ tbase tsize mmapped, r = some (tbase, tsize, mmapped) → Space s₁ direct nb tbase tsize mmapped := by
  have hgot := ha.memory
  unfold State.getMemory at hgot ⊢
  cases hmore : (if s.contiguous = true then s.contiguousMemory m nb a else none) with
  | some more =>
    obtain ⟨tbase, tsize⟩ := more
    rw [hmore] at hgot
    dsimp only at hgot ⊢
    refine ⟨_, _, rfl, h, SameMemory.keeps ⟨rfl, rfl, ⟨rfl, rfl⟩, rfl, rfl, rfl⟩, ?_⟩
    rintro _ _ _ ⟨⟩
    split_ifs at hmore with hcont
    obtain ⟨hunused, hbehind⟩ := hgot tbase tsize false rfl
    obtain ⟨h8, hroom⟩ := contiguousMemory_spec h hcont hnb hle ha.base hmore
    exact ⟨⟨hunused, hunused.begins, h8⟩, hroom, fun hm => absurd hm (by simp), hbehind⟩
  | none =>
    rw [hmore] at hgot
    dsimp only at hgot ⊢
    refine ⟨_, _, rfl, h.noncontiguous, fun c _ => ⟨fun _ _ _ => rfl, fun _ _ _ => rfl⟩, fun tbase tsize mmapped hr => ?_⟩
    obtain ⟨hunused, hbehind⟩ := hgot tbase tsize mmapped hr
    obtain ⟨h8, hroom, hmap⟩ := otherMemory_spec hnb ha.stop hunused.begins hr
    exact ⟨⟨⟨hunused.low, hunused.high, hunused.begins, hunused.apart, hunused.mapped⟩, hunused.begins, h8⟩, .inl hroom,
      fun hm => ⟨hmap hm, rfl⟩, hbehind⟩

theorem sysAlloc_spec (h : Sound s used direct) (hnb : m.Fits nb) (hle : s.topsize ≤ nb) (ha : Answers s direct m nb a) :
    Served s used direct nb (s.sysAlloc m nb a) := by
  have hfail : Served s used direct nb (s, none) := .fail h (SameMemory.keeps ⟨rfl, rfl, ⟨rfl, rfl⟩, rfl, rfl, rfl⟩)
  generalize hr : (if m.mmapThreshold ≤ nb then s.mmapAlloc m nb a.direct else (s, none)) = r
  have hserved : Served s used direct nb r := by
    split_ifs at hr
    · rw [← hr]
      exact mmapAlloc_spec h m hnb.asked.lt fun p hp =>
        ⟨ha.mapped p hp, (ha.mapped p hp).begins, granularityAlign_mod_eight m _⟩
    · rw [← hr]
      exact hfail
  have hnone : r.2 = none → r = (s, none) := by
    split_ifs at hr
    · rw [← hr]
      exact mmapAlloc_none
    · rw [← hr]
      exact fun _ => rfl
  unfold State.sysAlloc
  rw [hr]
  obtain ⟨s₁, mem⟩ := r
  dsimp only
  split_ifs with hmem
  · obtain ⟨rfl, -⟩ := Prod.mk.inj (hnone hmem)
    obtain ⟨s₂, got, heq, hsound, hkeep, hspace⟩ := getMemory_spec h hnb hle ha
    rw [heq]
    cases got with
    | none => exact .fail hsound hkeep
    | some got => exact (useMemory_spec hsound hnb.asked (hspace got.1 got.2.1 got.2.2 rfl)).trans hkeep
  · exact hserved

theorem dvTopSys_spec (h : Sound s used direct) (hnb : m.Fits nb) (ha : Answers s direct m nb a) :
    Served s used direct nb (s.dvTopSys m nb a) := by
  unfold State.dvTopSys
  split_ifs with hdv htop
  · rcases hnb with ⟨hnb, -⟩ | rfl
    · exact splitDv_spec h hnb hdv
    · exact absurd hdv h.dvsize_lt.not_ge
  · rcases hnb with ⟨hnb, -⟩ | rfl
    · exact splitTop_spec h hnb htop
    · exact absurd h.topsize_lt htop.not_gt
  · exact sysAlloc_spec h hnb (not_lt.mp htop) ha

/-- What small requests ask for. -/
theorem smallSize_spec (h : bytes ≤ MAX_SMALL_REQUEST) :
    Request (State.smallSize bytes) ∧ bytes + 4 ≤ State.smallSize bytes ∧ State.smallSize bytes < 256 := by
  have hmax : MAX_SMALL_REQUEST = 244 := by decide
  have hmin : MIN_CHUNK_SIZE = 16 := rfl
  have hreq : MIN_REQUEST = 11 := by decide
  unfold State.smallSize padRequest CHUNK_OVERHEAD CHUNK_ALIGN_MASK
  split_ifs with hlt
  · exact ⟨⟨by omega, by omega, by omega⟩, by omega, by omega⟩
  · exact ⟨⟨by omega, by omega, by omega⟩, by omega, by omega⟩

theorem padRequest_spec (h : ¬ bytes ≤ MAX_SMALL_REQUEST) (hlt : ¬ MAX_REQUEST ≤ bytes) :
    Request (padRequest bytes) ∧ bytes + 4 ≤ padRequest bytes ∧ 2 ^ 8 ≤ padRequest bytes := by
  have hmax : MAX_SMALL_REQUEST = 244 := by decide
  have hreq : MAX_REQUEST = 2 ^ 32 - 64 := by decide
  have hmin : MIN_CHUNK_SIZE = 16 := rfl
  unfold padRequest CHUNK_OVERHEAD CHUNK_ALIGN_MASK
  exact ⟨⟨by omega, by omega, by omega⟩, by omega, by omega⟩

/-- A request that is so large that nothing is asked for, or that the granularity can be added to. -/
def Params.Holds (m : Params) (bytes : ℕ) : Prop := MAX_REQUEST ≤ bytes ∨ bytes + 52 + m.granularity < 2 ^ 32

theorem Params.Holds.fits (h : m.Holds bytes) : m.Fits (askedSize bytes) := by
  have hgran := (granularity_spec m).2.2
  have hfoot : TOP_FOOT_SIZE = 40 := by decide
  unfold askedSize
  split_ifs with hsmall hbig
  · obtain ⟨hnb, -, hlt⟩ := smallSize_spec hsmall
    exact .inl ⟨hnb, by omega⟩
  · exact .inr rfl
  · obtain ⟨hnb, -⟩ := padRequest_spec hsmall hbig
    refine .inl ⟨hnb, ?_⟩
    have := h.resolve_left hbig
    unfold padRequest CHUNK_OVERHEAD CHUNK_ALIGN_MASK
    omega

theorem dlmalloc_spec (h : Sound s used direct) (hm : m.Holds bytes) (ha : Answers s direct m (askedSize bytes) a) :
    ∃ r, s.dlmalloc m bytes a = .ok r ∧ Served s used direct (askedSize bytes) r := by
  have hrest := dvTopSys_spec h hm.fits ha
  unfold State.dlmalloc
  unfold askedSize at hrest ⊢
  by_cases hsmall : bytes ≤ MAX_SMALL_REQUEST
  · rw [if_pos hsmall] at hrest ⊢
    obtain ⟨hnb, -, hlt⟩ := smallSize_spec hsmall
    rw [if_pos hsmall]
    dsimp only
    split_ifs with hbits hdv hne hmap
    · have h8 : 8 * (State.smallSize bytes / 8) = State.smallSize bytes := by
        have := hnb.aligned
        omega
      have := smallFit_spec h hbits
      rwa [h8] at this
    · exact nextSmall_spec h hnb hlt hdv hbits hne
    · obtain ⟨s', v, heq, hserved⟩ := tmallocSmall_spec h hnb (by omega) hdv hmap
      refine ⟨(s', some v), ?_, hserved⟩
      rw [heq]
      rfl
    · exact ⟨_, rfl, hrest⟩
    · exact ⟨_, rfl, hrest⟩
  · rw [if_neg hsmall] at hrest ⊢
    rw [if_neg hsmall]
    by_cases hbig : MAX_REQUEST ≤ bytes
    · rw [if_pos hbig] at hrest ⊢
      rw [if_pos hbig]
      exact ⟨_, rfl, hrest⟩
    · rw [if_neg hbig] at hrest ⊢
      rw [if_neg hbig]
      obtain ⟨hnb, -, hlarge⟩ := padRequest_spec hsmall hbig
      dsimp only
      split_ifs with hmap
      · obtain ⟨⟨s', mem⟩, heq, hr | ⟨hmem, hserved⟩⟩ := tmallocLarge_spec h hnb hlarge
        · obtain ⟨rfl, rfl⟩ := Prod.mk.inj hr
          refine ⟨_, ?_, hrest⟩
          rw [heq]
          rfl
        · refine ⟨(s', mem), ?_, hserved⟩
          rw [heq]
          dsimp only [bind, Except.bind, pure, Except.pure]
          rw [if_pos hmem]
      · exact ⟨_, rfl, hrest⟩

end Bionic.Dlmalloc
