import Bionic.DlmallocFree

/-! # Programs that use the allocator

A program calls `dlmalloc` and `dlfree` in any order, frees only what it has got and not freed yet, and writes what it likes
into the blocks it has (`Run`).  Then each block is aligned and meets no other, what is in the blocks stays there, and no call
aborts but one: to free a block with a mapping of its own that is below the first segment.

* **Blocks.** A block is what `dlmalloc` has returned, with the size that was asked for.
* **Writing.** The words of a block are heads and sizes to the allocator: the one at `a` is the size behind a chunk that ends at
  `a`, or the head of a chunk at `a - 4`.
* **Requests.** A request is so far below 2^32 that the granularity can be added to it, or from `MAX_REQUEST` on (`Params.Holds`).
  Between these the size that `sys_alloc` asks for wraps around to zero, and it uses memory that it has not got.
* **The system.** Its answers are any that meet `Answers` and `TrimAnswer.Ok`. -/

namespace Bionic.Dlmalloc

namespace State

/-- `is_mmapped` -/
def isMmapped (s : State) (p : ℕ) : Bool := !(s.head p).pinuse && s.prevFoot p % 2 = 1

/-- The blocks with mappings of their own, as chunks. -/
def mapped (s : State) (live : List (ℕ × ℕ)) : List (ℕ × ℕ) :=
  (live.filter fun b => s.isMmapped (mem2chunk b.1)).map fun b => (mem2chunk b.1, s.chunksize (mem2chunk b.1))

end State

/-- A word of a block. -/
def WordOf (b : ℕ × ℕ) (a : ℕ) : Prop := a % 4 = 0 ∧ b.1 ≤ a ∧ a < b.1 + b.2

/-- Only words of the blocks have changed. -/
structure Writes (s s' : State) (live : List (ℕ × ℕ)) : Prop where
  foot (x : ℕ) : s'.prevFoot x = s.prevFoot x ∨ ∃ b ∈ live, WordOf b x
  head (x : ℕ) : s'.head x = s.head x ∨ ∃ b ∈ live, WordOf b (x + 4)
  rest : s' = { s with head := s'.head, prevFoot := s'.prevFoot }

/-- The words of a block are the same. -/
def Unchanged (s s' : State) (b : ℕ × ℕ) : Prop :=
  ∀ a, WordOf b a → s'.prevFoot a = s.prevFoot a ∧ s'.head (a - 4) = s.head (a - 4)

/-- The states that a program can bring the allocator into, with the blocks that it has. -/
inductive Run : State → List (ℕ × ℕ) → Prop
  | start : Run .initial []
  | malloc {s s' : State} {live : List (ℕ × ℕ)} {m : Params} {bytes mem : ℕ} {a : SysAnswer} :
      Run s live → m.Holds bytes → Answers s (s.mapped live) m (askedSize bytes) a →
      s.dlmalloc m bytes a = .ok (s', some mem) → Run s' ((mem, bytes) :: live)
  | fail {s s' : State} {live : List (ℕ × ℕ)} {m : Params} {bytes : ℕ} {a : SysAnswer} :
      Run s live → m.Holds bytes → Answers s (s.mapped live) m (askedSize bytes) a →
      s.dlmalloc m bytes a = .ok (s', none) → Run s' live
  | free {s s' : State} {live : List (ℕ × ℕ)} {m : Params} {b : ℕ × ℕ} {a : TrimAnswer} :
      Run s live → b ∈ live → a.Ok → s.dlfree m b.1 a = .ok s' → Run s' (live.erase b)
  | write {s s' : State} {live : List (ℕ × ℕ)} : Run s live → Writes s s' live → Run s' live

/-! ### Writing into blocks -/

section Write

variable {s s' : State} {regions : List Region} {records used : Multiset (ℕ × ℕ)} {direct : List (ℕ × ℕ)} {bs : List Block}

/-- What is inside the chunks in use does not matter. -/
theorem Frag.write {head head' : ℕ → Head} {foot foot' : ℕ → ℕ} {a e : ℕ} {pin pout : Bool}
    (h : Frag head foot a pin bs e pout)
    (hhead : ∀ x, a ≤ x → x < e → head' x = head x ∨ ∃ c ∈ blocksOf true a bs, c.1 < x ∧ x < c.1 + c.2)
    (hfoot : ∀ x, a < x → x ≤ e → foot' x = foot x ∨ ∃ c ∈ blocksOf true a bs, c.1 < x ∧ x ≤ c.1 + c.2) :
    Frag head' foot' a pin bs e pout := by
  induction bs generalizing a pin with
  | nil => exact h
  | cons b bs ih =>
    have hend := h.end_eq
    rw [total_cons] at hend
    obtain ⟨h₁, h₂, h₃, h₄, hrest⟩ := h
    have hpos : 0 < b.size := lt_of_lt_of_le (by decide) h₂
    have first (c : ℕ × ℕ) (hc : c ∈ blocksOf true a (b :: bs)) :
        c.1 + c.2 = a + b.size ∧ b.inuse = true ∨ c ∈ blocksOf true (a + b.size) bs := by
      rw [blocksOf, Multiset.mem_add] at hc
      refine hc.imp_left fun hc => ?_
      split_ifs at hc with hb
      · rw [Multiset.mem_singleton.mp hc]
        exact ⟨rfl, hb⟩
      · exact absurd hc (Multiset.notMem_zero c)
    refine ⟨?_, h₂, h₃, fun hb => ?_, ih hrest (fun x hx hx' => ?_) fun x hx hx' => ?_⟩
    · rcases hhead a le_rfl (by omega) with heq | ⟨c, hc, hlt, -⟩
      · rw [heq, h₁]
      · have := (blocksOf_range c hc).1
        omega
    · refine ⟨(h₄ hb).1, ?_⟩
      rcases hfoot (a + b.size) (by omega) (by omega) with heq | ⟨c, hc, hlt, -⟩
      · rw [heq, (h₄ hb).2]
      · rcases first c hc with ⟨-, hb'⟩ | hc
        · rw [hb] at hb'
          cases hb'
        · have := (blocksOf_range c hc).1
          omega
    · rcases hhead x (by omega) hx' with heq | ⟨c, hc, hlt, hlt'⟩
      · exact .inl heq
      · exact .inr ⟨c, (first c hc).resolve_left fun hfirst => by omega, hlt, hlt'⟩
    · rcases hfoot x (by omega) hx' with heq | ⟨c, hc, hlt, hlt'⟩
      · exact .inl heq
      · exact .inr ⟨c, (first c hc).resolve_left fun hfirst => by omega, hlt, hlt'⟩

instance : Std.Symm DirectApart := ⟨fun _ _ => Or.symm⟩

/-- Two chunks with mappings of their own are the same, or do not meet. -/
theorem Heap.mapped_apart (h : Heap s regions records direct) {c d : ℕ × ℕ} (hc : c ∈ direct) (hd : d ∈ direct) :
    c = d ∨ DirectApart c d := by
  by_cases hcd : c = d
  · exact .inl hcd
  · exact .inr (h.mappedApart.forall hc hd hcd)

/-- Inside of what is in use is nothing that the heap consists of. -/
theorem Heap.inside (h : Heap s regions records direct) (hused : chunksOf true regions = used + records) {c : ℕ × ℕ}
    (hc : c ∈ used + ↑direct) {x : ℕ} (hx : c.1 < x) (hx' : x ≤ c.1 + c.2) :
    (∀ R ∈ regions, R.seg.base ≤ x → x < R.fin → c ∈ blocksOf true R.seg.base R.blocks) ∧ ∀ d ∈ direct, x ≠ d.1 := by
  rcases Multiset.mem_add.mp hc with hc | hc
  · have hmem : c ∈ chunksOf true regions := by
      rw [hused]
      exact Multiset.mem_add.mpr (.inl hc)
    obtain ⟨Q, hQ, hcQ⟩ := mem_chunksOf.mp hmem
    have hrange := blocksOf_range c hcQ
    have hin := (h.ok Q hQ).inside hcQ
    refine ⟨fun R hR hlo hhi => ?_, fun d hd heq => ?_⟩
    · obtain ⟨A, B, rfl⟩ := List.append_of_mem hR
      by_cases hQR : Q = R
      · rwa [← hQR]
      · exfalso
        have hapart := h.apart_middle Q ((mem_middle.mp hQ).resolve_left hQR)
        have hfinR : R.fin = R.seg.base + R.seg.size := rfl
        unfold Segment.Apart at hapart
        omega
    · have := (h.mapped d hd).apart Q.seg (by rw [← h.seg]; exact List.mem_map_of_mem hQ)
      omega
  · rw [Multiset.mem_coe] at hc
    have hpad : MMAP_FOOT_PAD = 16 := rfl
    refine ⟨fun R hR hlo hhi => ?_, fun d hd heq => ?_⟩
    · have := (h.mapped c hc).apart R.seg (by rw [← h.seg]; exact List.mem_map_of_mem hR)
      have hfinR : R.fin = R.seg.base + R.seg.size := rfl
      omega
    · rcases h.mapped_apart hc hd with rfl | hapart
      · omega
      · unfold DirectApart at hapart
        omega

theorem Sound.write (h : Sound s used direct) {head : ℕ → Head} {foot : ℕ → ℕ}
    (hhead : ∀ x, head x = s.head x ∨ ∃ c ∈ used + ↑direct, c.1 < x ∧ x < c.1 + c.2)
    (hfoot : ∀ x, foot x = s.prevFoot x ∨ ∃ c ∈ used + ↑direct, c.1 < x ∧ x ≤ c.1 + c.2) :
    Sound { s with head := head, prevFoot := foot } used direct := by
  obtain ⟨⟨C, regions, records, hheap, hbin, hfree, hused⟩, hdv⟩ := h
  refine ⟨⟨C, regions, records, ⟨hheap.seg, hheap.apart, fun R hR => ?_, ?_, hheap.first, hheap.closed, hheap.least, hheap.paged,
    fun d hd => ?_, hheap.mappedApart⟩, hbin, hfree, hused⟩, hdv⟩
  · have hok := hheap.ok R hR
    have hroom := hok.room
    refine ⟨hok.frag.write (fun x hx hx' => ?_) (fun x hx hx' => ?_), hroom, hok.low, hok.high, hok.aligned⟩
    · exact (hhead x).imp_right fun ⟨c, hc, hlt, hlt'⟩ =>
        ⟨c, (hheap.inside hused hc hlt hlt'.le).1 R hR hx (by omega), hlt, hlt'⟩
    · exact (hfoot x).imp_right fun ⟨c, hc, hlt, hle⟩ =>
        ⟨c, (hheap.inside hused hc hlt hle).1 R hR hx.le (by omega), hlt, hle⟩
  · refine hheap.top.imp_right fun ⟨R, hR, hhas⟩ => ⟨R, hR, hhas.congr ⟨rfl, rfl⟩ ?_⟩
    refine (hhead s.top).resolve_right ?_
    rintro ⟨c, hc, hlt, hlt'⟩
    have := hheap.inuse_top_apart hused (by
      have := (hheap.ok R hR).low
      have hstop : R.stop = R.seg.base + total R.blocks := rfl
      have := hhas.stop
      omega) hc
    omega
  · have hold := hheap.mapped d hd
    refine hold.congr ((hhead d.1).resolve_right ?_) ((hfoot d.1).resolve_right ?_) hold.apart
    · rintro ⟨c, hc, hlt, hlt'⟩
      exact (hheap.inside hused hc hlt hlt'.le).2 d hd rfl
    · rintro ⟨c, hc, hlt, hle⟩
      exact (hheap.inside hused hc hlt hle).2 d hd rfl

end Write

/-! ### Blocks and chunks -/

/-- The block of a chunk that has been asked for some bytes. -/
def block (w : (ℕ × ℕ) × ℕ) : ℕ × ℕ := (chunk2mem w.1.1, w.2)

/-- The blocks of a program are in chunks in use, `W`, and in mappings of their own, `D`. -/
structure Held (s : State) (live : List (ℕ × ℕ)) (W D : List ((ℕ × ℕ) × ℕ)) : Prop where
  sound : Sound s ↑(W.map Prod.fst) (D.map Prod.fst)
  perm : live.Perm (W.map block ++ D.map block)
  room (w : (ℕ × ℕ) × ℕ) : w ∈ W → w.2 + 4 ≤ w.1.2
  roomMapped (w : (ℕ × ℕ) × ℕ) : w ∈ D → w.2 + 8 ≤ w.1.2

section Held

variable {s s' : State} {live : List (ℕ × ℕ)} {W D : List ((ℕ × ℕ) × ℕ)} {b : ℕ × ℕ} {w : (ℕ × ℕ) × ℕ} {a : ℕ}

theorem Held.exists_block (h : Held s live W D) (hb : b ∈ live) : (∃ w ∈ W, block w = b) ∨ ∃ w ∈ D, block w = b := by
  rw [h.perm.mem_iff, List.mem_append, List.mem_map, List.mem_map] at hb
  exact hb

theorem Held.chunk (h : Held s live W D) (hw : w ∈ W) :
    8 ≤ w.1.1 ∧ w.1.1 % 8 = 0 ∧ w.1.2 % 8 = 0 ∧ w.1.1 + w.1.2 + 8 ≤ 2 ^ 32 := by
  obtain ⟨⟨C, regions, records, hheap, -, -, hused⟩, -⟩ := h.sound
  obtain ⟨h8, hp8, -, hn8, hlt, -⟩ := hheap.chunk (k := true) (c := w.1) (by
    rw [hused]
    exact Multiset.mem_add.mpr (.inl (Multiset.mem_coe.mpr (List.mem_map_of_mem hw))))
  exact ⟨h8, hp8, hn8, hlt⟩

theorem Held.mapped (h : Held s live W D) (hw : w ∈ D) : Direct s w.1 := by
  obtain ⟨⟨C, regions, records, hheap, -⟩, -⟩ := h.sound
  exact hheap.mapped w.1 (List.mem_map_of_mem hw)

/-- The words of a block are inside of its chunk. -/
theorem Held.word_inside (h : Held s live W D) (hb : b ∈ live) (ha : WordOf b a) :
    ∃ c ∈ (↑(W.map Prod.fst) + ↑(D.map Prod.fst) : Multiset (ℕ × ℕ)),
      (c.1 < a - 4 ∧ a - 4 < c.1 + c.2) ∧ c.1 < a ∧ a ≤ c.1 + c.2 := by
  obtain ⟨ha4, hlo, hhi⟩ := ha
  rcases h.exists_block hb with ⟨w, hw, rfl⟩ | ⟨w, hw, rfl⟩
  · have := h.room w hw
    have := h.chunk hw
    dsimp only [block, chunk2mem] at hlo hhi
    exact ⟨w.1, Multiset.mem_add.mpr (.inl (Multiset.mem_coe.mpr (List.mem_map_of_mem hw))), by omega, by omega, by omega⟩
  · have := h.roomMapped w hw
    dsimp only [block, chunk2mem] at hlo hhi
    exact ⟨w.1, Multiset.mem_add.mpr (.inr (Multiset.mem_coe.mpr (List.mem_map_of_mem hw))), by omega, by omega, by omega⟩

/-- What is kept of the chunks is kept of the blocks. -/
theorem Held.unchanged {s₀ : State} (h : Held s₀ live W D) (hkeep : Keeps s s' (↑(W.map Prod.fst) + ↑(D.map Prod.fst)))
    (hb : b ∈ live) : Unchanged s s' b := by
  intro a ha
  obtain ⟨c, hc, ⟨h₁, h₂⟩, h₃, h₄⟩ := h.word_inside hb ha
  exact ⟨(hkeep c hc).2 a h₃ h₄, (hkeep c hc).1 (a - 4) h₁ h₂⟩

/-- The mappings of the blocks are those of the heap. -/
theorem Held.mem_mapped (h : Held s live W D) {c : ℕ × ℕ} (hc : c ∈ D.map Prod.fst) : c ∈ s.mapped live := by
  obtain ⟨w, hw, rfl⟩ := List.mem_map.mp hc
  have hd := h.mapped hw
  have hmem : mem2chunk (block w).1 = w.1.1 := Nat.add_sub_cancel w.1.1 8
  rw [State.mapped, List.mem_map]
  refine ⟨block w, List.mem_filter.mpr ⟨?_, ?_⟩, ?_⟩
  · rw [h.perm.mem_iff]
    exact List.mem_append_right _ (List.mem_map_of_mem hw)
  · rw [hmem, State.isMmapped, hd.head, hd.foot]
    rfl
  · rw [hmem, State.chunksize, hd.head]

theorem Unused.mono {direct direct' : List (ℕ × ℕ)} {base size : ℕ} (h : Unused s direct base size)
    (hsub : ∀ c ∈ direct', c ∈ direct) : Unused s direct' base size :=
  ⟨h.low, h.high, h.begins, h.apart, fun c hc => h.mapped c (hsub c hc)⟩

theorem Answers.mono {direct direct' : List (ℕ × ℕ)} {m : Params} {nb : ℕ} {ans : SysAnswer} (h : Answers s direct m nb ans)
    (hsub : ∀ c ∈ direct', c ∈ direct) : Answers s direct' m nb ans :=
  ⟨fun p hp => (h.mapped p hp).mono hsub, fun tbase tsize mmapped hr => (h.memory tbase tsize mmapped hr).imp_left (·.mono hsub),
    h.base, h.stop⟩

theorem held_start : Held .initial [] [] [] := by
  refine ⟨⟨⟨0, [], 0, ⟨rfl, List.Pairwise.nil, by simp, .inl ⟨rfl, rfl, rfl⟩, by simp, by simp, by simp, by simp,
    by simp, List.Pairwise.nil⟩, ?_, rfl, rfl⟩,
    fun _ => rfl⟩, List.Perm.refl _, by simp, by simp⟩
  refine ⟨0, TreeBins.empty_inv, ?_, fun i _ h => absurd h (by simp [State.initial])⟩
  simp [smallChunks, State.initial]

theorem Held.write (h : Held s live W D) (hw : Writes s s' live) : Held s' live W D := by
  refine ⟨?_, h.perm, h.room, h.roomMapped⟩
  rw [hw.rest]
  refine h.sound.write (fun x => ?_) fun x => ?_
  · refine (hw.head x).imp_right fun ⟨b, hb, hx⟩ => ?_
    obtain ⟨c, hc, ⟨h₁, h₂⟩, -⟩ := h.word_inside hb hx
    exact ⟨c, hc, by simpa using h₁, by simpa using h₂⟩
  · refine (hw.foot x).imp_right fun ⟨b, hb, hx⟩ => ?_
    obtain ⟨c, hc, -, h₃, h₄⟩ := h.word_inside hb hx
    exact ⟨c, hc, h₃, h₄⟩

theorem perm_erase {l l' : List (ℕ × ℕ)} {b : ℕ × ℕ} (h : l.Perm (b :: l')) : (l.erase b).Perm l' := by
  have := h.erase b
  rwa [List.erase_cons_head] at this

/-- A block can be freed, but for one with a mapping of its own below `least_addr`. -/
theorem Held.free (h : Held s live W D) (hb : b ∈ live) (m : Params) {ans : TrimAnswer} (hans : ans.Ok) :
    (s.leastAddr ≤ mem2chunk b.1 → ∃ s' W' D', s.dlfree m b.1 ans = .ok s' ∧ Held s' (live.erase b) W' D' ∧
      ∀ b' ∈ live.erase b, Unchanged s s' b') ∧
    (s.leastAddr ≤ mem2chunk b.1 ∨ s.isMmapped (mem2chunk b.1) = true ∧ s.dlfree m b.1 ans = .error .usage) := by
  rcases h.exists_block hb with ⟨w, hw, rfl⟩ | ⟨w, hw, rfl⟩
  · obtain ⟨W₁, W₂, rfl⟩ := List.append_of_mem hw
    have hused : ((List.map Prod.fst (W₁ ++ w :: W₂) : List (ℕ × ℕ)) : Multiset (ℕ × ℕ)) =
        (w.1.1, w.1.2) ::ₘ ↑(List.map Prod.fst (W₁ ++ W₂)) := by
      rw [Multiset.cons_coe, Multiset.coe_eq_coe]
      simp only [List.map_append, List.map_cons]
      exact List.perm_middle
    have hperm : (live.erase (block w)).Perm ((W₁ ++ W₂).map block ++ D.map block) := by
      refine perm_erase (h.perm.trans ?_)
      simp only [List.map_append, List.map_cons, List.append_assoc, List.cons_append]
      exact List.perm_middle
    have hsound := h.sound
    rw [hused] at hsound
    obtain ⟨s', heq, hsound', hkeep⟩ := dlfree_spec m hsound hans
    have hheld : Held s' (live.erase (block w)) (W₁ ++ W₂) D := by
      exact ⟨hsound', hperm, fun w' hw' => h.room w' (mem_middle.mpr (.inr (List.mem_append.mp hw'))), h.roomMapped⟩
    refine ⟨fun _ => ⟨s', _, _, heq, hheld, fun b' hb' => hheld.unchanged hkeep hb'⟩, .inl ?_⟩
    obtain ⟨⟨C, regions, records, hheap, -, -, hchunks⟩, -⟩ := hsound
    exact (hheap.chunk (k := true) (c := w.1) (by rw [hchunks]; simp)).2.2.2.2.2
  · obtain ⟨D₁, D₂, rfl⟩ := List.append_of_mem hw
    have hperm : (live.erase (block w)).Perm (W.map block ++ (D₁ ++ D₂).map block) := by
      refine perm_erase (h.perm.trans ?_)
      simp only [List.map_append, List.map_cons]
      rw [← List.append_assoc, ← List.append_assoc]
      exact List.perm_middle
    have hdirect := h.mapped hw
    have hsound := h.sound
    simp only [List.map_append, List.map_cons] at hsound
    obtain ⟨heq, hsound'⟩ := dlfree_mapped m ans hsound
    have hheld : Held s (live.erase (block w)) W (D₁ ++ D₂) := by
      exact ⟨by rwa [List.map_append], hperm, h.room,
        fun w' hw' => h.roomMapped w' (mem_middle.mpr (.inr (List.mem_append.mp hw')))⟩
    have hchunk : mem2chunk (block w).1 = w.1.1 := Nat.add_sub_cancel w.1.1 8
    rw [hchunk]
    refine ⟨fun hleast => ⟨s, _, _, heq.trans (if_pos hleast), hheld, fun _ _ _ _ => ⟨rfl, rfl⟩⟩, ?_⟩
    by_cases hleast : s.leastAddr ≤ w.1.1
    · exact .inl hleast
    · refine .inr ⟨?_, heq.trans (if_neg hleast)⟩
      rw [State.isMmapped, hdirect.head, hdirect.foot]
      rfl

/-- What is asked for is enough. -/
theorem askedSize_spec (bytes : ℕ) : bytes + 4 ≤ askedSize bytes ∨ askedSize bytes = MAX_SIZE_T := by
  unfold askedSize
  split_ifs with hsmall hbig
  · exact .inl (smallSize_spec hsmall).2.1
  · exact .inr rfl
  · exact .inl (padRequest_spec hsmall hbig).2.1

/-- Where a chunk in use has come to the others, it does not meet them. -/
theorem Sound.apart {c : ℕ × ℕ} {used : Multiset (ℕ × ℕ)} {direct : List (ℕ × ℕ)} (h : Sound s (c ::ₘ used) direct) {d : ℕ × ℕ}
    (hd : d ∈ used + ↑direct) : c.1 + c.2 ≤ d.1 ∨ d.1 + d.2 ≤ c.1 := by
  obtain ⟨⟨C, regions, records, hheap, -, -, hused⟩, -⟩ := h
  have hc : c ∈ chunksOf true regions := by
    rw [hused]
    simp
  rcases Multiset.mem_add.mp hd with hd | hd
  · have hdmem : d ∈ chunksOf true regions := by
      rw [hused]
      exact Multiset.mem_add.mpr (.inl (Multiset.mem_cons_of_mem hd))
    rcases hheap.chunks_apart hc hdmem with hap | hap | ⟨rfl, -⟩
    · exact .inl hap
    · exact .inr hap
    · have hnodup := hheap.nodup (k := true)
      rw [hused, Multiset.cons_add, Multiset.map_cons, Multiset.nodup_cons, Multiset.map_add, Multiset.mem_add] at hnodup
      exact absurd (.inl (Multiset.mem_map_of_mem _ hd)) hnodup.1
  · exact (hheap.direct_apart (Multiset.mem_coe.mp hd) hc).symm

/-- A mapping does not meet the others, nor a chunk in use. -/
theorem Sound.mapped_apart {c : ℕ × ℕ} {used : Multiset (ℕ × ℕ)} {direct : List (ℕ × ℕ)} (h : Sound s used (c :: direct))
    {d : ℕ × ℕ} (hd : d ∈ used + ↑direct) : c.1 + c.2 ≤ d.1 ∨ d.1 + d.2 ≤ c.1 := by
  obtain ⟨⟨C, regions, records, hheap, -, -, hused⟩, -⟩ := h
  rcases Multiset.mem_add.mp hd with hd | hd
  · exact hheap.direct_apart List.mem_cons_self (k := true) (by
      rw [hused]
      exact Multiset.mem_add.mpr (.inl hd))
  · have := (List.pairwise_cons.mp hheap.mappedApart).1 d (Multiset.mem_coe.mp hd)
    unfold DirectApart at this
    omega

/-- What `dlmalloc` returns. -/
structure Good (live : List (ℕ × ℕ)) (b : ℕ × ℕ) : Prop where
  aligned : b.1 ≠ 0 ∧ b.1 % 8 = 0
  inside : b.1 + b.2 ≤ 2 ^ 32
  apart (b' : ℕ × ℕ) : b' ∈ live → b.1 + b.2 ≤ b'.1 ∨ b'.1 + b'.2 ≤ b.1

/-- Chunks that do not meet have blocks that do not meet. -/
theorem Held.good (h : Held s live W D) (hp : w.1.1 % 8 = 0) (hend : w.1.1 + w.1.2 + 8 ≤ 2 ^ 32) (hroom : w.2 + 4 ≤ w.1.2)
    (hapart : ∀ d ∈ (↑(W.map Prod.fst) + ↑(D.map Prod.fst) : Multiset (ℕ × ℕ)), w.1.1 + w.1.2 ≤ d.1 ∨ d.1 + d.2 ≤ w.1.1) :
    Good live (block w) := by
  refine ⟨⟨Nat.succ_ne_zero _, ?_⟩, ?_, fun b hb => ?_⟩
  · dsimp only [block, chunk2mem]
    omega
  · dsimp only [block, chunk2mem]
    omega
  · rcases h.exists_block hb with ⟨w', hw', rfl⟩ | ⟨w', hw', rfl⟩
    · have := h.room w' hw'
      have := hapart w'.1 (Multiset.mem_add.mpr (.inl (Multiset.mem_coe.mpr (List.mem_map_of_mem hw'))))
      dsimp only [block, chunk2mem]
      omega
    · have := h.roomMapped w' hw'
      have := hapart w'.1 (Multiset.mem_add.mpr (.inr (Multiset.mem_coe.mpr (List.mem_map_of_mem hw'))))
      dsimp only [block, chunk2mem]
      omega

/-- What comes after a call of `dlmalloc`. -/
theorem Held.malloc (h : Held s live W D) {m : Params} {bytes : ℕ} {ans : SysAnswer} (hm : m.Holds bytes)
    (ha : Answers s (s.mapped live) m (askedSize bytes) ans) :
    ∃ s' r, s.dlmalloc m bytes ans = .ok (s', r) ∧ (∀ b ∈ live, Unchanged s s' b) ∧
      (r = none ∧ Held s' live W D ∨
        ∃ mem W' D', r = some mem ∧ Held s' ((mem, bytes) :: live) W' D' ∧ Good live (mem, bytes)) := by
  obtain ⟨⟨s', r⟩, heq, hserved⟩ := dlmalloc_spec h.sound hm (ha.mono fun c hc => h.mem_mapped hc)
  have hmax : MAX_SIZE_T = 2 ^ 32 - 1 := rfl
  refine ⟨s', r, heq, ?_⟩
  cases hserved with
  | fail hsound hkeep => exact ⟨fun b hb => h.unchanged hkeep hb, .inl ⟨rfl, hsound, h.perm, h.room, h.roomMapped⟩⟩
  | @chunk _ p n hle hsound hkeep =>
    have hp : 8 ≤ p ∧ p % 8 = 0 ∧ p + n + 8 ≤ 2 ^ 32 := by
      obtain ⟨⟨C, regions, records, hheap, -, -, hused⟩, -⟩ := hsound
      have := hheap.chunk (k := true) (c := (p, n)) (by rw [hused]; simp)
      exact ⟨this.1, this.2.1, this.2.2.2.2.1⟩
    have hroom : bytes + 4 ≤ n := by
      have := askedSize_spec bytes
      omega
    refine ⟨fun b hb => h.unchanged hkeep hb, .inr ⟨_, ((p, n), bytes) :: W, D, rfl, ⟨hsound, h.perm.cons _, ?_, h.roomMapped⟩, ?_⟩⟩
    · exact List.forall_mem_cons.mpr ⟨hroom, h.room⟩
    · exact h.good (w := ((p, n), bytes)) hp.2.1 hp.2.2 hroom fun d hd => hsound.apart hd
  | @mapped _ p n hle hsound hkeep =>
    have hd : Direct s' (p, n) := by
      obtain ⟨⟨C, regions, records, hheap, -⟩, -⟩ := hsound
      exact hheap.mapped _ List.mem_cons_self
    have hhigh := hd.high
    have hpad : MMAP_FOOT_PAD = 16 := rfl
    have hroom : bytes + 8 ≤ n := by
      have := askedSize_spec bytes
      dsimp only at hhigh
      omega
    refine ⟨fun b hb => h.unchanged hkeep hb, .inr ⟨_, W, ((p, n), bytes) :: D, rfl, ⟨hsound, ?_, h.room, ?_⟩, ?_⟩⟩
    · exact (h.perm.cons _).trans List.perm_middle.symm
    · exact List.forall_mem_cons.mpr ⟨hroom, h.roomMapped⟩
    · refine h.good (w := ((p, n), bytes)) hd.aligned ?_ (by dsimp only; omega) fun d hd => hsound.mapped_apart hd
      dsimp only at hhigh ⊢
      omega

end Held

/-! ### Runs -/

section Run

variable {s s' : State} {live : List (ℕ × ℕ)}

theorem Run.held (h : Run s live) : ∃ W D, Held s live W D := by
  induction h with
  | start => exact ⟨[], [], held_start⟩
  | malloc _ hm ha heq ih =>
    obtain ⟨W, D, hheld⟩ := ih
    obtain ⟨s₁, r, heq', -, ⟨rfl, -⟩ | ⟨mem, W', D', rfl, hheld', -⟩⟩ := hheld.malloc hm ha
    · rw [heq] at heq'
      cases heq'
    · rw [heq] at heq'
      cases heq'
      exact ⟨W', D', hheld'⟩
  | fail _ hm ha heq ih =>
    obtain ⟨W, D, hheld⟩ := ih
    obtain ⟨s₁, r, heq', -, ⟨rfl, hheld'⟩ | ⟨mem, W', D', rfl, -⟩⟩ := hheld.malloc hm ha
    · rw [heq] at heq'
      cases heq'
      exact ⟨W, D, hheld'⟩
    · rw [heq] at heq'
      cases heq'
  | @free _ _ _ m _ _ _ hb ha heq ih =>
    obtain ⟨W, D, hheld⟩ := ih
    obtain ⟨hfree, hleast | ⟨-, herror⟩⟩ := hheld.free hb m ha
    · obtain ⟨s', W', D', heq', hheld', -⟩ := hfree hleast
      rw [heq] at heq'
      cases heq'
      exact ⟨W', D', hheld'⟩
    · rw [heq] at herror
      cases herror
  | write _ hw ih =>
    obtain ⟨W, D, hheld⟩ := ih
    exact ⟨W, D, hheld.write hw⟩

/-- The parameters that `init_mparams` sets. -/
def defaultParams : Params := ⟨2 ^ 12, 2 ^ 16, 2 ^ 21, 12, by decide, by decide, rfl⟩

/-- `MORECORE` gives memory where it begins. -/
def moreAt (base : ℕ) : SysAnswer := ⟨none, some base, some base, none, none, none, none⟩

/-- Only `MMAP` gives memory. -/
def mappedAt (direct mapped : Option ℕ) : SysAnswer := ⟨direct, none, none, none, mapped, none, none⟩

/-- Without the bound on the request, the first call takes memory of no bytes for the block. -/
example : (State.initial.dlmalloc defaultParams (2 ^ 32 - 2 ^ 12) (moreAt (2 ^ 16))).toOption.bind Prod.snd = some (2 ^ 16 + 8) := by
  decide

/-- The heap with a block that has a mapping of its own. -/
def mappedOnly : State :=
  (State.initial.dlmalloc defaultParams 100000 (mappedAt (some (2 ^ 16)) none)).toOption.elim .initial Prod.fst

/-- The first segment is above the mapping. -/
def mappedBelow : State :=
  (mappedOnly.dlmalloc defaultParams 100 (mappedAt none (some (2 ^ 20)))).toOption.elim .initial Prod.fst

theorem mappedOnly_run : Run mappedOnly [(2 ^ 16 + 8, 100000)] := by
  refine .malloc .start (m := defaultParams) (a := mappedAt (some (2 ^ 16)) none) (.inr (by decide))
    ⟨fun p hp => ?_, fun tbase tsize mmapped hr => ?_, fun base hb => ?_, fun br stop hb => ?_⟩ rfl
  · cases hp
    exact ⟨by decide, by decide, by decide, by simp [State.initial], by simp [State.mapped]⟩
  · cases hr
  · cases hb
  · cases hb

theorem mappedBelow_answers : Answers mappedOnly (mappedOnly.mapped [(2 ^ 16 + 8, 100000)]) defaultParams (askedSize 100)
    (mappedAt none (some (2 ^ 20))) := by
  refine ⟨fun p hp => ?_, fun tbase tsize mmapped hr => ?_, fun base hb => ?_, fun br stop hb => ?_⟩
  · cases hp
  · cases hr
    refine ⟨⟨by decide, by decide, by decide, fun sp hsp => absurd hsp List.not_mem_nil, fun c hc => .inr ?_⟩,
      fun hm => absurd hm (by decide)⟩
    have hmapped : mappedOnly.mapped [(2 ^ 16 + 8, 100000)] = [(2 ^ 16, 25 * 2 ^ 12 - 16)] := by decide
    rw [hmapped, List.mem_singleton] at hc
    subst hc
    decide
  · cases hb
  · cases hb

theorem mappedBelow_eq :
    mappedOnly.dlmalloc defaultParams 100 (mappedAt none (some (2 ^ 20))) = .ok (mappedBelow, some (2 ^ 20 + 8)) := rfl

theorem mappedBelow_run : Run mappedBelow [(2 ^ 20 + 8, 100), (2 ^ 16 + 8, 100000)] :=
  .malloc mappedOnly_run (.inr (by decide)) mappedBelow_answers mappedBelow_eq

/-- What is asked for is given back. -/
def givenBack (oldBr : ℕ) : TrimAnswer := ⟨true, some oldBr, fun extra => some (oldBr - extra / 8 * 8), fun _ => true⟩

theorem givenBack_ok {oldBr : ℕ} (h : oldBr % 8 = 0) : (givenBack oldBr).Ok := by
  rintro extra _ _ ⟨⟩ ⟨⟩
  omega

/-- The heap with one block. -/
def oneChunk : State := (State.initial.dlmalloc defaultParams 100 (moreAt (2 ^ 16))).toOption.elim .initial Prod.fst

/-- A large block comes behind it. -/
def largeTop : State :=
  (oneChunk.dlmalloc defaultParams (3 * 2 ^ 20) (moreAt (2 ^ 16 + 2 ^ 12))).toOption.elim .initial Prod.fst

/-- The large block has been freed, and its memory given back. -/
def trimmedHeap : State :=
  (largeTop.dlfree defaultParams (2 ^ 16 + 112) (givenBack (2 ^ 16 + 2 ^ 12 + 3 * 2 ^ 20))).toOption.getD .initial

theorem largeTop_run : Run largeTop [(2 ^ 16 + 112, 3 * 2 ^ 20), (2 ^ 16 + 8, 100)] := by
  have hone : Run oneChunk [(2 ^ 16 + 8, 100)] := by
    refine .malloc .start (m := defaultParams) (a := moreAt (2 ^ 16)) (.inr (by decide))
      ⟨fun p hp => ?_, fun tbase tsize mmapped hr => ?_, fun base hb => ?_, fun br stop hb => ?_⟩ rfl
    · cases hp
    · cases hr
      exact ⟨⟨by decide, by decide, by decide, by simp [State.initial], by simp [State.mapped]⟩, fun _ => by simp [State.initial]⟩
    · cases hb
      decide
    · cases hb
  refine .malloc hone (m := defaultParams) (a := moreAt (2 ^ 16 + 2 ^ 12)) (.inr (by decide))
    ⟨fun p hp => ?_, fun tbase tsize mmapped hr => ?_, fun base hb => ?_, fun br stop hb => ?_⟩ rfl
  · cases hp
  · have hseg : oneChunk.seg = [⟨2 ^ 16, 2 ^ 12, false⟩] := by decide
    have hmapped : oneChunk.mapped [(2 ^ 16 + 8, 100)] = [] := by decide
    cases hr
    exact ⟨⟨by decide, by decide, by decide, by simp [hseg], by rw [hmapped]; simp⟩, fun _ => by simp [hseg]⟩
  · cases hb
    decide
  · cases hb

theorem trimmedHeap_run : Run trimmedHeap [(2 ^ 16 + 8, 100)] :=
  .free largeTop_run (m := defaultParams) (a := givenBack (2 ^ 16 + 2 ^ 12 + 3 * 2 ^ 20)) (b := (2 ^ 16 + 112, 3 * 2 ^ 20)) (by simp)
    (givenBack_ok (by decide)) rfl

/-- The blocks of a program never meet. -/
theorem Run.blocks_apart (h : Run s live) : live.Pairwise fun b b' => b.1 + b.2 ≤ b'.1 ∨ b'.1 + b'.2 ≤ b.1 := by
  induction h with
  | start => exact List.Pairwise.nil
  | malloc hrun hm ha heq ih =>
    obtain ⟨W, D, hheld⟩ := hrun.held
    obtain ⟨s₁, r, heq', -, ⟨rfl, -⟩ | ⟨mem, W', D', rfl, -, hgood⟩⟩ := hheld.malloc hm ha
    · rw [heq] at heq'
      cases heq'
    · rw [heq] at heq'
      cases heq'
      exact List.pairwise_cons.mpr ⟨hgood.apart, ih⟩
  | fail _ _ _ _ ih => exact ih
  | free _ _ _ _ ih => exact ih.sublist List.erase_sublist
  | write _ _ ih => exact ih

theorem blocks_apart_mappedBelow :
    [(2 ^ 20 + 8, 100), (2 ^ 16 + 8, 100000)].Pairwise fun b b' : ℕ × ℕ => b.1 + b.2 ≤ b'.1 ∨ b'.1 + b'.2 ≤ b.1 :=
  Run.blocks_apart mappedBelow_run

/-- Every chunk of every segment is the one of a block, the record of a segment, `dv`, or in a bin; the blocks are in chunks that
have room for them, or in mappings of their own. -/
theorem Run.heap_in_order (h : Run s live) : ∃ (regions : List Region) (C records : Multiset (ℕ × ℕ)) (W D : List ((ℕ × ℕ) × ℕ)),
    Heap s regions records (D.map Prod.fst) ∧ Binned s C ∧ chunksOf false regions = dvPart s + C ∧
      chunksOf true regions = ↑(W.map Prod.fst) + records ∧ live.Perm (W.map block ++ D.map block) ∧
      (∀ w ∈ W, w.2 + 4 ≤ w.1.2) ∧ ∀ w ∈ D, w.2 + 8 ≤ w.1.2 := by
  obtain ⟨W, D, ⟨⟨C, regions, records, hheap, hbin, hfree, hused⟩, -⟩, hperm, hroom, hroomMapped⟩ := h.held
  exact ⟨regions, C, records, W, D, hheap, hbin, hfree, hused, hperm, hroom, hroomMapped⟩

theorem heap_in_order_trimmedHeap : ∃ (regions : List Region) (C records : Multiset (ℕ × ℕ)) (W D : List ((ℕ × ℕ) × ℕ)),
    Heap trimmedHeap regions records (D.map Prod.fst) ∧ Binned trimmedHeap C ∧
      chunksOf false regions = dvPart trimmedHeap + C ∧ chunksOf true regions = ↑(W.map Prod.fst) + records ∧
      [(2 ^ 16 + 8, 100)].Perm (W.map block ++ D.map block) ∧ (∀ w ∈ W, w.2 + 4 ≤ w.1.2) ∧ ∀ w ∈ D, w.2 + 8 ≤ w.1.2 :=
  Run.heap_in_order trimmedHeap_run

end Run

end Bionic.Dlmalloc
