import Bionic.BaRun
import Bionic.LinkerFrame

/-! # What loading a library changes

`Grown s s' new` is the relation between the states before and after a load: the entries `new`
have been added behind `solist`, the old ones differ in their `refcount` only, and every `refcount`
went up by the references that the new entries took.  `loadLibrary_spec` proves it of
`load_library`, which adds one entry or none; when it fails, the block that it took from the buddy
allocator has been given back. -/

namespace Bionic.Linker

open StateExcept RefGraph Buddy

/-! ### Blocks of the buddy allocator -/

/-- The blocks of the entries in `solist`. -/
def live (s : State) : List ℕ := s.solist.filterMap fun x => (s.so x).baIndex

/-- The buddy allocator holds the tree `t` with the allocated blocks `l`, and the memory behind its
bitmap does not look like a free block of order 8. -/
def Owns (ba : Ba.State) (l : List ℕ) (t : BTree 8) : Prop := Ba.Fenced ba ∧ Ba.Holds ⟨ba, l⟩ t

/-- The allocated blocks are those of the entries. -/
def Blocks (s : State) (t : BTree 8) : Prop := Owns s.ba (live s) t

namespace Owns

variable {ba : Ba.State} {l l' : List ℕ} {t : BTree 8}

theorem perm (h : Owns ba l t) (hp : l.Perm l') : Owns ba l' t :=
  ⟨h.1, h.2.rep, h.2.coalesced, hp.nodup_iff.1 h.2.nodup, fun i => by rw [← h.2.live i, hp.mem_iff]⟩

theorem fenced {ba' : Ba.State} (h : Owns ba l t)
    (hb : ba'.bitmap Ba.numEntries = ba.bitmap Ba.numEntries) : Ba.Fenced ba' := by
  unfold Ba.Fenced
  rw [hb]
  exact h.1

theorem allocate (h : Owns ba l t) (len : ℕ) :
    ((Ba.baAllocate len ba).1 = none ∧ Owns (Ba.baAllocate len ba).2 l t) ∨
      ∃ i t', (Ba.baAllocate len ba).1 = some i ∧ Owns (Ba.baAllocate len ba).2 (i :: l) t' ∧
        t'.release i 0 = t := by
  obtain ⟨r, ba', heq, hfr, -, ⟨rfl, h'⟩ | ⟨i, t', rfl, h', hrel⟩⟩ := Ba.allocate_holds h.2 len
  · exact Or.inl (by rw [heq]; exact ⟨rfl, h.fenced hfr, h'⟩)
  · exact Or.inr ⟨i, t', by rw [heq], by rw [heq]; exact ⟨h.fenced hfr, h'⟩, hrel⟩

theorem free (h : Owns ba l t) {i : ℕ} (hi : i ∈ l) :
    Owns (Ba.baFree i ba).2 (l.erase i) (t.release i 0) := by
  have hs : Ba.step ⟨ba, l⟩ (.free i) = some ⟨(Ba.baFree i ba).2, l.erase i⟩ :=
    Ba.step_free_iff.2 ⟨hi, rfl⟩
  obtain ⟨h', hfr⟩ := Ba.step_free h.2 hs (Or.inl h.1)
  exact ⟨h.fenced hfr, h'⟩

end Owns

/-! ### Assignments to one entry -/

/-- The entry `si` is now `i`, the buddy allocator `ba`, and the calls `es` have been made. -/
def State.put (s : State) (si : Ptr) (i : Soinfo) (ba : Ba.State) (es : List Event) : State :=
  { s with so := Function.update s.so si i, ba := ba, log := s.log ++ es }

namespace State

variable (s : State) (si : Ptr) (i : Soinfo) (ba : Ba.State) (es : List Event)

@[simp] theorem put_so_self : (s.put si i ba es).so si = i := by simp [put]

theorem put_so_of_ne {x : Ptr} (h : x ≠ si) : (s.put si i ba es).so x = s.so x := by simp [put, h]

@[simp] theorem put_solist : (s.put si i ba es).solist = s.solist := rfl
@[simp] theorem put_freelist : (s.put si i ba es).freelist = s.freelist := rfl
@[simp] theorem put_socount : (s.put si i ba es).socount = s.socount := rfl
@[simp] theorem put_ba : (s.put si i ba es).ba = ba := rfl
@[simp] theorem put_log : (s.put si i ba es).log = s.log ++ es := rfl

theorem update_eq_put (f : Soinfo → Soinfo) : s.update si f = s.put si (f (s.so si)) s.ba [] := by
  simp [update, put]

@[simp] theorem put_put (i' : Soinfo) (ba' : Ba.State) (es' : List Event) :
    (s.put si i ba es).put si i' ba' es' = s.put si i' ba' (es ++ es') := by simp [put]

@[simp] theorem put_record (es' : List Event) :
    (s.put si i ba es).record es' = s.put si i ba (es ++ es') := by simp [put, record]

@[simp] theorem record_put (es' : List Event) :
    (s.record es).put si i ba es' = s.put si i ba (es ++ es') := by simp [put, record]

end State

/-! ### `alloc_mem_region` and `load_segments` -/

/-- What became of the region of `si`: it was reserved, perhaps in a block of the allocator, or
nothing was taken. -/
def Reserved (ok : Bool) (i : Soinfo) (ba ba' : Ba.State) : Prop :=
  ∀ l t, Owns ba l t →
    (ok = true → ∃ t', Owns ba' (i.baIndex.toList ++ l) t' ∧
      (i.baIndex.elim t' fun k => t'.release k 0) = t) ∧
    (ok = false → Owns ba' l t)

@[simp] theorem total_callBa {α : Type} {x : Ba.BaM α} {s : State} {Q : α → State → Prop} :
    Total (callBa x) s Q ↔ Q (x s.ba).1 { s with ba := (x s.ba).2 } := by
  constructor
  · intro h
    exact h.of_returns rfl
  · intro hq
    exact ⟨_, _, rfl, hq⟩

theorem total_reserveMemRegion {img : Image} {si : Ptr} {s : State} {Q : Bool → State → Prop}
    (hq : Q img.reserved (s.put si { s.so si with mapped := img.reserved } s.ba [])) :
    Total (reserveMemRegion img si) s Q := by
  unfold reserveMemRegion
  apply total_bind
  rw [total_modify, total_pure, State.update_eq_put]
  exact hq

theorem allocMemRegion_spec (arch : Ba.Arch) (img : Image) (si : Ptr) (s : State) :
    Total (allocMemRegion arch img si) s fun ok s' => ∃ b k m ba,
      s' = s.put si { s.so si with base := b, baIndex := k, mapped := m } ba [] ∧
      (ok = true → m = true) ∧ Reserved ok (s'.so si) s.ba ba := by
  unfold allocMemRegion
  apply total_bind
  rw [total_get]
  by_cases hbase : (s.so si).base ≠ 0
  · rw [if_pos hbase]
    apply total_bind
    rw [total_modify, State.update_eq_put]
    apply total_reserveMemRegion
    refine ⟨(s.so si).base, none, img.reserved, s.ba, by simp, id, fun l t h => ⟨fun _ => ⟨t, ?_, ?_⟩, fun _ => h⟩⟩
    · simpa using h
    · simp
  · rw [if_neg hbase]
    apply total_bind
    rw [total_callBa]
    rcases heq : Ba.baAllocate (s.so si).size s.ba with ⟨r, ba'⟩
    cases r with
    | none =>
        refine total_pure.2 ⟨(s.so si).base, (s.so si).baIndex, (s.so si).mapped, ba', ?_, by simp,
          fun l t h => ⟨by simp, fun _ => ?_⟩⟩
        · simp [State.put]
        · rcases h.allocate (s.so si).size with ⟨-, h'⟩ | ⟨i, t', h1, -⟩
          · rw [heq] at h'
            exact h'
          · rw [heq] at h1
            cases h1
    | some k =>
        have hown : ∀ l t, Owns s.ba l t → ∃ t', Owns ba' (k :: l) t' ∧ t'.release k 0 = t := by
          intro l t h
          rcases h.allocate (s.so si).size with ⟨h1, -⟩ | ⟨i, t', h1, h', hrel⟩
          · rw [heq] at h1
            cases h1
          · rw [heq] at h1 h'
            cases h1
            exact ⟨t', h', hrel⟩
        apply total_bind
        rw [total_modify, State.update_eq_put]
        apply total_bind
        apply total_reserveMemRegion
        rw [State.put_put]
        cases img.reserved with
        | true =>
            refine total_pure.2 ⟨Ba.baStartAddr arch k, some k, true, ba', by simp [State.put], id,
              fun l t h => ⟨fun _ => ?_, by simp⟩⟩
            simpa using hown l t h
        | false =>
            apply total_bind
            rw [total_callBa]
            apply total_bind
            rw [total_modify, total_pure]
            refine ⟨0, none, false, (Ba.baFree k ba').2, by simp [State.put, State.update], by simp,
              fun l t h => ⟨by simp, fun _ => ?_⟩⟩
            obtain ⟨t', h', rfl⟩ := hown l t h
            simpa using h'.free List.mem_cons_self

theorem total_munmap {si : Ptr} {s : State} {Q : Unit → State → Prop}
    (hq : Q () (s.put si { s.so si with mapped := false } s.ba [.munmap si])) :
    Total (munmap si) s Q := by
  unfold munmap
  rw [total_modify, State.update_eq_put]
  simpa using hq

theorem total_releaseBlock {si : Ptr} {s : State} {Q : Unit → State → Prop}
    (hq : Q () (s.put si (s.so si) ((s.so si).baIndex.elim s.ba fun k => (Ba.baFree k s.ba).2) [])) :
    Total (releaseBlock si) s Q := by
  unfold releaseBlock
  apply total_bind
  rw [total_get]
  cases hk : (s.so si).baIndex with
  | none =>
      rw [total_pure]
      simpa [hk, State.put] using hq
  | some k =>
      rw [total_callBa]
      simpa [hk, State.put] using hq

theorem total_loadSegments {img : Image} {si : Ptr} {s : State} {Q : Bool → State → Prop}
    (ht : img.segments = true → Q true (s.put si
      { s.so si with dynamic := img.dynamic.elim .missing .present } s.ba []))
    (hf : img.segments = false → Q false (s.put si { s.so si with
      mapped := false, flags := { (s.so si).flags with error := true } } s.ba [.munmap si])) :
    Total (loadSegments img si) s Q := by
  unfold loadSegments
  cases hs : img.segments with
  | true =>
      rw [if_pos rfl]
      apply total_bind
      rw [total_modify, total_pure, State.update_eq_put]
      exact ht hs
  | false =>
      rw [if_neg Bool.false_ne_true]
      apply total_bind
      apply total_munmap
      apply total_bind
      rw [total_modify, total_pure, State.update_eq_put]
      simpa using hf hs

/-- The entry `i` that `load_library` has made of `i₀`, and the calls it has made. -/
structure Mapped (img : Image) (ok : Bool) (si : Ptr) (i₀ i : Soinfo) (es : List Event) : Prop where
  name : i.name = i₀.name
  taken : i.taken = i₀.taken
  refcount : i.refcount = i₀.refcount
  events : ∀ e ∈ es, e = .munmap si
  quiet : ok = true → es = []
  flags : ok = true → i.flags = {}
  mapped : ok = true → i.mapped = true
  dynamic : ok = true → i.dynamic = img.dynamic.elim .missing .present

theorem mapImage_spec (arch : Ba.Arch) (img : Image) (reqBase extSz : ℕ) (si : Ptr) (s : State) :
    Total (mapImage arch img reqBase extSz si) s fun ok s' => ∃ i ba es,
      s' = s.put si i ba es ∧ Mapped img ok si (s.so si) i es ∧ Reserved ok i s.ba ba := by
  unfold mapImage
  apply total_bind
  rw [total_modify, State.update_eq_put]
  apply total_bind
  apply (allocMemRegion_spec arch img si _).mono
  rintro ok s₁ ⟨b, k, m, ba, rfl, hm, hres⟩
  simp only [State.put_so_self, State.put_ba, State.put_put, List.append_nil] at hres ⊢
  cases ok with
  | false =>
      refine total_pure.2 ⟨_, ba, [], rfl, ⟨rfl, rfl, rfl, ?_, ?_, ?_, ?_, ?_⟩, hres⟩
      all_goals simp
  | true =>
      rw [if_pos rfl]
      apply total_bind
      apply total_loadSegments
      · intro _
        rw [if_pos rfl, total_pure]
        simp only [State.put_so_self, State.put_ba, State.put_put, List.append_nil]
        exact ⟨_, ba, [], rfl, ⟨rfl, rfl, rfl, by simp, fun _ => rfl, fun _ => rfl, hm, fun _ => rfl⟩, hres⟩
      · intro _
        rw [if_neg Bool.false_ne_true]
        apply total_bind
        apply total_releaseBlock
        apply total_bind
        rw [total_modify, total_pure, State.update_eq_put]
        simp only [State.put_so_self, State.put_ba, State.put_put, List.append_nil, List.nil_append]
        refine ⟨_, _, _, rfl, ⟨rfl, rfl, rfl, by simp, by simp, by simp, by simp, by simp⟩, fun l t h => ⟨by simp, fun _ => ?_⟩⟩
        obtain ⟨t', h', ht'⟩ := (hres l t h).1 rfl
        cases k with
        | none =>
            obtain rfl : t' = t := ht'
            exact h'
        | some k =>
            obtain rfl : t'.release k 0 = t := ht'
            simpa using h'.free List.mem_cons_self

/-! ### Growing -/

/-- The references of the entries `l` lead to usable entries, and no chain of them is infinite. -/
structure Tidy (s : State) (l : List Ptr) : Prop where
  usable : ∀ y ∈ l, ∀ x ∈ taken s y, Usable s x
  grounded : ∀ y ∈ l, Grounded (taken s) y

/-- The `refcount` of an entry of `solist`; a new entry starts from 0. -/
def before (s : State) (x : Ptr) : BitVec 32 := if x ∈ s.solist then (s.so x).refcount else 0

/-- From `s` to `s'` the entries `new` have been added, whose references have names with `P`. -/
structure Grown (P : CStr → Prop) (s s' : State) (new : List Ptr) : Prop where
  wf : Wf s'
  solist : s'.solist = s.solist ++ new
  same : ∀ x ∈ s.solist, Same (s.so x) (s'.so x)
  counts : ∀ x ∈ s'.solist, (s'.so x).refcount =
    before s x + BitVec.ofNat 32 ((held (taken s') new).count x)
  usable : ∀ y ∈ new, ∀ x ∈ taken s' y, Usable s' x
  named : ∀ y ∈ new, ∀ x ∈ taken s' y, P (s'.so x).name
  log : Logs (· ∉ s.solist) s s'
  tidy : Tidy s s.solist → Tidy s' s'.solist
  blocks : ∀ t, Blocks s t → ∃ t', Blocks s' t' ∧ (new = [] → t' = t)

namespace Grown

variable {P : CStr → Prop} {s s₁ s₂ : State} {new new' : List Ptr} {x y : Ptr}

theorem mem (h : Grown P s s₁ new) (hx : x ∈ s.solist) : x ∈ s₁.solist := by
  rw [h.solist]
  exact List.mem_append_left _ hx

theorem mem_new (h : Grown P s s₁ new) (hx : x ∈ new) : x ∈ s₁.solist := by
  rw [h.solist]
  exact List.mem_append_right _ hx

theorem not_mem_old (h : Grown P s s₁ new) (hx : x ∈ new) : x ∉ s.solist := by
  have hn := h.wf.nodup_solist
  rw [h.solist] at hn
  exact fun hs => (List.nodup_append.1 hn).2.2 x hs x hx rfl

theorem nodup_new (h : Grown P s s₁ new) : new.Nodup := by
  have hn := h.wf.nodup_solist
  rw [h.solist] at hn
  exact (List.nodup_append.1 hn).2.1

theorem taken_old (h : Grown P s s₁ new) (hy : y ∈ s.solist) : taken s₁ y = taken s y :=
  (h.same y hy).taken

theorem usable_old (h : Grown P s s₁ new) (hx : Usable s x) : Usable s₁ x :=
  hx.of_same (h.mem hx.mem) (h.same x hx.mem)

theorem lookup (h : Grown P s s₁ new) {n : CStr} (hx : lookup s n = some x) :
    Linker.lookup s₁ n = some x :=
  lookup_append h.solist (fun z hz => (h.same z hz).name) hx

theorem settled (h : Grown P s s₁ new) (hy : y ∈ s.solist) (hs : Settled s y) : Settled s₁ y :=
  hs.of_same (h.same y hy) fun _ _ _ hl => h.lookup hl

theorem trans (h₁ : Grown P s s₁ new) (h₂ : Grown P s₁ s₂ new') : Grown P s s₂ (new ++ new') := by
  have htk : ∀ y ∈ new, taken s₂ y = taken s₁ y := fun y hy => h₂.taken_old (h₁.mem_new hy)
  refine ⟨h₂.wf, ?_, ?_, ?_, ?_, ?_, ?_, h₂.tidy ∘ h₁.tidy, ?_⟩
  · rw [h₂.solist, h₁.solist, List.append_assoc]
  · intro x hx
    exact (h₁.same x hx).trans (h₂.same x (h₁.mem hx))
  · intro x hx
    rw [h₂.counts x hx, held_append, held_congr htk, List.count_append, BitVec.ofNat_add,
      ← BitVec.add_assoc]
    congr 1
    by_cases hx₁ : x ∈ s₁.solist
    · rw [before, if_pos hx₁, h₁.counts x hx₁]
    · have hx₀ : x ∉ s.solist := fun hx₀ => hx₁ (h₁.mem hx₀)
      have hh : x ∉ held (taken s₁) new := by
        intro hh
        obtain ⟨y, hy, hxy⟩ := mem_held.1 hh
        exact hx₁ (h₁.usable y hy x hxy).mem
      simp [before, hx₁, hx₀, List.count_eq_zero.2 hh]
  · intro y hy x hx
    rcases List.mem_append.1 hy with hy | hy
    · rw [htk y hy] at hx
      exact h₂.usable_old (h₁.usable y hy x hx)
    · exact h₂.usable y hy x hx
  · intro y hy x hx
    rcases List.mem_append.1 hy with hy | hy
    · rw [htk y hy] at hx
      rw [(h₂.same x (h₁.usable y hy x hx).mem).name]
      exact h₁.named y hy x hx
    · exact h₂.named y hy x hx
  · exact h₁.log.trans (h₂.log.mono fun x hx₁ hx => hx₁ (h₁.mem hx))
  · intro t ht
    obtain ⟨t₁, ht₁, he₁⟩ := h₁.blocks t ht
    obtain ⟨t₂, ht₂, he₂⟩ := h₂.blocks t₁ ht₁
    refine ⟨t₂, ht₂, fun he => ?_⟩
    rw [List.append_eq_nil_iff] at he
    rw [he₂ he.2, he₁ he.1]

/-- Entries have been added that have no references yet. -/
theorem fresh (wf : Wf s₁) (hl : s₁.solist = s.solist ++ new)
    (hso : ∀ x ∈ s.solist, s₁.so x = s.so x) (hnew : ∀ y ∈ new, y ∉ s.solist)
    (htn : ∀ y ∈ new, taken s₁ y = []) (hrn : ∀ y ∈ new, (s₁.so y).refcount = 0)
    (hlog : Logs (· ∉ s.solist) s s₁)
    (hb : ∀ t, Blocks s t → ∃ t', Blocks s₁ t' ∧ (new = [] → t' = t)) : Grown P s s₁ new := by
  have htk : ∀ y ∈ s.solist, taken s₁ y = taken s y := fun y hy => congrArg Soinfo.taken (hso y hy)
  have hh : held (taken s₁) new = [] := by
    rw [held, List.flatMap_eq_nil_iff]
    exact htn
  have hus : ∀ {x}, Usable s x → Usable s₁ x := by
    intro x hu
    apply hu.of_same (by rw [hl]; exact List.mem_append_left _ hu.mem)
    rw [hso x hu.mem]
    exact Same.refl _
  refine ⟨wf, hl, ?_, ?_, ?_, ?_, hlog, fun h => ⟨?_, ?_⟩, hb⟩
  · intro x hx
    rw [hso x hx]
    exact Same.refl _
  · intro x hx
    rw [hh]
    rw [hl] at hx
    rcases List.mem_append.1 hx with hx | hx
    · simp [before, hx, hso x hx]
    · simp [before, hnew x hx, hrn x hx]
  · intro y hy x hx
    rw [htn y hy] at hx
    cases hx
  · intro y hy x hx
    rw [htn y hy] at hx
    cases hx
  · intro y hy x hx
    rw [hl] at hy
    rcases List.mem_append.1 hy with hy | hy
    · rw [htk y hy] at hx
      exact hus (h.usable y hy x hx)
    · rw [htn y hy] at hx
      cases hx
  · intro y hy
    rw [hl] at hy
    rcases List.mem_append.1 hy with hy | hy
    · exact (h.grounded y hy).congr (N := (· ∈ s.solist))
        (fun z hz x hx => (h.usable z hz x hx).mem) htk hy
    · refine Grounded.intro fun x hx => ?_
      rw [htn y hy] at hx
      cases hx

theorem refl (h : Wf s) : Grown P s s [] :=
  .fresh h (List.append_nil _).symm (fun _ _ => rfl) (by simp) (by simp) (by simp) (.of_eq rfl)
    fun t ht => ⟨t, ht, fun _ => rfl⟩

end Grown

theorem live_append {s s₁ : State} {new : List Ptr} (hl : s₁.solist = s.solist ++ new)
    (hso : ∀ x ∈ s.solist, (s₁.so x).baIndex = (s.so x).baIndex) :
    live s₁ = live s ++ new.filterMap fun x => (s₁.so x).baIndex := by
  rw [live, hl, List.filterMap_append, List.filterMap_congr hso]
  rfl

/-! ### `load_library` -/

/-- No `DT_NEEDED` entry of a file names something without `P`. -/
def World.Names (W : World) (P : CStr → Prop) : Prop :=
  ∀ tick name img d n, W.openLibrary tick name = some img → img.dynamic = some d → n ∈ d.needed →
    P (basename n)

/-- The section that `si->dynamic` points to names only libraries with `P`. -/
def DynPtr.Names (P : CStr → Prop) (p : DynPtr) : Prop :=
  p ≠ .null ∧ ∀ d, p = .present d → ∀ n ∈ d.needed, P (basename n)

theorem DynPtr.names_elim {P : CStr → Prop} {o : Option Dynamic}
    (h : ∀ d, o = some d → ∀ n ∈ d.needed, P (basename n)) :
    (o.elim .missing .present : DynPtr).Names P := by
  cases o with
  | none => exact ⟨by simp, by simp⟩
  | some d =>
      refine ⟨by simp, fun d' hd' => ?_⟩
      obtain rfl : d = d' := DynPtr.present.inj hd'
      exact h d rfl

/-- The entry is of a file that `open_library` has found under its name. -/
def FromFile (W : World) (i : Soinfo) : Prop :=
  ∃ tick name img, W.openLibrary tick name = some img ∧ i.name = basename name ∧
    i.dynamic = img.dynamic.elim .missing .present

theorem FromFile.congr {W : World} {i j : Soinfo} (h : FromFile W i) (hn : j.name = i.name)
    (hd : j.dynamic = i.dynamic) : FromFile W j := by
  obtain ⟨tick, name, img, ho, hn', hd'⟩ := h
  exact ⟨tick, name, img, ho, hn.trans hn', hd.trans hd'⟩

/-- An entry that `load_library` has made, before `init_library`. -/
structure Raw (W : World) (P : CStr → Prop) (name : CStr) (i : Soinfo) : Prop where
  name : i.name = name
  flags : i.flags = {}
  mapped : i.mapped = true
  taken : i.taken = []
  dynamic : i.dynamic.Names P
  file : FromFile W i

section Install

variable {P : CStr → Prop} {s : State} {A : Ptr} {name : CStr} {fl : List Ptr} {n : ℕ} {img : Image}
  {i : Soinfo} {ba : Ba.State} {es : List Event}

theorem put_install_so (hA : A ∉ s.solist) {x : Ptr} (hx : x ∈ s.solist) :
    ((s.install A name fl n).put A i ba es).so x = s.so x := by
  have hne : x ≠ A := fun he => hA (he ▸ hx)
  rw [State.put_so_of_ne _ _ _ _ _ hne]
  simp [State.install, hne]

/-- The image of the new entry has been mapped. -/
theorem Grown.mapped (hA : A ∉ s.solist) (hwf : Wf (s.install A name fl n))
    (hm : Mapped img true A { name := name } i es) (hres : Reserved true i s.ba ba) :
    Grown P s ((s.install A name fl n).put A i ba es) [A] := by
  have hso : ∀ x ∈ s.solist, ((s.install A name fl n).put A i ba es).so x = s.so x :=
    fun x hx => put_install_so hA hx
  refine .fresh (hwf.congr rfl rfl rfl) rfl hso ?_ ?_ ?_ ?_ fun t ht => ?_
  · intro y hy
    rwa [List.mem_singleton.1 hy]
  · intro y hy
    rw [List.mem_singleton.1 hy, Linker.taken, State.put_so_self]
    exact hm.taken
  · intro y hy
    rw [List.mem_singleton.1 hy, State.put_so_self]
    exact hm.refcount
  · refine ⟨es, rfl, fun e he => ?_⟩
    rw [hm.events e he]
    exact ⟨hA, trivial⟩
  · obtain ⟨t', ht', -⟩ := (hres _ t ht).1 rfl
    refine ⟨t', ?_, by simp⟩
    rw [Blocks, live_append (s := s) rfl fun x hx => congrArg Soinfo.baIndex (hso x hx)]
    refine ht'.perm (List.perm_append_comm.trans ?_)
    cases hk : i.baIndex <;> simp [hk]

/-- The image could not be mapped, and `free_info` has taken the new entry out again. -/
theorem Grown.unlinked (hA : A ∉ s.solist) (hwf : Wf (s.install A name fl n))
    (hm : Mapped img false A { name := name } i es) (hres : Reserved false i s.ba ba) (prev : Ptr)
    (hne : A ≠ .libdl) :
    Grown P s (((s.install A name fl n).put A i ba es).unlink A prev) [] := by
  have hwf' : Wf ((s.install A name fl n).put A i ba es) := hwf.congr rfl rfl rfl
  have hmem : A ∈ ((s.install A name fl n).put A i ba es).solist :=
    List.mem_append_right _ List.mem_cons_self
  have hsol : (((s.install A name fl n).put A i ba es).unlink A prev).solist = s.solist ++ [] := by
    show (s.solist ++ [A]).erase A = s.solist ++ []
    rw [List.erase_append_right _ hA]
    simp
  have hso : ∀ x ∈ s.solist, ((s.install A name fl n).put A i ba es).so x = s.so x :=
    fun x hx => put_install_so hA hx
  refine .fresh (hwf'.unlink hmem hne prev) hsol hso (by simp) (by simp) (by simp) ?_ fun t ht =>
    ⟨t, ?_, fun _ => rfl⟩
  · refine ⟨es ++ [.freeInfo A (some prev)], ?_, fun e he => ?_⟩
    · simp [State.unlink, State.install]
    · rcases List.mem_append.1 he with he | he
      · rw [hm.events e he]
        exact ⟨hA, trivial⟩
      · rw [List.mem_singleton.1 he]
        exact ⟨hA, rfl⟩
  · have hl := live_append (s := s) hsol fun x hx => congrArg Soinfo.baIndex (hso x hx)
    rw [Blocks, hl, List.filterMap_nil, List.append_nil]
    exact (hres _ t ht).2 rfl

end Install

theorem loadLibrary_spec {W : World} {P : CStr → Prop} (hW : W.Names P) {s : State} (h : Wf s)
    (name : CStr) :
    Total (loadLibrary W name) s fun r s' => (r = none ∧ Grown P s s' []) ∨
      ∃ A, r = some A ∧ Grown P s s' [A] ∧ Raw W P (basename name) (s'.so A) ∧ s'.log = s.log := by
  have hwf₀ : Wf { s with tick := s.tick + 1 } := h.congr rfl rfl rfl
  have hnone : Grown P s { s with tick := s.tick + 1 } [] :=
    .fresh hwf₀ (List.append_nil _).symm (fun _ _ => rfl) (by simp) (by simp)
      (by simp) (.of_eq rfl) fun t ht => ⟨t, ht, fun _ => rfl⟩
  unfold loadLibrary
  apply total_bind
  rw [total_get]
  apply total_bind
  rw [total_modify]
  cases hopen : W.openLibrary s.tick name with
  | none => exact total_pure.2 (Or.inl ⟨rfl, hnone⟩)
  | some img =>
      dsimp only
      by_cases hr : img.readable = true
      · rw [if_pos hr]
        rcases img.extents with - | ⟨reqBase, extSz⟩
        · exact total_pure.2 (Or.inl ⟨rfl, hnone⟩)
        apply total_bind
        apply (allocInfo_spec hwf₀ (basename name)).mono
        rintro r s₁ (⟨rfl, rfl⟩ | ⟨A, fl, n, rfl, hA, rfl, hwf⟩)
        · exact total_pure.2 (Or.inl ⟨rfl, hnone⟩)
        apply total_bind
        apply (mapImage_spec W.arch img reqBase extSz A _).mono
        rintro ok s₂ ⟨i, ba, es, rfl, hm, hres⟩
        have hi : (({ s with tick := s.tick + 1 } : State).install A (basename name) fl n).so A =
            { name := basename name } := by simp [State.install]
        rw [hi] at hm
        cases ok with
        | true =>
            refine total_pure.2 (Or.inr ⟨A, rfl, hnone.trans (.mapped hA hwf hm hres), ?_, ?_⟩)
            swap
            · rw [State.put_log, hm.quiet rfl, List.append_nil]
              rfl
            rw [State.put_so_self]
            refine ⟨hm.name, hm.flags rfl, hm.mapped rfl, hm.taken, ?_,
              s.tick, name, img, hopen, hm.name, hm.dynamic rfl⟩
            rw [hm.dynamic rfl]
            exact DynPtr.names_elim fun d hd n hn => hW s.tick name img d n hopen hd hn
        | false =>
            have hne : A ≠ .libdl := fun he => hA (he ▸ hwf₀.libdl_mem)
            obtain ⟨prev, hp⟩ := freeInfo_returns (s := (State.install _ A (basename name) fl n).put
              A i ba es) (hwf.congr rfl rfl rfl) (List.mem_append_right _ List.mem_cons_self) hne
            rw [if_neg Bool.false_ne_true]
            exact total_bind (hp.total (total_pure.2
              (Or.inl ⟨rfl, hnone.trans (.unlinked hA hwf hm hres prev hne)⟩)))
      · rw [if_neg hr]
        exact total_pure.2 (Or.inl ⟨rfl, hnone⟩)

end Bionic.Linker
