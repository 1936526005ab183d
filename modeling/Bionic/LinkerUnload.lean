import Bionic.LinkerLink

/-! # What `unload_library` does

`Inv s E D` is the invariant of the linker between its calls and while an `unload_library` is under
way: `E` are the references held by handles and by pending calls, `D` the entries that are being
unloaded.  Every `refcount` is the number of references modulo `2 ^ 32`, where the entries in `D` no
longer count: what they had taken has become pending.

`unloadLibrary_unloads` shows, by induction on the fuel, that `unload_library(x)` gives up one
reference to `x` and removes the entries to which nothing refers any more.  A set `K` of entries that
supports itself stays (`RefGraph.Supported`); `libdl_info` has to be in such a set, because the
unloading of an entry reads its dynamic section. -/

namespace Bionic.Linker

open StateExcept RefGraph

/-! ### The invariant -/

/-- The entries of `solist` that are not being unloaded. -/
def nodes (s : State) (D : List Ptr) : List Ptr := s.solist.filter (· ∉ D)

theorem mem_nodes {s : State} {D : List Ptr} {x : Ptr} : x ∈ nodes s D ↔ x ∈ s.solist ∧ x ∉ D := by
  simp [nodes]

theorem nodes_nil (s : State) : nodes s [] = s.solist := by simp [nodes]

theorem nodes_cons {s : State} (h : Wf s) (x : Ptr) (D : List Ptr) :
    nodes s (x :: D) = (nodes s D).erase x := by
  rw [nodes, nodes, (h.nodup_solist.filter _).erase_eq_filter, List.filter_filter]
  refine List.filter_congr fun y _ => ?_
  by_cases hy : y = x <;> simp [hy]

/-- The number of references to `z`. -/
def total (s : State) (D E : List Ptr) (z : Ptr) : ℕ := refs (taken s) (nodes s D) E z

structure Inv (s : State) (E D : List Ptr) : Prop where
  wf : Wf s
  tidy : Tidy s (nodes s D)
  tokens : ∀ x ∈ E, Usable s x
  counts : ∀ x ∈ s.solist, (s.so x).refcount = BitVec.ofNat 32 (total s D E x)
  settled : ∀ y ∈ nodes s D, y ≠ .libdl → Settled s y
  libdl : Same libdlInfo (s.so .libdl)

/-! ### The calls of an `unload_library` -/

/-- The calls `es` are about the entries that are no longer in `solist`; the destructors of each of
these ran once, before any call about an entry that it referred to. -/
structure Swept (s s' : State) (es : List Event) : Prop where
  about : ∀ e ∈ es, e.si ∈ s.solist ∧ e.si ∉ s'.solist ∧ e.HasPrev
  once : ∀ x ∈ s.solist, x ∉ s'.solist → es.count (.destructors x) = 1
  first : ∀ x ∈ s.solist, x ∉ s'.solist → ∃ a b, es = a ++ destructorEvents x (s.so x) ++ b ∧
    ∀ e ∈ a, e.si ∉ taken s x

/-- Entries have left `solist`; the others differ in their `refcount` only. -/
structure Shrunk (s s' : State) : Prop where
  sub : s'.solist.Sublist s.solist
  same : ∀ z ∈ s'.solist, Same (s.so z) (s'.so z)
  taken : taken s' = taken s
  log : ∃ es, s'.log = s.log ++ es ∧ Swept s s' es
  blocks : ∀ t, Blocks s t → ∃ t', Blocks s' t'

theorem destructorEvents_congr {i j : Soinfo} (x : Ptr) (h : j.dynamic = i.dynamic) :
    destructorEvents x j = destructorEvents x i := by
  rw [destructorEvents, destructorEvents, h]

theorem destructorEvents_about (x : Ptr) (i : Soinfo) :
    ∀ e ∈ destructorEvents x i, e.si = x ∧ e.HasPrev := by
  intro e he
  unfold destructorEvents at he
  split at he
  · simp only [List.mem_cons, List.mem_append] at he
    rcases he with rfl | he | he
    · exact ⟨rfl, trivial⟩
    · exact callArray_about _ _ _ e he
    · exact callFunc_about _ _ _ e he
  · rw [List.mem_singleton.1 he]
    exact ⟨rfl, trivial⟩

theorem destructorEvents_count (x : Ptr) (i : Soinfo) :
    (destructorEvents x i).count (.destructors x) = 1 := by
  have hne : ∀ si stage f, Event.destructors x ≠ .call si stage f := by
    intro si stage f h
    cases h
  unfold destructorEvents
  split
  · rw [List.count_cons_self, List.count_append, count_callArray hne, count_callFunc hne]
  · exact List.count_singleton_self

theorem Swept.nil {s s' : State} (h : s'.solist = s.solist) : Swept s s' [] := by
  refine ⟨by simp, fun x hx hx' => ?_, fun x hx hx' => ?_⟩
  all_goals rw [h] at hx'; exact absurd hx hx'

theorem Swept.trans {s s₁ s₂ : State} {es₁ es₂ : List Event} (h₁ : Swept s s₁ es₁)
    (h₂ : Swept s₁ s₂ es₂) (hs₁ : Shrunk s s₁) (hs₂ : Shrunk s₁ s₂)
    (hcl : ∀ x ∈ s₁.solist, x ∉ s₂.solist → ∀ z ∈ taken s₁ x, z ∈ s₁.solist) :
    Swept s s₂ (es₁ ++ es₂) := by
  have hzero₁ : ∀ x ∈ s₁.solist, es₁.count (.destructors x) = 0 := by
    intro x hx
    exact List.count_eq_zero.2 fun he => (h₁.about _ he).2.1 hx
  have hzero₂ : ∀ x, x ∉ s₁.solist → es₂.count (.destructors x) = 0 := by
    intro x hx
    exact List.count_eq_zero.2 fun he => hx (h₂.about _ he).1
  refine ⟨?_, ?_, ?_⟩
  · intro e he
    rcases List.mem_append.1 he with he | he
    · obtain ⟨ha, hb, hc⟩ := h₁.about e he
      exact ⟨ha, fun hm => hb (hs₂.sub.subset hm), hc⟩
    · obtain ⟨ha, hb, hc⟩ := h₂.about e he
      exact ⟨hs₁.sub.subset ha, hb, hc⟩
  · intro x hx hx₂
    rw [List.count_append]
    by_cases hx₁ : x ∈ s₁.solist
    · rw [hzero₁ x hx₁, h₂.once x hx₁ hx₂]
    · rw [hzero₂ x hx₁, h₁.once x hx hx₁]
  · intro x hx hx₂
    by_cases hx₁ : x ∈ s₁.solist
    · obtain ⟨a, b, rfl, ha⟩ := h₂.first x hx₁ hx₂
      refine ⟨es₁ ++ a, b, ?_, fun e he => ?_⟩
      · rw [destructorEvents_congr x (hs₁.same x hx₁).dynamic]
        simp only [List.append_assoc]
      · rw [← hs₁.taken]
        rcases List.mem_append.1 he with he | he
        · exact fun hm => (h₁.about e he).2.1 (hcl x hx₁ hx₂ _ hm)
        · exact ha e he
    · obtain ⟨a, b, rfl, ha⟩ := h₁.first x hx hx₁
      exact ⟨a, b ++ es₂, by simp only [List.append_assoc], ha⟩

theorem Shrunk.trans {s s₁ s₂ : State} (h₁ : Shrunk s s₁) (h₂ : Shrunk s₁ s₂)
    (hcl : ∀ x ∈ s₁.solist, x ∉ s₂.solist → ∀ z ∈ Linker.taken s₁ x, z ∈ s₁.solist) : Shrunk s s₂ := by
  refine ⟨h₂.sub.trans h₁.sub, fun z hz => (h₁.same z (h₂.sub.subset hz)).trans (h₂.same z hz),
    h₂.taken.trans h₁.taken, ?_, fun t ht => ?_⟩
  · obtain ⟨es₁, he₁, hw₁⟩ := h₁.log
    obtain ⟨es₂, he₂, hw₂⟩ := h₂.log
    exact ⟨es₁ ++ es₂, by rw [he₂, he₁, List.append_assoc], hw₁.trans hw₂ h₁ h₂ hcl⟩
  · obtain ⟨t₁, ht₁⟩ := h₁.blocks t ht
    exact h₂.blocks t₁ ht₁

/-! ### Giving up references -/

/-- From `s` to `s'` the references `E` have gone down to `E'`. -/
structure Released (B : List Ptr) (K : Ptr → Prop) (D E E' : List Ptr) (s s' : State) : Prop where
  inv : Inv s' E' D
  shrunk : Shrunk s s'
  le : ∀ z, total s' D E' z ≤ total s D E z
  zero : ∀ z ∈ s'.solist, total s' D E' z = 0 → total s D E z = 0
  supported : Supported (taken s') (nodes s' D) E' B K

theorem Released.trans {B D E E₁ E₂ : List Ptr} {K : Ptr → Prop} {s s₁ s₂ : State}
    (h₁ : Released B K D E E₁ s s₁) (h₂ : Released B K D E₁ E₂ s₁ s₂) (hD : ∀ z ∈ D, z ∈ E₂) :
    Released B K D E E₂ s s₂ := by
  refine ⟨h₂.inv, h₁.shrunk.trans h₂.shrunk ?_, fun z => (h₂.le z).trans (h₁.le z), ?_, h₂.supported⟩
  · intro x hx hx₂ z hz
    have hxD : x ∉ D := fun hxD => hx₂ (h₂.inv.tokens x (hD x hxD)).mem
    exact (h₁.inv.tidy.usable x (mem_nodes.2 ⟨hx, hxD⟩) z hz).mem
  · exact fun z hz h0 => h₁.zero z (h₂.shrunk.sub.subset hz) (h₂.zero z hz h0)

theorem total_cons (s : State) (D E : List Ptr) (x z : Ptr) :
    total s D (x :: E) z = total s D E z + if x = z then 1 else 0 := refs_cons _ _ _ _

theorem Inv.mem {s : State} {E D : List Ptr} {x : Ptr} (h : Inv s E D) (hx : x ∈ E) :
    x ∈ s.solist := (h.tokens x hx).mem

/-- Entries that nothing refers to may leave `solist`. -/
theorem Inv.shrink {s s' : State} {E E' D D' : List Ptr} (h : Inv s E D) (hw : Wf s')
    (hsub : s'.solist.Sublist s.solist) (hsame : ∀ z ∈ s'.solist, Same (s.so z) (s'.so z))
    (htk : taken s' = taken s) (hn : nodes s' D' = nodes s D)
    (hcl : ∀ y ∈ nodes s D, ∀ z ∈ taken s y, z ∈ s'.solist)
    (hE : ∀ x ∈ E', Usable s x ∧ x ∈ s'.solist)
    (hc : ∀ x ∈ s'.solist, (s'.so x).refcount = BitVec.ofNat 32 (total s' D' E' x)) :
    Inv s' E' D' := by
  have hus : ∀ {x}, Usable s x → x ∈ s'.solist → Usable s' x :=
    fun hu hx => hu.of_same hx (hsame _ hx)
  have hmem : ∀ y ∈ nodes s D, y ∈ s'.solist := by
    intro y hy
    rw [← hn] at hy
    exact (mem_nodes.1 hy).1
  refine ⟨hw, ⟨?_, ?_⟩, fun x hx => hus (hE x hx).1 (hE x hx).2, hc, ?_, ?_⟩
  · rw [hn, htk]
    exact fun y hy z hz => hus (h.tidy.usable y hy z hz) (hcl y hy z hz)
  · rw [hn, htk]
    exact h.tidy.grounded
  · rw [hn]
    intro y hy hne
    refine (h.settled y hy hne).of_same (hsame y (hmem y hy)) fun n x hx hl => ?_
    exact lookup_sublist hsub h.wf.nodup_solist (fun z hz => (hsame z hz).name) (hcl y hy x hx) hl
  · exact h.libdl.trans (hsame _ hw.libdl_mem)

/-- `unload_library(x)` with other references left. -/
theorem Inv.drop {s : State} {x : Ptr} {E D B : List Ptr} {K : Ptr → Prop} (h : Inv s (x :: E) D)
    (hr : (s.so x).refcount ≠ 1) (hs : Supported (taken s) (nodes s D) (x :: E) B K) :
    Released B K D (x :: E) E s (s.update x fun i => { i with refcount := i.refcount - 1 }) := by
  have hsame : ∀ z, Same (s.so z) ((s.update x fun i => { i with refcount := i.refcount - 1 }).so z) :=
    Same.update (fun i => Same.refcount i _) s x
  have htk : taken (s.update x fun i => { i with refcount := i.refcount - 1 }) = taken s :=
    funext fun z => (hsame z).taken
  have hx := h.counts x (h.mem List.mem_cons_self)
  rw [total_cons, if_pos rfl, BitVec.ofNat_add] at hx
  have hle : ∀ z, total (s.update x fun i => { i with refcount := i.refcount - 1 }) D E z ≤
      total s D (x :: E) z := by
    intro z
    rw [total_cons, total, htk]
    exact Nat.le_add_right _ _
  have hinv : Inv (s.update x fun i => { i with refcount := i.refcount - 1 }) E D := by
    refine h.shrink (h.wf.congr rfl rfl rfl) (List.Sublist.refl _) (fun z _ => hsame z) htk rfl
      (fun y hy z hz => (h.tidy.usable y hy z hz).mem)
      (fun z hz => ⟨h.tokens z (List.mem_cons_of_mem _ hz), h.mem (List.mem_cons_of_mem _ hz)⟩)
      fun z hz => ?_
    rw [total, htk, State.update_so]
    split
    · next he =>
      subst he
      rw [hx]
      exact BitVec.add_sub_cancel _ _
    · next hne =>
      rw [h.counts z hz, total_cons, if_neg (Ne.symm hne)]
      rfl
  refine ⟨hinv, ⟨List.Sublist.refl _, fun z _ => hsame z, htk, ⟨[], ?_, .nil rfl⟩, fun t ht => ⟨t, ?_⟩⟩,
    hle, fun z hz h0 => ?_, ?_⟩
  · exact (List.append_nil _).symm
  · have hl : live (s.update x fun i => { i with refcount := i.refcount - 1 }) = live s :=
      List.filterMap_congr fun z _ => (hsame z).baIndex
    rw [Blocks, hl]
    exact ht
  · rw [total, htk] at h0
    rw [total_cons]
    have h0' : total s D E z = 0 := h0
    by_cases hz : x = z
    · subst hz
      rw [h0'] at hx
      exact absurd hx hr
    · rw [h0', if_neg hz]
  · refine hs.shrink (fun z hz => (hs z hz).1) (fun z _ => hle z) fun z _ => ?_
    rw [htk]

theorem Released.refl {s : State} {E D B : List Ptr} {K : Ptr → Prop} (h : Inv s E D)
    (hs : Supported (taken s) (nodes s D) E B K) : Released B K D E E s s :=
  ⟨h, ⟨.refl _, fun _ _ => Same.refl _, rfl, ⟨[], (List.append_nil _).symm, .nil rfl⟩,
    fun t ht => ⟨t, ht⟩⟩, fun _ => le_refl _, fun _ _ h0 => h0, hs⟩

/-! ### The `DT_NEEDED` loop -/

section Loop

variable {B : List Ptr} {K : Ptr → Prop}

/-- `unload` does what `unload_library` should, where fewer than `m` entries are not yet being
unloaded. -/
def Unloads (B : List Ptr) (K : Ptr → Prop) (m : ℕ) (unload : Ptr → LinkerM (BitVec 32)) : Prop :=
  ∀ s x E D, Inv s (x :: E) D → (∀ z ∈ D, z ∈ E) → (∀ z ∈ B, z ∈ E) →
    (∀ z, total s D (x :: E) z < 2 ^ 32) → Supported (taken s) (nodes s D) (x :: E) B K →
    (nodes s D).length < m → Total (unload x) s fun _ s' => Released B K D (x :: E) E s s'

/-- A name that leads to a usable entry is found without loading anything. -/
def Hits (find : CStr → LinkerM (Option Ptr)) : Prop :=
  ∀ s n x, lookup s n = some x → Usable s x → Returns (find n) s (some x) s

theorem findLibrary_hits (W : World) (fuel : ℕ) : Hits (findLibrary W (fuel + 1)) := by
  intro s n x hl hu
  have he : ¬ (s.so x).flags.error = true := by simp [hu.error]
  unfold findLibrary
  apply returns_bind (show Returns get s s s from rfl)
  rw [hl]
  dsimp only
  rw [if_neg he, if_pos hu.linked]
  rfl

theorem Leads.shrink {s s' : State} {names : List CStr} {l : List Ptr} (h : Leads s names l)
    (hw : Wf s) (hs : Shrunk s s') (hl : ∀ x ∈ l, x ∈ s'.solist) : Leads s' names l := by
  induction h with
  | nil => exact .nil
  | cons hx _ ih =>
      refine .cons (lookup_sublist hs.sub hw.nodup_solist (fun z hz => (hs.same z hz).name)
        (hl _ List.mem_cons_self) hx) (ih fun x hx => hl x (List.mem_cons_of_mem _ hx))

theorem nodes_length_le {s s' : State} (h : Shrunk s s') (D : List Ptr) :
    (nodes s' D).length ≤ (nodes s D).length := (h.sub.filter _).length_le

theorem unloadNeeded_spec {find : CStr → LinkerM (Option Ptr)} {unload : Ptr → LinkerM (BitVec 32)}
    {m : ℕ} (hf : Hits find) (hu : Unloads B K m unload) {E D : List Ptr} (hD : ∀ z ∈ D, z ∈ E)
    (hB : ∀ z ∈ B, z ∈ E) (names : List CStr) : ∀ {l : List Ptr} {s : State}, Leads s names l →
    Inv s (l ++ E) D → (∀ z, total s D (l ++ E) z < 2 ^ 32) →
    Supported (taken s) (nodes s D) (l ++ E) B K → (nodes s D).length < m →
    Total (unloadNeeded find unload names) s fun _ s' => Released B K D (l ++ E) E s s' := by
  induction names with
  | nil =>
      intro l s hl h _ hs _
      cases hl
      exact total_pure.2 (.refl h hs)
  | cons n names ih =>
      intro l s hl h hlt hs hm
      cases hl with
      | @cons _ x _ l hx hl =>
          unfold unloadNeeded
          have hux := h.tokens x List.mem_cons_self
          refine total_bind ((hf s n x hx hux).total ?_)
          apply total_bind
          refine (hu s x (l ++ E) D h (fun z hz => List.mem_append_right _ (hD z hz))
            (fun z hz => List.mem_append_right _ (hB z hz)) hlt hs hm).mono ?_
          intro _ s₁ h₁
          have hl₁ : Leads s₁ names l :=
            Leads.shrink hl h.wf h₁.shrunk fun z hz => h₁.inv.mem (List.mem_append_left _ hz)
          refine (ih hl₁ h₁.inv (fun z => (h₁.le z).trans_lt (hlt z)) h₁.supported ?_).mono ?_
          · exact (nodes_length_le h₁.shrunk D).trans_lt hm
          · exact fun _ s₂ h₂ => h₁.trans h₂ hD

end Loop

/-! ### Unloading an entry -/

theorem Inv.record {s : State} {E D : List Ptr} (h : Inv s E D) (es : List Event) :
    Inv (s.record es) E D :=
  h.shrink (h.wf.congr rfl rfl rfl) (.refl _) (fun _ _ => Same.refl _) rfl rfl
    (fun y hy z hz => (h.tidy.usable y hy z hz).mem) (fun z hz => ⟨h.tokens z hz, h.mem hz⟩) h.counts

/-- The last reference to `x` is the pending one. -/
structure Last (s : State) (x : Ptr) (E D : List Ptr) : Prop where
  node : x ∈ nodes s D
  token : x ∉ E
  others : ∀ y ∈ nodes s D, x ∉ taken s y

theorem Inv.last {s : State} {x : Ptr} {E D : List Ptr} (h : Inv s (x :: E) D)
    (hD : ∀ z ∈ D, z ∈ E) (h1 : total s D (x :: E) x = 1) : Last s x E D := by
  rw [total_cons, if_pos rfl] at h1
  obtain ⟨hE, hn⟩ := refs_eq_zero.1 (show refs (taken s) (nodes s D) E x = 0 by
    have h0 : total s D E x = 0 := by omega
    exact h0)
  exact ⟨mem_nodes.2 ⟨h.mem List.mem_cons_self, fun hxD => hE (hD x hxD)⟩, hE, hn⟩

theorem total_retire {s : State} (hw : Wf s) {x : Ptr} {E D : List Ptr} (hx : x ∈ nodes s D)
    (z : Ptr) : total s (x :: D) (taken s x ++ E) z = total s D E z := by
  rw [total, nodes_cons hw]
  exact refs_erase hx z

/-- `x` is being unloaded: the references that it has taken are pending now. -/
theorem Inv.retire {s : State} {x : Ptr} {E D : List Ptr} (h : Inv s (x :: E) D)
    (hx : x ∈ nodes s D) : Inv s (taken s x ++ x :: E) (x :: D) := by
  have hsub : ∀ y ∈ nodes s (x :: D), y ∈ nodes s D := by
    intro y hy
    rw [nodes_cons h.wf] at hy
    exact List.mem_of_mem_erase hy
  refine ⟨h.wf, ⟨fun y hy => h.tidy.usable y (hsub y hy), fun y hy => h.tidy.grounded y (hsub y hy)⟩,
    ?_, ?_, fun y hy => h.settled y (hsub y hy), h.libdl⟩
  · intro z hz
    rcases List.mem_append.1 hz with hz | hz
    · exact h.tidy.usable x hx z hz
    · exact h.tokens z hz
  · intro z hz
    rw [total_retire h.wf hx]
    exact h.counts z hz

theorem Last.supported {s : State} {x : Ptr} {E D B : List Ptr} {K : Ptr → Prop} (hw : Wf s)
    (hl : Last s x E D) (hs : Supported (taken s) (nodes s D) (x :: E) B K) (hK : ¬ K x) :
    Supported (taken s) (nodes s (x :: D)) (taken s x ++ x :: E) B K := by
  refine hs.shrink (fun z hz => ?_) (fun z _ => ?_) fun _ _ => rfl
  · have hne : z ≠ x := fun he => hK (he ▸ hz)
    have hm := mem_nodes.1 (hs z hz).1
    exact mem_nodes.2 ⟨hm.1, by simp [hne, hm.2]⟩
  · exact le_of_eq (total_retire hw hl.node z)

/-- The state after `discard(x)`, where `free_info` has found the predecessor `prev`. -/
def State.discarded (s : State) (x prev : Ptr) : State :=
  (((s.put x { s.so x with mapped := false } ((s.so x).baIndex.elim s.ba fun k => (Ba.baFree k s.ba).2)
    (.munmap x :: if (s.so x).flags.exe then [] else [.notifyUnload x])).unlink x prev).update x
      fun i => { i with refcount := 0 })

theorem discard_spec {s : State} (hw : Wf s) {x : Ptr} (hx : x ∈ s.solist) (hne : x ≠ .libdl) :
    Total (discard x) s fun _ s' => ∃ prev, s' = s.discarded x prev := by
  unfold discard notifyGdb
  apply total_bind
  apply total_munmap
  apply total_bind
  apply total_releaseBlock
  apply total_bind
  rw [total_modify]
  simp only [State.put_so_self, State.put_put, State.put_record, State.put_ba, List.append_nil]
  have hput : (if (s.so x).flags.exe = true then
      s.put x { s.so x with mapped := false } ((s.so x).baIndex.elim s.ba fun k => (Ba.baFree k s.ba).2)
        [.munmap x]
      else s.put x { s.so x with mapped := false }
        ((s.so x).baIndex.elim s.ba fun k => (Ba.baFree k s.ba).2) ([.munmap x] ++ [.notifyUnload x])) =
      s.put x { s.so x with mapped := false } ((s.so x).baIndex.elim s.ba fun k => (Ba.baFree k s.ba).2)
        (.munmap x :: if (s.so x).flags.exe then [] else [.notifyUnload x]) := by
    split <;> rfl
  rw [hput]
  obtain ⟨prev, hp⟩ := freeInfo_returns (s := s.put x _ _ _) (hw.congr rfl rfl rfl) hx hne
  refine total_bind (hp.total ?_)
  rw [total_modify]
  exact ⟨prev, rfl⟩

/-- The calls made by `discard(x)`. -/
def discardEvents (s : State) (x prev : Ptr) : List Event :=
  .munmap x :: ((if (s.so x).flags.exe then [] else [.notifyUnload x]) ++ [.freeInfo x (some prev)])

theorem discardEvents_about (s : State) (x prev : Ptr) :
    ∀ e ∈ discardEvents s x prev, e.si = x ∧ e.HasPrev ∧ e ≠ .destructors x := by
  intro e he
  unfold discardEvents at he
  split at he
  · simp only [List.nil_append, List.mem_cons, List.not_mem_nil, or_false] at he
    rcases he with rfl | rfl <;> simp [Event.si, Event.HasPrev]
  · simp only [List.cons_append, List.nil_append, List.mem_cons, List.not_mem_nil, or_false] at he
    rcases he with rfl | rfl | rfl <;> simp [Event.si, Event.HasPrev]

section Discarded

variable {s : State} {x prev : Ptr}

theorem discarded_solist : (s.discarded x prev).solist = s.solist.erase x := rfl

theorem discarded_log : (s.discarded x prev).log = s.log ++ discardEvents s x prev := by
  simp [State.discarded, State.unlink, discardEvents]

theorem discarded_so {z : Ptr} (hz : z ≠ x) : (s.discarded x prev).so z = s.so z := by
  rw [State.discarded, State.update_so_of_ne _ _ _ hz, State.unlink_so, State.put_so_of_ne _ _ _ _ _ hz]

theorem discarded_taken : taken (s.discarded x prev) = taken s := by
  funext z
  by_cases hz : z = x
  · subst hz
    simp [taken, State.discarded, State.unlink]
  · rw [taken, discarded_so hz]
    rfl

theorem discarded_nodes (hw : Wf s) {D : List Ptr} : nodes (s.discarded x prev) D = nodes s (x :: D) := by
  rw [nodes, discarded_solist, hw.nodup_solist.erase_eq_filter, List.filter_filter, nodes]
  refine List.filter_congr fun y _ => ?_
  by_cases hy : y = x <;> simp [hy]

theorem discarded_same (hw : Wf s) : ∀ z ∈ (s.discarded x prev).solist,
    Same (s.so z) ((s.discarded x prev).so z) := by
  intro z hz
  rw [discarded_so (hw.nodup_solist.mem_erase_iff.1 hz).1]
  exact Same.refl _

theorem discarded_blocks (hw : Wf s) (hx : x ∈ s.solist) {t : Buddy.BTree 8} (h : Blocks s t) :
    ∃ t', Blocks (s.discarded x prev) t' := by
  have hp : (live s).Perm ((s.so x).baIndex.toList ++ live (s.discarded x prev)) := by
    have h₁ : live (s.discarded x prev) = (s.solist.erase x).filterMap fun z => (s.so z).baIndex := by
      refine List.filterMap_congr fun z hz => congrArg Soinfo.baIndex (discarded_so ?_)
      exact (hw.nodup_solist.mem_erase_iff.1 hz).1
    rw [h₁, live]
    apply ((List.perm_cons_erase hx).filterMap _).trans
    cases hk : (s.so x).baIndex with
    | none => simp [hk]
    | some k => simp [hk]
  have hba : (s.discarded x prev).ba = (s.so x).baIndex.elim s.ba fun k => (Ba.baFree k s.ba).2 := rfl
  cases hk : (s.so x).baIndex with
  | none =>
      rw [hk] at hp hba
      exact ⟨t, by rw [Blocks, hba]; exact h.perm hp⟩
  | some k =>
      rw [hk] at hp hba
      refine ⟨t.release k 0, ?_⟩
      rw [Blocks, hba]
      simpa using (Owns.perm h hp).free List.mem_cons_self

theorem total_discarded (hw : Wf s) {E D : List Ptr} {z : Ptr} (hz : z ≠ x) :
    total (s.discarded x prev) D E z = total s (x :: D) (x :: E) z := by
  rw [total_cons, if_neg (Ne.symm hz), total, discarded_taken, discarded_nodes hw]
  rfl

theorem Wf.discarded (hw : Wf s) (hx : x ∈ s.solist) (hne : x ≠ .libdl) :
    Wf (s.discarded x prev) := by
  have hput : Wf (s.put x { s.so x with mapped := false }
      ((s.so x).baIndex.elim s.ba fun k => (Ba.baFree k s.ba).2)
      (.munmap x :: if (s.so x).flags.exe then [] else [.notifyUnload x])) := hw.congr rfl rfl rfl
  exact (hput.unlink hx hne prev).congr rfl rfl rfl

end Discarded

/-- The calls of `unload_library(x)`: the destructors of `x`, the calls for the entries it referred
to, and the removal of `x`. -/
theorem Swept.bury {s s₂ : State} {x prev : Ptr} {es : List Event} (hw₂ : Wf s₂) (hx : x ∈ s.solist)
    (hx₂ : x ∈ s₂.solist) (h : Swept (s.record (destructorEvents x (s.so x))) s₂ es)
    (hother : ∀ y ∈ s.solist, y ∉ s₂.solist → x ∉ taken s y) :
    Swept s (s₂.discarded x prev) (destructorEvents x (s.so x) ++ es ++ discardEvents s₂ x prev) := by
  have hx₃ : x ∉ (s₂.discarded x prev).solist := fun hm => (hw₂.nodup_solist.mem_erase_iff.1 hm).1 rfl
  have hes : Event.destructors x ∉ es := fun hm => (h.about _ hm).2.1 hx₂
  refine ⟨?_, ?_, ?_⟩
  · intro e he
    rw [List.append_assoc, List.mem_append, List.mem_append] at he
    rcases he with he | he | he
    · obtain ⟨rfl, hp⟩ := destructorEvents_about _ _ e he
      exact ⟨hx, hx₃, hp⟩
    · obtain ⟨h₁, h₂, h₃⟩ := h.about e he
      exact ⟨h₁, fun hm => h₂ (List.mem_of_mem_erase hm), h₃⟩
    · obtain ⟨rfl, hp, -⟩ := discardEvents_about _ _ _ e he
      exact ⟨hx, hx₃, hp⟩
  · intro y hy hy₃
    rw [List.count_append, List.count_append]
    have hdis : (discardEvents s₂ x prev).count (.destructors y) = 0 := by
      refine List.count_eq_zero.2 fun hm => ?_
      obtain ⟨hyx, -, hne⟩ := discardEvents_about _ _ _ _ hm
      exact hne (congrArg Event.destructors hyx)
    by_cases hyx : y = x
    · subst hyx
      rw [destructorEvents_count, List.count_eq_zero.2 hes, hdis]
    · have hy₂ : y ∉ s₂.solist := fun hm => hy₃ ((List.mem_erase_of_ne hyx).2 hm)
      have hd : (destructorEvents x (s.so x)).count (.destructors y) = 0 :=
        List.count_eq_zero.2 fun hm => hyx (destructorEvents_about _ _ _ hm).1
      rw [hd, hdis, h.once y hy hy₂]
  · intro y hy hy₃
    by_cases hyx : y = x
    · subst hyx
      exact ⟨[], es ++ discardEvents s₂ y prev, by simp, by simp⟩
    · have hy₂ : y ∉ s₂.solist := fun hm => hy₃ ((List.mem_erase_of_ne hyx).2 hm)
      obtain ⟨a, b, he, ha⟩ := h.first y hy hy₂
      refine ⟨destructorEvents x (s.so x) ++ a, b ++ discardEvents s₂ x prev, ?_, fun e hm => ?_⟩
      · rw [he]
        simp [List.append_assoc]
      · rcases List.mem_append.1 hm with hm | hm
        · rw [(destructorEvents_about _ _ e hm).1]
          exact hother y hy hy₂
        · exact ha e hm

theorem Released.bury {s s₂ : State} {x prev : Ptr} {E D B : List Ptr} {K : Ptr → Prop}
    (h : Inv s (x :: E) D) (hD : ∀ z ∈ D, z ∈ E) (h1 : total s D (x :: E) x = 1)
    (hne : x ≠ .libdl) (h₂ : Released B K (x :: D) (taken s x ++ x :: E) (x :: E)
      (s.record (destructorEvents x (s.so x))) s₂) :
    Released B K D (x :: E) E s (s₂.discarded x prev) := by
  have hlast := h.last hD h1
  have hw₂ := h₂.inv.wf
  have hx₂ : x ∈ s₂.solist := h₂.inv.mem List.mem_cons_self
  have htot : ∀ z, total (s.record (destructorEvents x (s.so x))) (x :: D) (taken s x ++ x :: E) z =
      total s D (x :: E) z := total_retire h.wf hlast.node
  have h0 : refs (taken s₂) (nodes s₂ (x :: D)) E x = 0 := by
    have hle := h₂.le x
    rw [htot, h1, total_cons, if_pos rfl] at hle
    have h0 : total s₂ (x :: D) E x = 0 := by omega
    exact h0
  obtain ⟨hxE, hxn⟩ := refs_eq_zero.1 h0
  have hne₃ : ∀ z ∈ (s₂.discarded x prev).solist, z ≠ x :=
    fun z hz => (hw₂.nodup_solist.mem_erase_iff.1 hz).1
  have hmem₃ : ∀ z ∈ s₂.solist, z ≠ x → z ∈ (s₂.discarded x prev).solist :=
    fun z hz hzx => (List.mem_erase_of_ne hzx).2 hz
  have hinv : Inv (s₂.discarded x prev) E D := by
    refine h₂.inv.shrink (hw₂.discarded hx₂ hne) List.erase_sublist (discarded_same hw₂) discarded_taken
      (discarded_nodes hw₂) ?_ ?_ ?_
    · intro y hy z hz
      refine hmem₃ z (h₂.inv.tidy.usable y hy z hz).mem fun he => hxn y hy (he ▸ hz)
    · intro z hz
      exact ⟨h₂.inv.tokens z (List.mem_cons_of_mem _ hz),
        hmem₃ z (h₂.inv.mem (List.mem_cons_of_mem _ hz)) fun he => hxE (he ▸ hz)⟩
    · intro z hz
      rw [discarded_so (hne₃ z hz), total_discarded hw₂ (hne₃ z hz)]
      exact h₂.inv.counts z (List.mem_of_mem_erase hz)
  have hle : ∀ z, total (s₂.discarded x prev) D E z ≤ total s D (x :: E) z := by
    intro z
    rw [← htot]
    refine le_trans ?_ (h₂.le z)
    rw [total_cons, total, discarded_taken, discarded_nodes hw₂]
    exact Nat.le_add_right _ _
  refine ⟨hinv, ⟨List.erase_sublist.trans h₂.shrunk.sub, fun z hz => ?_,
    discarded_taken.trans h₂.shrunk.taken, ?_, fun t ht => ?_⟩, hle, fun z hz hz0 => ?_, ?_⟩
  · exact (h₂.shrunk.same z (List.mem_of_mem_erase hz)).trans (discarded_same hw₂ z hz)
  · obtain ⟨es, hes, hsw⟩ := h₂.shrunk.log
    refine ⟨_, ?_, hsw.bury hw₂ (h.mem List.mem_cons_self) hx₂ fun y hy hy₂ => ?_⟩
    · rw [discarded_log, hes, State.record_log]
      simp [List.append_assoc]
    · have hyD : y ∉ D := fun hyD => hy₂ (h₂.inv.mem (List.mem_cons_of_mem _ (hD y hyD)))
      exact hlast.others y (mem_nodes.2 ⟨hy, hyD⟩)
  · obtain ⟨t₂, ht₂⟩ := h₂.shrunk.blocks t ht
    exact discarded_blocks hw₂ hx₂ ht₂
  · rw [total_discarded hw₂ (hne₃ z hz)] at hz0
    rw [← htot]
    exact h₂.zero z (List.mem_of_mem_erase hz) hz0
  · refine h₂.supported.shrink (fun z hz => ?_) (fun z _ => ?_) fun z _ => ?_
    · rw [discarded_nodes hw₂]
      exact (h₂.supported z hz).1
    · show total (s₂.discarded x prev) D E z ≤ total s₂ (x :: D) (x :: E) z
      rw [total_cons, total, discarded_taken, discarded_nodes hw₂]
      exact Nat.le_add_right _ _
    · rw [discarded_taken]

/-! ### `unload_library` -/

theorem unloadLibrary_unloads (W : World) {B : List Ptr} {K : Ptr → Prop} (hK : K .libdl) :
    ∀ m, Unloads B K m (unloadLibrary W m) := by
  intro m
  induction m with
  | zero =>
      intro s x E D _ _ _ _ _ hm
      exact absurd hm (Nat.not_lt_zero _)
  | succ m ih =>
      intro s x E D h hD hB hlt hs hm
      unfold unloadLibrary
      apply total_bind
      rw [total_get]
      have hx := h.tokens x List.mem_cons_self
      by_cases hr : (s.so x).refcount = 1
      · have h1 : total s D (x :: E) x = 1 := by
          have hc := congrArg BitVec.toNat ((h.counts x hx.mem).symm.trans hr)
          rw [BitVec.toNat_ofNat, Nat.mod_eq_of_lt (hlt x)] at hc
          exact hc
        have hKx : ¬ K x := by
          intro hKx
          have h2 : 2 ≤ total s D (x :: E) x := hs.two_le_refs hB hKx
          omega
        have hne : x ≠ .libdl := fun he => hKx (he ▸ hK)
        have hlast := h.last hD h1
        obtain ⟨d, hd, hleads⟩ := (h.settled x hlast.node hne).needed hx.linked
        have hnodes : (nodes s (x :: D)).length < m := by
          rw [nodes_cons h.wf, List.length_erase_of_mem hlast.node]
          have := List.length_pos_of_mem hlast.node
          omega
        have hrec := (h.retire hlast.node).record (destructorEvents x (s.so x))
        have hD' : ∀ z ∈ x :: D, z ∈ x :: E := by
          intro z hz
          rcases List.mem_cons.1 hz with rfl | hz
          · exact List.mem_cons_self
          · exact List.mem_cons_of_mem _ (hD z hz)
        have hleads' : Leads (s.record (destructorEvents x (s.so x))) d.needed (taken s x) := hleads
        have hsup := hlast.supported h.wf hs hKx
        have hloop := unloadNeeded_spec (findLibrary_hits W SO_MAX) ih hD'
          (fun z hz => List.mem_cons_of_mem _ (hB z hz)) d.needed hleads' hrec
          (fun z => (total_retire h.wf hlast.node z).trans_lt (hlt z)) hsup hnodes
        rw [if_pos hr]
        unfold callDestructors
        apply total_bind
        rw [total_modify, hd]
        apply total_bind
        refine hloop.mono fun _ s₂ h₂ => total_bind ?_
        apply (discard_spec h₂.inv.wf (h₂.inv.mem List.mem_cons_self) hne).mono
        rintro _ s₃ ⟨prev, rfl⟩
        apply total_bind
        rw [total_get, total_pure]
        exact Released.bury h hD h1 hne h₂
      · rw [if_neg hr]
        apply total_bind
        rw [total_modify]
        apply total_bind
        rw [total_get, total_pure]
        exact h.drop hr hs

end Bionic.Linker
