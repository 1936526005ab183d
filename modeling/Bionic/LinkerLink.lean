import Bionic.LinkerLoad

/-! # What `find_library` does

`find_library` and `link_image` call each other.  `Finds` states what a call of `find_library`
guarantees; `linkImage_spec` derives what linking one entry `A` does from that guarantee for the
nested calls, and `findLibrary_finds` closes the circle by induction on the fuel, which lasts
because a nested call has one more entry in `solist`.

Between the two calls the entry `A` is in `solist` without `FLAG_LINKED`, so that nothing can refer
to it: this is why references never form a cycle (`Grown.retain`). -/

namespace Bionic.Linker

open StateExcept RefGraph

/-! ### Changes to one entry -/

/-- Only `A` has changed, and not in its name, block and references. -/
structure Touch (A : Ptr) (s s' : State) : Prop where
  solist : s'.solist = s.solist
  freelist : s'.freelist = s.freelist
  socount : s'.socount = s.socount
  ba : s'.ba = s.ba
  others : ∀ x, x ≠ A → s'.so x = s.so x
  name : (s'.so A).name = (s.so A).name
  baIndex : (s'.so A).baIndex = (s.so A).baIndex
  refcount : (s'.so A).refcount = (s.so A).refcount
  taken : (s'.so A).taken = (s.so A).taken
  log : Logs (· = A) s s'

namespace Touch

variable {A x : Ptr} {s s₁ s₂ : State}

theorem put {i : Soinfo} {es : List Event} (hn : i.name = (s.so A).name)
    (hb : i.baIndex = (s.so A).baIndex) (hr : i.refcount = (s.so A).refcount)
    (ht : i.taken = (s.so A).taken) (he : ∀ e ∈ es, e.si = A ∧ e.HasPrev) :
    Touch A s (s.put A i s.ba es) := by
  refine ⟨rfl, rfl, rfl, rfl, fun x hx => s.put_so_of_ne A i s.ba es hx, ?_, ?_, ?_, ?_, es, rfl, he⟩
  all_goals rw [State.put_so_self]; assumption

theorem trans (h₁ : Touch A s s₁) (h₂ : Touch A s₁ s₂) : Touch A s s₂ :=
  ⟨h₂.solist.trans h₁.solist, h₂.freelist.trans h₁.freelist, h₂.socount.trans h₁.socount,
    h₂.ba.trans h₁.ba, fun x hx => (h₂.others x hx).trans (h₁.others x hx), h₂.name.trans h₁.name,
    h₂.baIndex.trans h₁.baIndex, h₂.refcount.trans h₁.refcount, h₂.taken.trans h₁.taken,
    h₁.log.trans h₂.log⟩

theorem field {α : Type} {f : Soinfo → α} (h : Touch A s s₁) (hA : f (s₁.so A) = f (s.so A)) (x : Ptr) :
    f (s₁.so x) = f (s.so x) := by
  by_cases hx : x = A
  · rw [hx, hA]
  · rw [h.others x hx]

theorem taken_eq (h : Touch A s s₁) : Linker.taken s₁ = Linker.taken s :=
  funext (h.field h.taken)

theorem lookup_eq (h : Touch A s s₁) (n : CStr) : lookup s₁ n = lookup s n := by
  rw [lookup, h.solist, find?_name_congr fun x _ => h.field h.name x]
  rfl

theorem live_eq (h : Touch A s s₁) : live s₁ = live s := by
  rw [live, h.solist]
  exact List.filterMap_congr fun x _ => h.field h.baIndex x

theorem usable (h : Touch A s s₁) (hx : Usable s x) (hA : x ≠ A) : Usable s₁ x := by
  apply hx.of_same (by rw [h.solist]; exact hx.mem)
  rw [h.others x hA]
  exact Same.refl _

theorem settled {y : Ptr} (h : Touch A s s₁) (hy : y ≠ A) (hs : Settled s y) : Settled s₁ y := by
  refine hs.of_same ?_ fun n x _ hl => by rw [h.lookup_eq, hl]
  rw [h.others y hy]
  exact Same.refl _

end Touch

/-- A change to a new entry that nothing refers to. -/
theorem Grown.touch {P : CStr → Prop} {A : Ptr} {s s₁ s₂ : State} {new : List Ptr}
    (h : Grown P s s₁ new) (ht : Touch A s₁ s₂) (hA : A ∈ new) (hu : ¬ Usable s₁ A) :
    Grown P s s₂ new := by
  have hA' := h.not_mem_old hA
  have hus : ∀ {x}, Usable s₁ x → Usable s₂ x := fun hx => ht.usable hx fun he => hu (he ▸ hx)
  refine ⟨h.wf.congr ht.solist ht.freelist ht.socount, ht.solist.trans h.solist, ?_, ?_, ?_, ?_, ?_, ?_, ?_⟩
  · intro x hx
    rw [ht.others x fun he => hA' (he ▸ hx)]
    exact h.same x hx
  · intro x hx
    rw [ht.solist] at hx
    rw [ht.field ht.refcount x, ht.taken_eq]
    exact h.counts x hx
  · rw [ht.taken_eq]
    exact fun y hy x hx => hus (h.usable y hy x hx)
  · rw [ht.taken_eq]
    intro y hy x hx
    rw [ht.field ht.name x]
    exact h.named y hy x hx
  · exact h.log.trans (ht.log.mono fun x hx => by rwa [hx])
  · intro htd
    have htd₁ := h.tidy htd
    refine ⟨?_, ?_⟩
    · rw [ht.taken_eq, ht.solist]
      exact fun y hy x hx => hus (htd₁.usable y hy x hx)
    · rw [ht.taken_eq, ht.solist]
      exact htd₁.grounded
  · intro t hb
    obtain ⟨t', hb', he⟩ := h.blocks t hb
    refine ⟨t', ?_, he⟩
    rw [Blocks, ht.live_eq, ht.ba]
    exact hb'

/-! ### References -/

section Retain

variable {s : State} {A lsi : Ptr}

theorem retain_so_self (hne : A ≠ lsi) :
    (s.retain A lsi).so A = { s.so A with taken := (s.so A).taken ++ [lsi] } := by
  simp [State.retain, State.raise, State.update_so_of_ne, hne]

theorem retain_same {x : Ptr} (hx : x ≠ A) : Same (s.so x) ((s.retain A lsi).so x) := by
  rw [State.retain, State.update_so_of_ne _ _ _ hx, State.raise]
  exact Same.update (fun i => Same.refcount i _) s lsi x

theorem retain_refcount (x : Ptr) : ((s.retain A lsi).so x).refcount =
    (s.so x).refcount + BitVec.ofNat 32 ([lsi].count x) := by
  have h : ((s.retain A lsi).so x).refcount = ((s.raise lsi).so x).refcount := by
    rw [State.retain, State.update_so]
    by_cases hx : x = A
    · rw [if_pos hx, hx]
    · rw [if_neg hx]
  rw [h, State.raise, State.update_so]
  by_cases hl : x = lsi
  · subst hl
    simp
  · simp [hl, Ne.symm hl]

theorem retain_taken {y : Ptr} (hy : y ≠ A) : taken (s.retain A lsi) y = taken s y :=
  (retain_same hy).taken

theorem retain_taken_self (hne : A ≠ lsi) : taken (s.retain A lsi) A = taken s A ++ [lsi] := by
  rw [taken, retain_so_self hne]
  rfl

theorem retain_flags (hne : A ≠ lsi) (x : Ptr) : ((s.retain A lsi).so x).flags = (s.so x).flags := by
  by_cases hx : x = A
  · rw [hx, retain_so_self hne]
  · exact (retain_same hx).flags

theorem retain_name (hne : A ≠ lsi) (x : Ptr) : ((s.retain A lsi).so x).name = (s.so x).name := by
  by_cases hx : x = A
  · rw [hx, retain_so_self hne]
  · exact (retain_same hx).name

theorem retain_lookup (hne : A ≠ lsi) (n : CStr) : lookup (s.retain A lsi) n = lookup s n :=
  find?_name_congr (fun x _ => retain_name hne x) (basename n)

theorem retain_usable (hne : A ≠ lsi) {x : Ptr} (hx : Usable s x) : Usable (s.retain A lsi) x := by
  refine ⟨hx.mem, ?_, ?_⟩
  · rw [retain_flags hne]
    exact hx.linked
  · rw [retain_flags hne]
    exact hx.error

/-- A new reference of an entry that nothing refers to closes no cycle. -/
theorem Tidy.retain (h : Tidy s s.solist) (hA : ¬ Usable s A) (hl : Usable s lsi) :
    Tidy (s.retain A lsi) s.solist := by
  have hne : A ≠ lsi := fun he => hA (he ▸ hl)
  have hothers : ∀ y ∈ s.solist, y ≠ A → Grounded (taken (s.retain A lsi)) y := by
    intro y hy hyA
    refine (h.grounded y hy).congr (N := fun z => z ∈ s.solist ∧ z ≠ A) ?_ ?_ ⟨hy, hyA⟩
    · intro z hz x hx
      have hu := h.usable z hz.1 x hx
      exact ⟨hu.mem, fun he => hA (he ▸ hu)⟩
    · exact fun z hz => retain_taken hz.2
  have htaken : ∀ y ∈ s.solist, ∀ x ∈ taken (s.retain A lsi) y, Usable s x := by
    intro y hy x hx
    by_cases hyA : y = A
    · rw [hyA, retain_taken_self hne] at hx
      rcases List.mem_append.1 hx with hx | hx
      · exact h.usable A (hyA ▸ hy) x hx
      · rw [List.mem_singleton.1 hx]
        exact hl
    · rw [retain_taken hyA] at hx
      exact h.usable y hy x hx
  refine ⟨fun y hy x hx => retain_usable hne (htaken y hy x hx), fun y hy => ?_⟩
  by_cases hyA : y = A
  · refine Grounded.intro fun x hx => ?_
    have hu := htaken y hy x hx
    exact hothers x hu.mem fun he => hA (he ▸ hu)
  · exact hothers y hy hyA

theorem Grown.retain {P : CStr → Prop} {s₀ : State} {new : List Ptr} (h : Grown P s₀ s (A :: new))
    (hA : ¬ Usable s A) (hl : Usable s lsi) (hP : P (s.so lsi).name) :
    Grown P s₀ (s.retain A lsi) (A :: new) := by
  have hne : A ≠ lsi := fun he => hA (he ▸ hl)
  have hA₀ : A ∉ s₀.solist := h.not_mem_old List.mem_cons_self
  have hAn : A ∉ new := (List.nodup_cons.1 h.nodup_new).1
  have htk : ∀ y ∈ new, taken (s.retain A lsi) y = taken s y :=
    fun y hy => retain_taken fun he => hAn (he ▸ hy)
  have hmem : ∀ y ∈ A :: new, ∀ x ∈ taken (s.retain A lsi) y, x ∈ taken s y ∨ x = lsi := by
    intro y hy x hx
    rcases List.mem_cons.1 hy with rfl | hy
    · rw [retain_taken_self hne] at hx
      exact (List.mem_append.1 hx).imp_right List.mem_singleton.1
    · rw [htk y hy] at hx
      exact Or.inl hx
  refine ⟨h.wf.congr rfl rfl rfl, h.solist, ?_, ?_, ?_, ?_, ?_, ?_, ?_⟩
  · intro x hx
    exact (h.same x hx).trans (retain_same fun he => hA₀ (he ▸ hx))
  · intro x hx
    have hheld : (held (taken (s.retain A lsi)) (A :: new)).count x =
        (held (taken s) (A :: new)).count x + [lsi].count x := by
      have h₁ := held_congr htk
      simp only [held, List.flatMap_cons] at h₁ ⊢
      rw [h₁, retain_taken_self hne]
      simp only [List.count_append]
      omega
    rw [retain_refcount, h.counts x hx, hheld, BitVec.ofNat_add, BitVec.add_assoc]
  · intro y hy x hx
    rcases hmem y hy x hx with hx | rfl
    · exact retain_usable hne (h.usable y hy x hx)
    · exact retain_usable hne hl
  · intro y hy x hx
    rw [retain_name hne]
    rcases hmem y hy x hx with hx | rfl
    · exact h.named y hy x hx
    · exact hP
  · exact h.log
  · exact fun ht => (h.tidy ht).retain hA hl
  · intro t ht
    obtain ⟨t', ht', he⟩ := h.blocks t ht
    refine ⟨t', ?_, he⟩
    have hlive : live (s.retain A lsi) = live s := by
      refine List.filterMap_congr fun x _ => ?_
      by_cases hx : x = A
      · rw [hx, retain_so_self hne]
      · exact (retain_same hx).baIndex
    rw [Blocks, hlive]
    exact ht'

end Retain

/-! ### The order of the constructors -/

/-- The calls with which `link_image(y)` ends. -/
def linkEvents (s : State) (y : Ptr) : List Event :=
  constructorEvents y (s.so y) ++ if (s.so y).flags.exe then [] else [.notifyLoad y]

/-- The constructors of the new entries have run, each after those of the entries it refers to, and
nothing else has been called. -/
def Ordered (s s' : State) (new : List Ptr) : Prop :=
  ∃ order, order.Perm new ∧ Topo (taken s') s.solist order ∧
    s'.log = s.log ++ order.flatMap (linkEvents s')

theorem call_of_mem_callArray {si : Ptr} {stage : Stage} {funcs : List ℕ} {e : Event}
    (he : e ∈ callArray si stage funcs) : ∃ f, e = .call si stage f := by
  obtain ⟨f, -, rfl⟩ := List.mem_map.1 he
  exact ⟨f, rfl⟩

theorem call_of_mem_callFunc {si : Ptr} {stage : Stage} {func : ℕ} {e : Event}
    (he : e ∈ callFunc si stage func) : ∃ f, e = .call si stage f := by
  unfold callFunc at he
  split at he
  · cases he
  · exact ⟨func, List.mem_singleton.1 he⟩

theorem callArray_about (si : Ptr) (stage : Stage) (funcs : List ℕ) :
    ∀ e ∈ callArray si stage funcs, e.si = si ∧ e.HasPrev := by
  intro e he
  obtain ⟨f, rfl⟩ := call_of_mem_callArray he
  exact ⟨rfl, trivial⟩

theorem callFunc_about (si : Ptr) (stage : Stage) (func : ℕ) :
    ∀ e ∈ callFunc si stage func, e.si = si ∧ e.HasPrev := by
  intro e he
  obtain ⟨f, rfl⟩ := call_of_mem_callFunc he
  exact ⟨rfl, trivial⟩

/-- What is not a call of a function is not among the calls. -/
theorem count_callArray {e : Event} (he : ∀ si stage f, e ≠ .call si stage f) (si : Ptr) (stage : Stage)
    (funcs : List ℕ) : (callArray si stage funcs).count e = 0 := by
  apply List.count_eq_zero.2
  intro hm
  obtain ⟨f, hf⟩ := call_of_mem_callArray hm
  exact he si stage f hf

theorem count_callFunc {e : Event} (he : ∀ si stage f, e ≠ .call si stage f) (si : Ptr) (stage : Stage)
    (func : ℕ) : (callFunc si stage func).count e = 0 := by
  apply List.count_eq_zero.2
  intro hm
  obtain ⟨f, hf⟩ := call_of_mem_callFunc hm
  exact he si stage f hf

theorem constructorEvents_about (si : Ptr) (i : Soinfo) :
    ∀ e ∈ constructorEvents si i, e.si = si ∧ e.HasPrev := by
  intro e he
  unfold constructorEvents at he
  split at he
  · simp only [List.mem_cons, List.mem_append] at he
    rcases he with rfl | (he | he) | he
    · exact ⟨rfl, trivial⟩
    · split at he
      · exact callArray_about _ _ _ e he
      · cases he
    · exact callFunc_about _ _ _ e he
    · exact callArray_about _ _ _ e he
  · rw [List.mem_singleton.1 he]
    exact ⟨rfl, trivial⟩

theorem linkEvents_about (s : State) (y : Ptr) : ∀ e ∈ linkEvents s y, e.si = y ∧ e.HasPrev := by
  intro e he
  rcases List.mem_append.1 he with he | he
  · exact constructorEvents_about y _ e he
  · split at he
    · cases he
    · rw [List.mem_singleton.1 he]
      exact ⟨rfl, trivial⟩

theorem linkEvents_congr {s s' : State} {y : Ptr} (hd : (s'.so y).dynamic = (s.so y).dynamic)
    (he : (s'.so y).flags.exe = (s.so y).flags.exe) : linkEvents s' y = linkEvents s y := by
  rw [linkEvents, linkEvents, constructorEvents, constructorEvents, hd, he]

theorem linkEvents_same {s s' : State} {y : Ptr} (h : Same (s.so y) (s'.so y)) :
    linkEvents s' y = linkEvents s y :=
  linkEvents_congr h.dynamic (congrArg Flags.exe h.flags)

namespace Ordered

variable {s s₁ s₂ : State} {new new' : List Ptr}

theorem nil (h : s₁.log = s.log) : Ordered s s₁ [] :=
  ⟨[], .nil, .nil _, by rw [h, List.flatMap_nil, List.append_nil]⟩

/-- The new entries, and the log, are not changed any more. -/
theorem congr (h : Ordered s s₁ new) (hs : ∀ y ∈ new, Same (s₁.so y) (s₂.so y))
    (hl : s₂.log = s₁.log) : Ordered s s₂ new := by
  obtain ⟨order, hp, ht, hlog⟩ := h
  have hs' := fun y hy => hs y (hp.mem_iff.1 hy)
  refine ⟨order, hp, ht.congr (fun y hy => (hs' y hy).taken) fun _ _ _ _ hx => hx, ?_⟩
  rw [hl, hlog, List.flatMap_congr fun y hy => linkEvents_same (hs' y hy)]

theorem trans (h₁ : Ordered s s₁ new) (h₂ : Ordered s₁ s₂ new')
    (hl : s₁.solist = s.solist ++ new) (hs : ∀ y ∈ new, Same (s₁.so y) (s₂.so y)) :
    Ordered s s₂ (new ++ new') := by
  obtain ⟨order₁, hp₁, ht₁, hlog₁⟩ := h₁
  obtain ⟨order₂, hp₂, ht₂, hlog₂⟩ := h₂
  have hs' := fun y hy => hs y (hp₁.mem_iff.1 hy)
  refine ⟨order₁ ++ order₂, hp₁.append hp₂, ?_, ?_⟩
  · refine (ht₁.congr (fun y hy => (hs' y hy).taken) fun _ _ _ _ hx => hx).append
      (ht₂.congr (fun _ _ => rfl) fun _ _ x _ hx => ?_)
    rw [hl] at hx
    rw [List.mem_append, hp₁.mem_iff, ← List.mem_append]
    exact hx
  · rw [hlog₂, hlog₁, List.flatMap_append, List.append_assoc,
      List.flatMap_congr fun y hy => linkEvents_same (hs' y hy)]

end Ordered

/-- The last calls about `z` in `l` are those with which `link_image(z)` ends: its constructors. -/
def Constructed (s : State) (l : List Event) (z : Ptr) : Prop :=
  ∃ a b, l = a ++ linkEvents s z ++ b ∧ ∀ e ∈ b, e.si ≠ z

/-- The calls for the entries `l` are about these. -/
theorem flatMap_linkEvents_about (s : State) (l : List Ptr) :
    ∀ e ∈ l.flatMap (linkEvents s), e.si ∈ l := by
  intro e he
  obtain ⟨y, hy, hey⟩ := List.mem_flatMap.1 he
  rw [(linkEvents_about s y e hey).1]
  exact hy

theorem Constructed.append {s : State} {l l' : List Event} {z : Ptr} (h : Constructed s l z)
    (hl : ∀ e ∈ l', e.si ≠ z) : Constructed s (l ++ l') z := by
  obtain ⟨a, b, rfl, hb⟩ := h
  refine ⟨a, b ++ l', by simp only [List.append_assoc], fun e he => ?_⟩
  rcases List.mem_append.1 he with he | he
  · exact hb e he
  · exact hl e he

theorem Constructed.of_same {s s' : State} {l : List Event} {z : Ptr} (h : Constructed s l z)
    (hs : Same (s.so z) (s'.so z)) : Constructed s' l z := by
  rw [Constructed, linkEvents_same hs]
  exact h

/-- Calls about other entries do not matter. -/
theorem Constructed.of_logs {s s' : State} {z : Ptr} (h : Constructed s s.log z)
    (hs : Same (s.so z) (s'.so z)) (hl : Logs (· ≠ z) s s') : Constructed s' s'.log z := by
  obtain ⟨es, hes, hp⟩ := hl
  rw [hes]
  exact (h.of_same hs).append fun e he => (hp e he).1

/-- The entries of `order` are constructed, one after the other. -/
theorem constructed_flatMap {s : State} {order a b : List Ptr} {z : Ptr} (hn : order.Nodup)
    (ho : order = a ++ z :: b) (l : List Event) :
    Constructed s (l ++ order.flatMap (linkEvents s)) z := by
  subst ho
  refine ⟨l ++ a.flatMap (linkEvents s), b.flatMap (linkEvents s), ?_, fun e he hz => ?_⟩
  · simp only [List.flatMap_append, List.flatMap_cons, List.append_assoc]
  · have hb := flatMap_linkEvents_about s b e he
    rw [hz] at hb
    exact (List.nodup_cons.1 (List.nodup_append.1 hn).2.1).1 hb

/-! ### The `DT_NEEDED` loop -/

/-- A library, other than the executable, that has been through `link_image`. -/
structure Loaded (W : World) (s : State) (y : Ptr) : Prop extends Settled s y where
  exe : (s.so y).flags.exe = false
  file : FromFile W (s.so y)
  constructed : (s.so y).flags.linked = true → Constructed s s.log y

theorem Loaded.of_same {W : World} {s s' : State} {y : Ptr} (h : Loaded W s y)
    (hs : Same (s.so y) (s'.so y)) (hst : Settled s' y) (hl : Logs (· ≠ y) s s') : Loaded W s' y := by
  refine ⟨hst, ?_, h.file.congr hs.name hs.dynamic, fun hlk => ?_⟩
  · rw [hs.flags]
    exact h.exe
  · rw [hs.flags] at hlk
    exact (h.constructed hlk).of_logs hs hl

/-- What `find_library(name)` has done when it returns `r`, having added the entries `new`. -/
structure Found (W : World) (P : CStr → Prop) (name : CStr) (s s' : State) (new : List Ptr) (r : Option Ptr) :
    Prop where
  grown : Grown P s s' new
  loaded : ∀ y ∈ new, Loaded W s' y
  /-- A new library is referred to, except the one that is returned. -/
  referenced : ∀ y ∈ new, (s'.so y).flags.linked = true → r = some y ∨ y ∈ held (taken s') new
  usable : ∀ x, r = some x → Usable s' x
  lookup : ∀ x, r = some x → lookup s' name = some x
  linked : r.isSome → ∀ y ∈ new, (s'.so y).flags.linked = true
  ordered : r.isSome → Ordered s s' new
  failed : r = none → new = [] ∨ ∃ A rest, new = A :: rest ∧ (s'.so A).name = basename name ∧
    (s'.so A).flags.error = true

/-- `find` does what `find_library` should, where `solist` has at least `n` entries. -/
def Finds (W : World) (P : CStr → Prop) (n : ℕ) (find : CStr → LinkerM (Option Ptr)) : Prop :=
  ∀ name s, Wf s → n ≤ s.solist.length →
    Total (find name) s fun r s' => ∃ new, Found W P name s s' new r

/-- The entry `A`, which was `i₀` when `link_image` started, is being linked; `new` are the entries
added in the meantime. -/
structure Linking (W : World) (P : CStr → Prop) (A : Ptr) (i₀ : Soinfo) (s₀ s : State) (new : List Ptr) :
    Prop where
  grown : Grown P s₀ s (A :: new)
  loaded : ∀ y ∈ new, Loaded W s y
  self : Same { i₀ with taken := [] } { s.so A with taken := [] }
  unlinked : i₀.flags.linked = false
  referenced : ∀ y ∈ new, (s.so y).flags.linked = true → y ∈ held (taken s) (A :: new)

namespace Linking

variable {W : World} {P : CStr → Prop} {A lsi : Ptr} {i₀ : Soinfo} {s₀ s s₁ : State} {new new' : List Ptr}
  {name : CStr}

theorem not_usable (h : Linking W P A i₀ s₀ s new) : ¬ Usable s A := by
  intro hu
  have hl := hu.linked
  rw [show (s.so A).flags = i₀.flags from h.self.flags, h.unlinked] at hl
  cases hl

theorem mem (h : Linking W P A i₀ s₀ s new) : A ∈ s.solist := h.grown.mem_new List.mem_cons_self

theorem loaded_append (h : Linking W P A i₀ s₀ s new) {r : Option Ptr}
    (hf : Found W P name s s₁ new' r) : ∀ y ∈ new ++ new', Loaded W s₁ y := by
  intro y hy
  rcases List.mem_append.1 hy with hy | hy
  · have hm : y ∈ s.solist := h.grown.mem_new (List.mem_cons_of_mem _ hy)
    exact (h.loaded y hy).of_same (hf.grown.same y hm) (hf.grown.settled hm (h.loaded y hy).toSettled)
      (hf.grown.log.mono fun x hx he => hx (he ▸ hm))
  · exact hf.loaded y hy

/-- References held in `s` by the entries being added are held after a nested call, too. -/
theorem held_append (h : Linking W P A i₀ s₀ s new) (hf : Grown P s s₁ new') :
    held (taken s₁) (A :: (new ++ new')) = held (taken s) (A :: new) ++ held (taken s₁) new' := by
  rw [← List.cons_append, RefGraph.held_append,
    held_congr fun y hy => hf.taken_old (h.grown.mem_new hy)]

theorem referenced_append (h : Linking W P A i₀ s₀ s new) {r : Option Ptr}
    (hf : Found W P name s s₁ new' r) : ∀ y ∈ new ++ new', (s₁.so y).flags.linked = true →
      r = some y ∨ y ∈ held (taken s₁) (A :: (new ++ new')) := by
  intro y hy hl
  rw [h.held_append hf.grown, List.mem_append]
  rcases List.mem_append.1 hy with hy | hy
  · have hm : y ∈ s.solist := h.grown.mem_new (List.mem_cons_of_mem _ hy)
    rw [(hf.grown.same y hm).flags] at hl
    exact Or.inr (Or.inl (h.referenced y hy hl))
  · exact (hf.referenced y hy hl).imp_right Or.inr

theorem self_same (h : Linking W P A i₀ s₀ s new) (hs : Same (s.so A) (s₁.so A)) :
    Same { i₀ with taken := [] } { s₁.so A with taken := [] } :=
  h.self.trans (hs.withTaken [])

/-- A nested call that found nothing. -/
theorem miss (h : Linking W P A i₀ s₀ s new) (hf : Found W P name s s₁ new' none) :
    Linking W P A i₀ s₀ s₁ (new ++ new') :=
  ⟨h.grown.trans hf.grown, h.loaded_append hf, h.self_same (hf.grown.same A h.mem), h.unlinked,
    fun y hy hl => (h.referenced_append hf y hy hl).resolve_left (by simp)⟩

theorem not_usable_after (h : Linking W P A i₀ s₀ s new) (hg : Grown P s s₁ new') :
    ¬ Usable s₁ A := by
  intro hu
  have hl := hu.linked
  rw [(hg.same A h.mem).flags, show (s.so A).flags = i₀.flags from h.self.flags, h.unlinked] at hl
  cases hl

theorem ne_found (h : Linking W P A i₀ s₀ s new) (hf : Found W P name s s₁ new' (some lsi)) : A ≠ lsi :=
  fun he => h.not_usable_after hf.grown (he ▸ hf.usable lsi rfl)

/-- A nested call that found `lsi`, to which `A` now refers. -/
theorem hit (h : Linking W P A i₀ s₀ s new) (hf : Found W P name s s₁ new' (some lsi))
    (hP : P (basename name)) : Linking W P A i₀ s₀ (s₁.retain A lsi) (new ++ new') := by
  have hlsi := hf.usable lsi rfl
  have hsame := h.self_same (hf.grown.same A h.mem)
  have hA := h.not_usable_after hf.grown
  have hne := h.ne_found hf
  have hgr := h.grown.trans hf.grown
  have hAn : A ∉ new ++ new' := (List.nodup_cons.1 hgr.nodup_new).1
  refine ⟨hgr.retain hA hlsi ?_, ?_, ?_, h.unlinked, ?_⟩
  · rw [(lookup_eq_some (hf.lookup lsi rfl)).2]
    exact hP
  · intro y hy
    have hyA : y ≠ A := fun he => hAn (he ▸ hy)
    have hld := h.loaded_append hf y hy
    refine hld.of_same (retain_same hyA) (hld.toSettled.of_same (retain_same hyA) fun n x _ hl => ?_)
      (.of_eq rfl)
    rw [retain_lookup hne, hl]
  · rw [retain_so_self hne]
    exact hsame
  · intro y hy hl
    rw [retain_flags hne] at hl
    have hmono : ∀ z ∈ A :: (new ++ new'), ∀ x ∈ taken s₁ z, x ∈ taken (s₁.retain A lsi) z := by
      intro z hz x hx
      by_cases hzA : z = A
      · rw [hzA] at hx ⊢
        rw [retain_taken_self hne]
        exact List.mem_append_left _ hx
      · rw [retain_taken hzA]
        exact hx
    rcases h.referenced_append hf y hy hl with he | hh
    · cases he
      refine mem_held.2 ⟨A, List.mem_cons_self, ?_⟩
      rw [retain_taken_self hne]
      exact List.mem_append_right _ List.mem_cons_self
    · obtain ⟨z, hz, hyz⟩ := mem_held.1 hh
      exact mem_held.2 ⟨z, hz, hmono z hz y hyz⟩

end Linking

/-- The entries for the names, from left to right. -/
def Leads (s : State) (names : List CStr) (l : List Ptr) : Prop :=
  List.Forall₂ (fun n x => lookup s n = some x) names l

theorem linkNeeded_spec {W : World} {P : CStr → Prop} {n : ℕ} {find : CStr → LinkerM (Option Ptr)}
    (hf : Finds W P n find) {A : Ptr} {i₀ : Soinfo} {s₀ : State} (names : List CStr) :
    ∀ {s : State} {new : List Ptr}, Linking W P A i₀ s₀ s new → n ≤ s.solist.length →
    (∀ m ∈ names, P (basename m)) →
    Total (linkNeeded find A names) s fun ok s' => ∃ new', Linking W P A i₀ s₀ s' (new ++ new') ∧
      (∀ y ∈ s.solist, y ≠ A → Same (s.so y) (s'.so y)) ∧
      (∀ m x, lookup s m = some x → lookup s' m = some x) ∧
      (ok = true → (∃ l, taken s' A = taken s A ++ l ∧ Leads s' names l) ∧
        (∀ y ∈ new', (s'.so y).flags.linked = true) ∧ Ordered s s' new') := by
  induction names with
  | nil =>
      intro s new h _ _
      refine total_pure.2 ⟨[], ?_, fun _ _ _ => Same.refl _, fun _ _ hl => hl,
        fun _ => ⟨⟨[], ?_, .nil⟩, by simp, .nil rfl⟩⟩
      · rwa [List.append_nil]
      · rw [List.append_nil]
  | cons name names ih =>
      intro s new h hlen hP
      unfold linkNeeded
      apply total_bind
      apply (hf name s h.grown.wf hlen).mono
      rintro r s₁ ⟨new₁, hfound⟩
      cases r with
      | none =>
          exact total_pure.2 ⟨_, h.miss hfound, fun y hy _ => hfound.grown.same y hy,
            fun m x => hfound.grown.lookup, by simp⟩
      | some lsi =>
          have hh := h.hit hfound (hP name List.mem_cons_self)
          have hne := h.ne_found hfound
          have hsol : (s₁.retain A lsi).solist = s.solist ++ new₁ := hfound.grown.solist
          have hnA : ∀ y ∈ new₁, y ≠ A := fun y hy he => hfound.grown.not_mem_old hy (he ▸ h.mem)
          have hlk : ∀ m x, lookup s m = some x → lookup (s₁.retain A lsi) m = some x := by
            intro m x hl
            rw [retain_lookup hne]
            exact hfound.grown.lookup hl
          have hlen₁ : n ≤ (s₁.retain A lsi).solist.length := by
            rw [hsol, List.length_append]
            omega
          apply total_bind
          rw [total_modify]
          refine (ih hh hlen₁ fun m hm => hP m (List.mem_cons_of_mem _ hm)).mono ?_
          rintro ok s₂ ⟨new', h', hsame, hlk', hok⟩
          have hnew : ∀ y ∈ new₁, Same ((s₁.retain A lsi).so y) (s₂.so y) :=
            fun y hy => hsame y (by rw [hsol]; exact List.mem_append_right _ hy) (hnA y hy)
          refine ⟨new₁ ++ new', ?_, fun y hy hyA => ?_, fun m x hl => hlk' m x (hlk m x hl),
            fun ht => ?_⟩
          · rwa [← List.append_assoc]
          · exact (hfound.grown.same y hy).trans ((retain_same hyA).trans
              (hsame y (by rw [hsol]; exact List.mem_append_left _ hy) hyA))
          · obtain ⟨⟨l, htk, hl⟩, hall, hord⟩ := hok ht
            have hord₁ : Ordered s (s₁.retain A lsi) new₁ :=
              (hfound.ordered rfl).congr (fun y hy => retain_same (hnA y hy)) rfl
            refine ⟨⟨lsi :: l, ?_, .cons (hlk' _ _ ?_) hl⟩, fun y hy => ?_, hord₁.trans hord hsol hnew⟩
            · rw [htk, retain_taken_self hne,
                show taken s₁ A = taken s A from hfound.grown.taken_old h.mem]
              simp
            · rw [retain_lookup hne]
              exact hfound.lookup lsi rfl
            · rcases List.mem_append.1 hy with hy | hy
              · rw [(hnew y hy).flags, retain_flags hne]
                exact hfound.linked rfl y hy
              · exact hall y hy

/-! ### `link_image` -/

theorem resolveImage_spec {W : World} {P : CStr → Prop} {n : ℕ} {find : CStr → LinkerM (Option Ptr)}
    (hf : Finds W P n find) {A : Ptr} {s₀ s : State} (h : Linking W P A (s.so A) s₀ s [])
    (hlen : n ≤ s.solist.length) (ht : taken s A = []) (hd : (s.so A).dynamic.Names P) :
    Total (resolveImage find A) s fun ok s' => ∃ new, Linking W P A (s.so A) s₀ s' new ∧
      (ok = true → (∃ d, (s.so A).dynamic = .present d ∧ Leads s' d.needed (taken s' A)) ∧
        (∀ y ∈ new, (s'.so y).flags.linked = true) ∧ Ordered s s' new) := by
  unfold resolveImage
  apply total_bind
  rw [total_get]
  cases hdyn : (s.so A).dynamic with
  | null => exact absurd hdyn hd.1
  | missing => exact total_pure.2 ⟨[], h, by simp⟩
  | present d =>
      dsimp only
      by_cases htab : d.tables = true
      · rw [if_pos htab]
        apply total_bind
        apply (linkNeeded_spec hf d.needed h hlen (hd.2 d hdyn)).mono
        rintro ok s₁ ⟨new, h₁, -, -, hok⟩
        cases ok with
        | false => exact total_pure.2 ⟨new, h₁, by simp⟩
        | true =>
            obtain ⟨⟨l, htk, hl⟩, hall, hord⟩ := hok rfl
            refine total_pure.2 ⟨new, h₁, fun _ => ⟨⟨d, rfl, ?_⟩, hall, hord⟩⟩
            rw [htk, ht]
            exact hl
      · rw [if_neg htab]
        exact total_pure.2 ⟨[], h, by simp⟩

theorem total_finishImage {A : Ptr} {s : State} {Q : Unit → State → Prop}
    (hq : Q () (s.put A { s.so A with flags := { (s.so A).flags with linked := true } } s.ba
      (linkEvents s A))) : Total (finishImage A) s Q := by
  unfold finishImage callConstructors notifyGdb
  apply total_bind
  rw [total_modify]
  apply total_bind
  rw [total_modify, total_modify, State.update_eq_put]
  have hc : constructorEvents A { s.so A with flags := { (s.so A).flags with linked := true } } =
      constructorEvents A (s.so A) := rfl
  simp only [State.put_so_self, State.put_record, List.nil_append, hc]
  by_cases hexe : (s.so A).flags.exe = true
  · rw [if_pos hexe]
    rwa [linkEvents, if_pos hexe, List.append_nil] at hq
  · rw [if_neg hexe]
    rwa [linkEvents, if_neg hexe] at hq

/-- What `link_image(A)` has done, where `A` was `i₀`, `solist` had not contained `A` in `s₀`, and
the call started in `s`. -/
structure Linked (W : World) (P : CStr → Prop) (A : Ptr) (i₀ : Soinfo) (s₀ s s' : State) (new : List Ptr)
    (ok : Bool) : Prop where
  grown : Grown P s₀ s' (A :: new)
  loaded : ∀ y ∈ new, Loaded W s' y
  settled : Settled s' A
  name : (s'.so A).name = i₀.name
  dynamic : (s'.so A).dynamic = i₀.dynamic
  flags : (s'.so A).flags = { i₀.flags with linked := ok, error := !ok }
  referenced : ∀ y ∈ new, (s'.so y).flags.linked = true → y ∈ held (taken s') (A :: new)
  linked : ok = true → ∀ y ∈ new, (s'.so y).flags.linked = true
  ordered : ok = true → ∃ order, order.Perm (new ++ [A]) ∧ Topo (taken s') s₀.solist order ∧
    s'.log = s.log ++ order.flatMap (linkEvents s')

/-- The last change to `A`, behind its `DT_NEEDED` loop. -/
theorem Linking.touch {W : World} {P : CStr → Prop} {A : Ptr} {i₀ : Soinfo} {s₀ s s' : State} {new : List Ptr}
    (h : Linking W P A i₀ s₀ s new) (ht : Touch A s s') : Grown P s₀ s' (A :: new) ∧
      (∀ y ∈ new, Same (s.so y) (s'.so y)) ∧ (∀ y ∈ new, Loaded W s' y) ∧
      ∀ y ∈ new, (s'.so y).flags.linked = true → y ∈ held (taken s') (A :: new) := by
  have hne : ∀ y ∈ new, y ≠ A := by
    intro y hy he
    exact (List.nodup_cons.1 h.grown.nodup_new).1 (he ▸ hy)
  have hsame : ∀ y ∈ new, Same (s.so y) (s'.so y) := by
    intro y hy
    rw [ht.others y (hne y hy)]
    exact Same.refl _
  refine ⟨h.grown.touch ht List.mem_cons_self h.not_usable, hsame, ?_, ?_⟩
  · intro y hy
    exact (h.loaded y hy).of_same (hsame y hy) (ht.settled (hne y hy) (h.loaded y hy).toSettled)
      (ht.log.mono fun x hx he => hne y hy (he.symm.trans hx))
  · intro y hy hl
    rw [ht.others y (hne y hy)] at hl
    rw [ht.taken_eq]
    exact h.referenced y hy hl

/-- `A` comes last in the order, behind everything it refers to. -/
theorem Linking.topo {W : World} {P : CStr → Prop} {A : Ptr} {i₀ : Soinfo} {s₀ s s₁ : State}
    {new order : List Ptr} (h₁ : Linking W P A i₀ s₀ s₁ new) (h : Linking W P A i₀ s₀ s [])
    (ht : Topo (taken s₁) s.solist order) (hp : order.Perm new) :
    Topo (taken s₁) s₀.solist (order ++ [A]) := by
  have hne : ∀ y ∈ A :: new, ∀ x ∈ taken s₁ y, x ≠ A := by
    intro y hy x hx he
    exact h₁.not_usable (he ▸ h₁.grown.usable y hy x hx)
  apply Topo.append
  · refine ht.congr (fun _ _ => rfl) fun y hy x hx hxs => ?_
    rw [h.grown.solist] at hxs
    rcases List.mem_append.1 hxs with hxs | hxs
    · exact hxs
    · have hyn : y ∈ A :: new := List.mem_cons_of_mem _ (hp.mem_iff.1 hy)
      exact absurd (List.mem_singleton.1 hxs) (hne y hyn x hx)
  · refine Topo.single fun x hx => ?_
    have hxm := (h₁.grown.usable A List.mem_cons_self x hx).mem
    rw [h₁.grown.solist] at hxm
    rw [List.mem_append, hp.mem_iff]
    refine (List.mem_append.1 hxm).imp_right fun hxn => ?_
    exact (List.mem_cons.1 hxn).resolve_left (hne A List.mem_cons_self x hx)

theorem linkImage_spec {W : World} {P : CStr → Prop} {n : ℕ} {find : CStr → LinkerM (Option Ptr)}
    (hf : Finds W P n find) {A : Ptr} {s₀ s : State} (h : Linking W P A (s.so A) s₀ s [])
    (hlen : n ≤ s.solist.length) (ht : taken s A = []) (hd : (s.so A).dynamic.Names P)
    (he : (s.so A).flags.error = false) (hm : (s.so A).mapped = true) :
    Total (linkImage find A) s fun ok s' => ∃ new, Linked W P A (s.so A) s₀ s s' new ok := by
  unfold linkImage
  apply total_bind
  apply (resolveImage_spec hf h hlen ht hd).mono
  rintro ok s₁ ⟨new, h₁, hok⟩
  have hfl : (s₁.so A).flags = (s.so A).flags := h₁.self.flags
  have hul : (s₁.so A).flags.linked = false := by rw [hfl, h₁.unlinked]
  cases ok with
  | true =>
      obtain ⟨⟨d, hdyn, hleads⟩, hall, order, hperm, htopo, hlog⟩ := hok rfl
      rw [if_pos rfl]
      apply total_bind
      apply total_finishImage
      rw [total_pure]
      have htouch : Touch A s₁ (s₁.put A { s₁.so A with
          flags := { (s₁.so A).flags with linked := true } } s₁.ba (linkEvents s₁ A)) :=
        .put rfl rfl rfl rfl (linkEvents_about s₁ A)
      obtain ⟨hgr, hsame, hld, href⟩ := h₁.touch htouch
      have hnm := htouch.name.trans h₁.self.name
      have hdn := h₁.self.dynamic
      have hevA : linkEvents (s₁.put A { s₁.so A with
          flags := { (s₁.so A).flags with linked := true } } s₁.ba (linkEvents s₁ A)) A =
          linkEvents s₁ A := linkEvents_congr (by simp) (by simp)
      refine ⟨new, hgr, hld, ⟨?_, fun _ => ?_, fun _ => ⟨d, ?_, ?_⟩⟩, hnm, ?_, ?_, href, fun _ y hy => ?_,
        fun _ => ⟨order ++ [A], hperm.append_right _, ?_, ?_⟩⟩
      · simp [hfl, he]
      · rw [State.put_so_self, show (s₁.so A).mapped = (s.so A).mapped from h₁.self.mapped, hm]
      · rw [State.put_so_self, ← hdyn]
        exact h₁.self.dynamic
      · rw [htouch.taken_eq]
        simp only [htouch.lookup_eq]
        exact hleads
      · rw [State.put_so_self]
        exact hdn
      · simp [hfl, he]
      · rw [(hsame y hy).flags]
        exact hall y hy
      · rw [htouch.taken_eq]
        exact h₁.topo h htopo hperm
      · rw [State.put_log, hlog, List.flatMap_append, List.flatMap_singleton, hevA,
          List.append_assoc, List.flatMap_congr fun y hy => linkEvents_same (hsame y (hperm.mem_iff.1 hy))]
  | false =>
      rw [if_neg Bool.false_ne_true]
      apply total_bind
      rw [total_modify, total_pure, State.update_eq_put]
      have htouch : Touch A s₁ (s₁.put A { s₁.so A with
          flags := { (s₁.so A).flags with error := true } } s₁.ba []) :=
        .put rfl rfl rfl rfl (by simp)
      obtain ⟨hgr, hsame, hld, href⟩ := h₁.touch htouch
      have hnm := htouch.name.trans h₁.self.name
      have hdn := h₁.self.dynamic
      refine ⟨new, hgr, hld, ⟨?_, ?_, ?_⟩, hnm, ?_, ?_, href, by simp, by simp⟩
      · simp [hul]
      · simp [hul]
      · simp [hul]
      · rw [State.put_so_self]
        exact hdn
      · simp [hfl, ← h₁.unlinked]

/-! ### `init_library` and `find_library` -/

/-- The entry that `find_library(name)` has loaded is the one the name leads to from then on. -/
theorem Grown.lookup_new {P : CStr → Prop} {s s₁ : State} {A : Ptr} {new : List Ptr} {name : CStr}
    (h : Grown P s s₁ (A :: new)) (hA : (s₁.so A).name = basename name)
    (hl : Linker.lookup s name = none) : Linker.lookup s₁ name = some A := by
  have hold : s.solist.find? (fun x => (s₁.so x).name = basename name) = none := by
    rw [find?_name_congr fun x hx => (h.same x hx).name]
    exact hl
  rw [Linker.lookup, h.solist, List.find?_append, hold, List.find?_cons_of_pos (by simp [hA])]
  rfl

theorem Linked.constructed {W : World} {P : CStr → Prop} {A : Ptr} {i₀ : Soinfo} {s₀ s s' : State}
    {new : List Ptr} (h : Linked W P A i₀ s₀ s s' new true) : Constructed s' s'.log A := by
  obtain ⟨order, hp, -, hlog⟩ := h.ordered rfl
  have hn : order.Nodup := (hp.trans List.perm_append_comm).nodup_iff.2 h.grown.nodup_new
  have hA : A ∈ order := hp.mem_iff.2 (List.mem_append_right _ List.mem_cons_self)
  obtain ⟨a, b, hab⟩ := List.append_of_mem hA
  rw [hlog]
  exact constructed_flatMap hn hab _

theorem Linked.found {W : World} {P : CStr → Prop} {A : Ptr} {i₀ : Soinfo} {s₀ s s' : State} {new : List Ptr}
    {name : CStr} (h : Linked W P A i₀ s₀ s s' new true) (hn : i₀.name = basename name)
    (he : i₀.flags.exe = false) (hfile : FromFile W i₀) (hlog : s.log = s₀.log)
    (hl : lookup s₀ name = none) : Found W P name s₀ s' (A :: new) (some A) := by
  have hfl := h.flags
  refine ⟨h.grown, ?_, ?_, ?_, ?_, ?_, ?_, by simp⟩
  · intro y hy
    rcases List.mem_cons.1 hy with rfl | hy
    · exact ⟨h.settled, by rw [hfl]; exact he, hfile.congr h.name h.dynamic, fun _ => h.constructed⟩
    · exact h.loaded y hy
  · intro y hy hlk
    rcases List.mem_cons.1 hy with rfl | hy
    · exact Or.inl rfl
    · exact Or.inr (h.referenced y hy hlk)
  · rintro x ⟨⟩
    exact ⟨h.grown.mem_new List.mem_cons_self, by rw [hfl], by rw [hfl]; rfl⟩
  · rintro x ⟨⟩
    exact h.grown.lookup_new (h.name.trans hn) hl
  · intro _ y hy
    rcases List.mem_cons.1 hy with rfl | hy
    · rw [hfl]
    · exact h.linked rfl y hy
  · intro _
    obtain ⟨order, hp, ht, hlg⟩ := h.ordered rfl
    exact ⟨order, hp.trans List.perm_append_comm, ht, by rw [hlg, hlog]⟩

/-- `init_library` unmaps an image that could not be linked. -/
theorem Linked.failed {W : World} {P : CStr → Prop} {A : Ptr} {i₀ : Soinfo} {s₀ s s' : State} {new : List Ptr}
    {name : CStr} (h : Linked W P A i₀ s₀ s s' new false) (hn : i₀.name = basename name)
    (he : i₀.flags.exe = false) (hfile : FromFile W i₀) :
    Found W P name s₀ (s'.put A { s'.so A with mapped := false } s'.ba [.munmap A]) (A :: new)
      none := by
  have hfl := h.flags
  have ht : Touch A s' (s'.put A { s'.so A with mapped := false } s'.ba [.munmap A]) := by
    refine .put rfl rfl rfl rfl fun e he => ?_
    rw [List.mem_singleton.1 he]
    exact ⟨rfl, trivial⟩
  have hne : ∀ y ∈ new, y ≠ A := by
    intro y hy he
    exact (List.nodup_cons.1 h.grown.nodup_new).1 (he ▸ hy)
  have hu : ¬ Usable s' A := by
    intro hu
    have hl := hu.linked
    rw [hfl] at hl
    cases hl
  refine ⟨h.grown.touch ht List.mem_cons_self hu, ?_, ?_, by simp, by simp, by simp, by simp,
    fun _ => Or.inr ⟨A, new, rfl, ?_, ?_⟩⟩
  · intro y hy
    rcases List.mem_cons.1 hy with rfl | hy
    · refine ⟨⟨?_, ?_, ?_⟩, ?_, ?_, ?_⟩
      · simp [hfl]
      · simp [hfl]
      · simp [hfl]
      · simp [hfl, he]
      · rw [State.put_so_self]
        exact hfile.congr h.name h.dynamic
      · simp [hfl]
    · refine (h.loaded y hy).of_same ?_ (ht.settled (hne y hy) (h.loaded y hy).toSettled)
        (ht.log.mono fun x hx he => hne y hy (he.symm.trans hx))
      rw [ht.others y (hne y hy)]
      exact Same.refl _
  · intro y hy hlk
    rcases List.mem_cons.1 hy with rfl | hy
    · rw [State.put_so_self, hfl] at hlk
      cases hlk
    · rw [ht.others y (hne y hy)] at hlk
      rw [ht.taken_eq]
      exact Or.inr (h.referenced y hy hlk)
  · rw [State.put_so_self]
    exact h.name.trans hn
  · rw [State.put_so_self, hfl]
    rfl

theorem initLibrary_spec {W : World} {P : CStr → Prop} {n : ℕ} {find : CStr → LinkerM (Option Ptr)}
    (hf : Finds W P n find) (arch : Ba.Arch) {A : Ptr} {s₀ s : State} {name : CStr}
    (hg : Grown P s₀ s [A]) (hr : Raw W P (basename name) (s.so A)) (hlog : s.log = s₀.log)
    (hl : lookup s₀ name = none) (hlen : n ≤ s.solist.length) :
    Total (initLibrary arch find A) s fun r s' => ∃ new, Found W P name s₀ s' (A :: new) r := by
  have hu : ¬ Usable s A := by
    intro hu
    have h := hu.linked
    rw [hr.flags] at h
    cases h
  unfold initLibrary
  apply total_bind
  rw [total_modify, State.update_eq_put]
  generalize hi : (if (s.so A).base < Ba.LIBBASE arch ∨ Ba.LIBLAST arch ≤ (s.so A).base then
    { s.so A with flags := { (s.so A).flags with prelinked := true } } else s.so A) = i
  have hraw : i.name = basename name ∧ i.flags.linked = false ∧ i.flags.error = false ∧
      i.flags.exe = false ∧ i.mapped = true ∧ i.taken = [] ∧ i.dynamic = (s.so A).dynamic ∧
      i.baIndex = (s.so A).baIndex ∧ i.refcount = (s.so A).refcount := by
    rw [← hi]
    split <;> simp [hr.name, hr.flags, hr.mapped, hr.taken]
  obtain ⟨hin, hil, hie, hix, him, hit, hid, hib, hir⟩ := hraw
  have ht : Touch A s (s.put A i s.ba []) :=
    .put (hin.trans hr.name.symm) hib hir (hit.trans hr.taken.symm) (by simp)
  have hL : Linking W P A ((s.put A i s.ba []).so A) s₀ (s.put A i s.ba []) [] :=
    ⟨hg.touch ht List.mem_cons_self hu, by simp, Same.refl _, by simpa using hil, by simp⟩
  apply total_bind
  refine (linkImage_spec hf hL hlen ?_ ?_ ?_ ?_).mono ?_
  · simpa [taken] using hit
  · rw [State.put_so_self, hid]
    exact hr.dynamic
  · simpa using hie
  · simpa using him
  rw [State.put_so_self]
  have hfile : FromFile W i := hr.file.congr (hin.trans hr.name.symm) hid
  rintro ok s₁ ⟨new, h⟩
  cases ok with
  | true => exact total_pure.2 ⟨_, h.found hin hix hfile (by simpa using hlog) hl⟩
  | false => exact total_bind (total_munmap (total_pure.2 ⟨_, h.failed hin hix hfile⟩))

theorem Found.refused {W : World} {P : CStr → Prop} {name : CStr} {s s₁ : State} (h : Grown P s s₁ []) :
    Found W P name s s₁ [] none :=
  ⟨h, by simp, by simp, by simp, by simp, by simp, by simp, fun _ => Or.inl rfl⟩

theorem Found.known {W : World} {P : CStr → Prop} {name : CStr} {s : State} {x : Ptr} (hw : Wf s)
    (hl : Linker.lookup s name = some x) (hu : Usable s x) : Found W P name s s [] (some x) := by
  refine ⟨.refl hw, by simp, by simp, ?_, ?_, by simp, fun _ => .nil rfl, by simp⟩
  · rintro y ⟨⟩
    exact hu
  · rintro y ⟨⟩
    exact hl

/-- `find_library(name)` gets as far as `init_library`. -/
def Initializes (W : World) (name : CStr) (s : State) : Prop :=
  lookup s name = none ∧ ∃ si s₁, Returns (loadLibrary W name) s (some si) s₁

/-- `find_library` does what it should if the nested calls do, and adds entries if and only if it
gets as far as `init_library`. -/
theorem findLibrary_spec {W : World} {P : CStr → Prop} (hW : W.Names P) {fuel n : ℕ}
    (hf : Finds W P (n + 1) (findLibrary W fuel)) {s : State} (hw : Wf s) (hlen : n ≤ s.solist.length)
    (name : CStr) : Total (findLibrary W (fuel + 1) name) s fun r s' =>
      ∃ new, Found W P name s s' new r ∧ (new ≠ [] ↔ Initializes W name s) := by
  unfold findLibrary
  apply total_bind
  rw [total_get]
  cases hl : lookup s name with
  | some x =>
      have hno : [] ≠ ([] : List Ptr) ↔ Initializes W name s := by simp [Initializes, hl]
      dsimp only
      by_cases he : (s.so x).flags.error = true
      · rw [if_pos he]
        exact total_pure.2 ⟨[], .refused (.refl hw), hno⟩
      · rw [if_neg he]
        by_cases hlk : (s.so x).flags.linked = true
        · rw [if_pos hlk]
          have hu : Usable s x := ⟨(lookup_eq_some hl).1, hlk, by simpa using he⟩
          exact total_pure.2 ⟨[], .known hw hl hu, hno⟩
        · rw [if_neg hlk]
          exact total_pure.2 ⟨[], .refused (.refl hw), hno⟩
  | none =>
      apply total_bind
      obtain ⟨r, s₁, hr, hcases⟩ := loadLibrary_spec hW hw name
      apply hr.total
      rcases hcases with ⟨rfl, hg⟩ | ⟨A, rfl, hg, hraw, hlog⟩
      · refine total_pure.2 ⟨[], .refused hg, by simp, ?_⟩
        rintro ⟨-, si, s₂, hr₂⟩
        cases hr.symm.trans hr₂
      · refine (initLibrary_spec hf W.arch hg hraw hlog hl ?_).mono ?_
        · rw [hg.solist, List.length_append]
          simpa using hlen
        · rintro r s₂ ⟨new, hfound⟩
          exact ⟨A :: new, hfound, fun _ => ⟨hl, A, s₁, hr⟩, by simp⟩

/-- With as much fuel as there may still be entries. -/
theorem findLibrary_finds {W : World} {P : CStr → Prop} (hW : W.Names P) :
    ∀ fuel n, SO_MAX + 2 ≤ fuel + n → Finds W P n (findLibrary W fuel) := by
  intro fuel
  induction fuel with
  | zero =>
      intro n hn name s hw hlen
      have := hw.length_le
      omega
  | succ fuel ih =>
      intro n hn name s hw hlen
      apply (findLibrary_spec hW (ih (n + 1) (by omega)) hw hlen name).mono
      rintro r s' ⟨new, hfound, -⟩
      exact ⟨new, hfound⟩

end Bionic.Linker
