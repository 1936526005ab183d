import Bionic.LinkerOrder

/-! # When the functions of `DT_PREINIT_ARRAY` run

`README.TXT` asks that the functions of the executable's `DT_PREINIT_ARRAY` be called before any
other initialization function.  `link_image` calls them with the other constructors of the
executable, behind the constructors of the libraries it needs.  `preinit_first_iff` says for which
executables this makes no difference. -/

namespace Bionic.Linker

open StateExcept RefGraph

/-! ### Definitions -/

def Event.IsPreinit : Event → Prop
  | .call _ .preinit _ => True
  | _ => False

/-- A call of a `DT_INIT` or `DT_INIT_ARRAY` function. -/
def Event.IsInit : Event → Prop
  | .call _ .init _ => True
  | .call _ .initArray _ => True
  | _ => False

/-- `call_array` calls this entry. -/
def Callable (f : ℕ) : Prop := f ≠ 0 ∧ f ≠ 0xffffffff

/-- Every function of the executable's `DT_PREINIT_ARRAY` is called, and none behind a `DT_INIT` or
`DT_INIT_ARRAY` function. -/
def PreinitFirst (exe : Exe) (si : Ptr) (log : List Event) : Prop :=
  (∀ d, exe.dynamic = some d → ∀ f ∈ d.preinitArray, Callable f → .call si .preinit f ∈ log) ∧
    log.Pairwise fun e e' => ¬ (e.IsInit ∧ e'.IsPreinit)

def Exe.HasPreinit (exe : Exe) : Prop := ∃ d, exe.dynamic = some d ∧ ∃ f ∈ d.preinitArray, Callable f

def Dynamic.HasInit (d : Dynamic) : Prop := d.initFunc ≠ 0 ∨ ∃ f ∈ d.initArray, Callable f

/-- There is one file for each name, whatever its path, and it does not change. -/
def World.ByName (W : World) : Prop :=
  ∀ t t' n n', basename n = basename n' → W.openLibrary t n = W.openLibrary t' n'

/-- A library other than `libdl.so` that is needed by an object with the section `d` has `d'`. -/
def Requires (W : World) (d d' : Dynamic) : Prop :=
  ∃ n ∈ d.needed, basename n ≠ "libdl.so".toList ∧
    ∃ tick img, W.openLibrary tick n = some img ∧ img.dynamic = some d'

/-! ### The calls of one object -/

section Calls

variable {s : State} {y : Ptr} {e : Event} {d : Dynamic}

theorem mem_callArray {stage : Stage} {funcs : List ℕ} :
    e ∈ callArray y stage funcs ↔ ∃ f ∈ funcs, Callable f ∧ .call y stage f = e := by
  simp [callArray, Callable, and_assoc]

theorem mem_callFunc {stage : Stage} {func : ℕ} :
    e ∈ callFunc y stage func ↔ func ≠ 0 ∧ e = .call y stage func := by
  unfold callFunc
  split
  · next h => simp [h]
  · next h => simp [h]

theorem mem_linkEvents (hd : (s.so y).dynamic = .present d) : e ∈ linkEvents s y ↔
    e = .constructors y ∨ ((s.so y).flags.exe = true ∧ e ∈ callArray y .preinit d.preinitArray) ∨
      e ∈ callFunc y .init d.initFunc ∨ e ∈ callArray y .initArray d.initArray ∨
      ((s.so y).flags.exe = false ∧ e = .notifyLoad y) := by
  rw [linkEvents, constructorEvents, hd]
  cases (s.so y).flags.exe <;> simp

theorem exists_init_iff (hd : (s.so y).dynamic = .present d) :
    (∃ e ∈ linkEvents s y, e.IsInit) ↔ d.HasInit := by
  constructor
  · rintro ⟨e, he, hi⟩
    rcases (mem_linkEvents hd).1 he with rfl | ⟨-, h⟩ | h | h | ⟨-, rfl⟩
    · cases hi
    · obtain ⟨f, -, -, rfl⟩ := mem_callArray.1 h
      cases hi
    · exact Or.inl (mem_callFunc.1 h).1
    · obtain ⟨f, hf, hc, -⟩ := mem_callArray.1 h
      exact Or.inr ⟨f, hf, hc⟩
    · cases hi
  · rintro (h | ⟨f, hf, hc⟩)
    · refine ⟨.call y .init d.initFunc, (mem_linkEvents hd).2 ?_, trivial⟩
      exact Or.inr (Or.inr (Or.inl (mem_callFunc.2 ⟨h, rfl⟩)))
    · refine ⟨.call y .initArray f, (mem_linkEvents hd).2 ?_, trivial⟩
      exact Or.inr (Or.inr (Or.inr (Or.inl (mem_callArray.2 ⟨f, hf, hc, rfl⟩))))

theorem preinit_of_mem (hd : (s.so y).dynamic = .present d) (he : e ∈ linkEvents s y)
    (hp : e.IsPreinit) : (s.so y).flags.exe = true ∧ ∃ f ∈ d.preinitArray, Callable f := by
  rcases (mem_linkEvents hd).1 he with rfl | ⟨hx, h⟩ | h | h | ⟨-, rfl⟩
  · cases hp
  · obtain ⟨f, hf, hc, -⟩ := mem_callArray.1 h
    exact ⟨hx, f, hf, hc⟩
  · obtain ⟨-, rfl⟩ := mem_callFunc.1 h
    cases hp
  · obtain ⟨f, -, -, rfl⟩ := mem_callArray.1 h
    cases hp
  · cases hp

/-- Within one object the order is right. -/
theorem linkEvents_pairwise (hd : (s.so y).dynamic = .present d) :
    (linkEvents s y).Pairwise fun e e' => ¬ (e.IsInit ∧ e'.IsPreinit) := by
  have hpre : ∀ e ∈ callArray y .preinit d.preinitArray, ¬ e.IsInit := by
    intro e he hi
    obtain ⟨f, -, -, rfl⟩ := mem_callArray.1 he
    cases hi
  have hrest : ∀ e ∈ callFunc y .init d.initFunc ++ callArray y .initArray d.initArray ++
      (if (s.so y).flags.exe then [] else [.notifyLoad y]), ¬ e.IsPreinit := by
    intro e he hp
    rw [List.append_assoc, List.mem_append, List.mem_append] at he
    rcases he with he | he | he
    · obtain ⟨-, rfl⟩ := mem_callFunc.1 he
      cases hp
    · obtain ⟨f, -, -, rfl⟩ := mem_callArray.1 he
      cases hp
    · split at he
      · cases he
      · rw [List.mem_singleton.1 he] at hp
        cases hp
  have heq : linkEvents s y = (.constructors y :: if (s.so y).flags.exe then
      callArray y .preinit d.preinitArray else []) ++ (callFunc y .init d.initFunc ++
        callArray y .initArray d.initArray ++ (if (s.so y).flags.exe then [] else [.notifyLoad y])) := by
    rw [linkEvents, constructorEvents, hd]
    simp [List.append_assoc]
  have hfirst : ∀ e ∈ (.constructors y :: if (s.so y).flags.exe then
      callArray y .preinit d.preinitArray else []), ¬ e.IsInit := by
    intro e he
    rcases List.mem_cons.1 he with rfl | he
    · exact id
    · split at he
      · exact hpre e he
      · cases he
  rw [heq, List.pairwise_append]
  refine ⟨List.pairwise_of_forall_mem_list fun e he _ _ h => hfirst e he h.1,
    List.pairwise_of_forall_mem_list fun _ _ e' he' h => hrest e' he' h.2, ?_⟩
  exact fun e he e' _ h => hfirst e he h.1

end Calls

/-! ### `__linker_init` -/

/-- After a successful `__linker_init`: the executable `A`, with the section `d₀`, and the libraries it
needs have been linked in the given order. -/
structure Started (W : World) (A : Ptr) (d₀ : Dynamic) (s : State) (order : List Ptr) : Prop where
  inv : Inv s [] []
  exe : (s.so A).flags.exe = true
  entry : (s.so A).dynamic = .present d₀
  loaded : ∀ y ∈ s.solist, y = .libdl ∨ y ∈ order
  usable : ∀ y ∈ order, Usable s y ∧ y ≠ .libdl
  library : ∀ y ∈ order, y ≠ A → (s.so y).flags.exe = false ∧ FromFile W (s.so y)
  required : ∀ y ∈ order, y ≠ A → Relation.TransGen (fun y x => x ∈ taken s y) A y
  mem : A ∈ order
  nodup : order.Nodup
  topo : Topo (taken s) [.libdl] order
  log : s.log = order.flatMap (linkEvents s)

section Init

variable {W : World} {exe : Exe} {beyond : ℕ → Ba.BaBits} {A : Ptr} {d₀ d : Dynamic} {s : State}
  {order : List Ptr} {x y : Ptr}

/-- Every entry that `link_image(A)` has added is needed by `A`: following the references backwards
ends at `A`. -/
theorem Linked.transGen_taken {P : CStr → Prop} {i₀ : Soinfo} {s₀ s₁ : State} {new : List Ptr}
    (h : Linked W P A i₀ s₀ s₁ s new true) (hg : ∀ y ∈ s.solist, Grounded (taken s) y) (hy : y ∈ new) :
    Relation.TransGen (fun y x => x ∈ taken s y) A y := by
  have hg' : ∀ z ∈ A :: new, Grounded (taken s) z := fun z hz => hg z (h.grown.mem_new hz)
  have ha := anchored_of_grounded (E := []) hg' (List.mem_cons_of_mem A hy)
  have hroot : ∀ z, (z ∈ ([] : List Ptr) ∨ z ∈ A :: new ∧ refs (taken s) (A :: new) [] z = 0) → z = A := by
    rintro z (hz | ⟨hz, h0⟩)
    · cases hz
    · rcases List.mem_cons.1 hz with rfl | hz
      · rfl
      · obtain ⟨w, hw, hzw⟩ := mem_held.1 (h.referenced z hz (h.linked rfl z hz))
        exact absurd hzw ((refs_eq_zero.1 h0).2 w hw)
  have hrefl : Relation.ReflTransGen (fun y x => x ∈ taken s y) A y := by
    clear hy
    induction ha with
    | root hr => rw [hroot _ hr]
    | step _ hx ih => exact ih.tail hx
  have hne : A ≠ y := fun he => (List.nodup_cons.1 h.grown.nodup_new).1 (he ▸ hy)
  exact (Relation.reflTransGen_iff_eq_or_transGen.1 hrefl).resolve_left (Ne.symm hne)

theorem linkerInit_started (hr : Returns (linkerInit W exe) (poweredOn beyond) (some A) s) :
    ∃ d₀ order, exe.dynamic = some d₀ ∧ Started W A d₀ s order := by
  have hi := (init_runInv W.names_true exe.names_true hr).inv
  obtain ⟨s₁, new, hl₁, h⟩ := (linkerInit_spec W.names_true exe.names_true).of_returns hr A rfl
  obtain ⟨order, hp, ht, hlog⟩ := h.ordered rfl
  have hperm : order.Perm (A :: new) := hp.trans List.perm_append_comm
  have hlk : (s.so A).flags.linked = true := by rw [h.flags]
  obtain ⟨d₀, hd₀, -⟩ := h.settled.needed hlk
  have hdyn : exe.dynamic = some d₀ := by
    have he := h.dynamic.symm.trans hd₀
    unfold Exe.entry at he
    cases hx : exe.dynamic with
    | none =>
        rw [hx] at he
        cases he
    | some d =>
        rw [hx] at he
        cases he
        rfl
  have hcases : ∀ y ∈ order, y = A ∨ y ∈ new := fun y hy => List.mem_cons.1 (hperm.mem_iff.1 hy)
  have hnew : ∀ y ∈ order, y ≠ A → y ∈ new := fun y hy hne => (hcases y hy).resolve_left hne
  refine ⟨d₀, order, hdyn, hi, by rw [h.flags]; rfl, hd₀, ?_, ?_, ?_, ?_, ?_, ?_, ht, ?_⟩
  · intro y hy
    rw [h.grown.solist] at hy
    refine (List.mem_append.1 hy).imp List.mem_singleton.1 hperm.mem_iff.2
  · intro y hy
    have hm := h.grown.mem_new (hperm.mem_iff.1 hy)
    have hold := h.grown.not_mem_old (hperm.mem_iff.1 hy)
    refine ⟨?_, fun he => hold (List.mem_singleton.2 he)⟩
    rcases hcases y hy with rfl | hy
    · exact ⟨hm, hlk, by rw [h.flags]; rfl⟩
    · exact ⟨hm, h.linked rfl y hy, by rw [(h.loaded y hy).done, h.linked rfl y hy]; rfl⟩
  · exact fun y hy hne => ⟨(h.loaded y (hnew y hy hne)).exe, (h.loaded y (hnew y hy hne)).file⟩
  · exact fun y hy hne => h.transGen_taken (fun z hz => hi.tidy.grounded z (by rwa [nodes_nil])) (hnew y hy hne)
  · exact hperm.mem_iff.2 List.mem_cons_self
  · exact hperm.nodup_iff.2 h.grown.nodup_new
  · rw [hlog, hl₁, List.nil_append]

namespace Started

theorem settled (h : Started W A d₀ s order) (hy : y ∈ order) : ∃ d, (s.so y).dynamic = .present d := by
  obtain ⟨hu, hne⟩ := h.usable y hy
  obtain ⟨d, hd, -⟩ := (h.inv.settled_of_mem hu.mem hne).needed hu.linked
  exact ⟨d, hd⟩

/-- What the executable refers to, directly or not, comes before it. -/
theorem before (h : Started W A d₀ s order) {a b : List Ptr} (hab : order = a ++ A :: b)
    (hx : Relation.TransGen (fun y x => x ∈ taken s y) A x) (hne : x ≠ .libdl) : x ∈ a := by
  refine (h.topo.transGen (fun z hz w hw => ?_) hab hx).resolve_left fun hl => hne (List.mem_singleton.1 hl)
  rw [List.mem_singleton.1 hz, taken, h.inv.libdl.taken] at hw
  cases hw

/-- The executable refers only to libraries. -/
theorem library_of_transGen (h : Started W A d₀ s order)
    (hx : Relation.TransGen (fun y x => x ∈ taken s y) A x) (hne : x ≠ .libdl) : x ∈ order ∧ x ≠ A := by
  obtain ⟨a, b, hab⟩ := List.append_of_mem h.mem
  have hxa := h.before hab hx hne
  have hn := h.nodup
  rw [hab] at hn ⊢
  exact ⟨List.mem_append_left _ hxa, fun he => (List.nodup_append.1 hn).2.2 x hxa A List.mem_cons_self he⟩

theorem requires_of_taken (h : Started W A d₀ s order) (hW : W.ByName) (hy : y ∈ order)
    (hd : (s.so y).dynamic = .present d) (hx : x ∈ taken s y) (hxo : x ∈ order) (hxA : x ≠ A) :
    ∃ d', (s.so x).dynamic = .present d' ∧ Requires W d d' := by
  obtain ⟨d', hd'⟩ := h.settled hxo
  obtain ⟨d₁, n, hd₁, hn, hl⟩ := (h.inv.needs_iff (h.usable y hy).1).2 hx
  rw [hd] at hd₁
  cases hd₁
  obtain ⟨tick, name, img, ho, hname, hdyn⟩ := (h.library x hxo hxA).2
  have hnm : basename n = basename name := (lookup_eq_some hl).2.symm.trans hname
  refine ⟨d', hd', n, hn, fun hlib => ?_, tick, img, (hW tick tick n name hnm).trans ho, ?_⟩
  · have hlk : lookup s n = some .libdl := by
      obtain ⟨tl, htl⟩ := List.head?_eq_some_iff.1 h.inv.wf.head
      have hnl : (s.so .libdl).name = basename n := h.inv.libdl.name.trans hlib.symm
      rw [lookup, htl, List.find?_cons_of_pos (by simp [hnl])]
    rw [hl] at hlk
    exact (h.usable x hxo).2 (Option.some.inj hlk)
  · rw [hdyn] at hd'
    cases hi : img.dynamic with
    | none =>
        rw [hi] at hd'
        cases hd'
    | some d₂ =>
        rw [hi] at hd'
        cases hd'
        rfl

theorem taken_of_requires (h : Started W A d₀ s order) (hW : W.ByName) {d' : Dynamic}
    (hy : y = A ∨ Relation.TransGen (fun y x => x ∈ taken s y) A y) (hyo : y ∈ order)
    (hd : (s.so y).dynamic = .present d) (hr : Requires W d d') :
    ∃ x, Relation.TransGen (fun y x => x ∈ taken s y) A x ∧ x ≠ .libdl ∧ x ∈ order ∧
      (s.so x).dynamic = .present d' := by
  obtain ⟨n, hn, hlib, tick, img, ho, hdyn⟩ := hr
  obtain ⟨x, hx, hl⟩ := h.inv.leads (h.usable y hyo).1 hd hn
  have hname := (lookup_eq_some hl).2
  have hne : x ≠ .libdl := by
    rintro rfl
    exact hlib (hname.symm.trans h.inv.libdl.name)
  have hchain : Relation.TransGen (fun y x => x ∈ taken s y) A x := by
    rcases hy with rfl | hy
    · exact .single hx
    · exact hy.tail hx
  obtain ⟨hxo, hxA⟩ := h.library_of_transGen hchain hne
  refine ⟨x, hchain, hne, hxo, ?_⟩
  obtain ⟨tick', name, img', ho', hname', hdyn'⟩ := (h.library x hxo hxA).2
  have himg := hW tick tick' n name (hname.symm.trans hname')
  rw [ho, ho'] at himg
  cases himg
  rw [hdyn', hdyn]
  rfl

/-- A library to which the executable refers, directly or not, is one that it requires. -/
theorem transGen_requires (h : Started W A d₀ s order) (hW : W.ByName)
    (hx : Relation.TransGen (fun y x => x ∈ taken s y) A x) (hne : x ≠ .libdl) :
    ∃ d, (s.so x).dynamic = .present d ∧ Relation.TransGen (Requires W) d₀ d := by
  induction hx with
  | single hx =>
      obtain ⟨hxo, hxA⟩ := h.library_of_transGen (.single hx) hne
      obtain ⟨d, hd, hr⟩ := h.requires_of_taken hW h.mem h.entry hx hxo hxA
      exact ⟨d, hd, .single hr⟩
  | @tail y x hy hx ih =>
      have hyl : y ≠ .libdl := by
        rintro rfl
        rw [taken, h.inv.libdl.taken] at hx
        cases hx
      obtain ⟨d, hd, hr⟩ := ih hyl
      obtain ⟨hxo, hxA⟩ := h.library_of_transGen (hy.tail hx) hne
      obtain ⟨d', hd', hr'⟩ := h.requires_of_taken hW (h.library_of_transGen hy hyl).1 hd hx hxo hxA
      exact ⟨d', hd', hr.tail hr'⟩

theorem exists_of_requires (h : Started W A d₀ s order) (hW : W.ByName)
    (hr : Relation.TransGen (Requires W) d₀ d) :
    ∃ x, Relation.TransGen (fun y x => x ∈ taken s y) A x ∧ x ≠ .libdl ∧ x ∈ order ∧
      (s.so x).dynamic = .present d := by
  induction hr with
  | single hr => exact h.taken_of_requires hW (Or.inl rfl) h.mem h.entry hr
  | tail _ hr ih =>
      obtain ⟨y, hy, -, hyo, hd⟩ := ih
      exact h.taken_of_requires hW (Or.inr hy) hyo hd hr

/-- The executable's functions are called. -/
theorem preinit_mem (h : Started W A d₀ s order) {f : ℕ} (hf : f ∈ d₀.preinitArray) (hc : Callable f) :
    .call A .preinit f ∈ linkEvents s A :=
  (mem_linkEvents h.entry).2 (Or.inr (Or.inl ⟨h.exe, mem_callArray.2 ⟨f, hf, hc, rfl⟩⟩))

/-- Only the executable has `DT_PREINIT_ARRAY` functions called. -/
theorem eq_of_preinit (h : Started W A d₀ s order) (hy : y ∈ order) {e : Event} (he : e ∈ linkEvents s y)
    (hp : e.IsPreinit) : y = A ∧ ∃ f ∈ d₀.preinitArray, Callable f := by
  obtain ⟨d, hd⟩ := h.settled hy
  obtain ⟨hx, hf⟩ := preinit_of_mem hd he hp
  by_cases hyA : y = A
  · subst hyA
    rw [h.entry] at hd
    cases hd
    exact ⟨rfl, hf⟩
  · rw [(h.library y hy hyA).1] at hx
    cases hx

theorem pairwise_iff (h : Started W A d₀ s order) (hW : W.ByName) :
    (s.log.Pairwise fun e e' => ¬ (e.IsInit ∧ e'.IsPreinit)) ↔
      (¬ ∃ f ∈ d₀.preinitArray, Callable f) ∨
        ∀ d, Relation.TransGen (Requires W) d₀ d → ¬ d.HasInit := by
  constructor
  · intro hpw
    by_contra hcon
    obtain ⟨hpre, hlib⟩ := not_or.1 hcon
    obtain ⟨f, hf, hc⟩ := not_not.1 hpre
    obtain ⟨d, hd⟩ := not_forall.1 hlib
    obtain ⟨hr, hinit⟩ := Classical.not_imp.1 hd
    rw [not_not] at hinit
    obtain ⟨x, hchain, hne, -, hd⟩ := h.exists_of_requires hW hr
    obtain ⟨e, he, hi⟩ := (exists_init_iff hd).2 hinit
    obtain ⟨a, b, hab⟩ := List.append_of_mem h.mem
    have hxa := h.before hab hchain hne
    rw [h.log, hab, List.flatMap_append, List.pairwise_append] at hpw
    refine hpw.2.2 e (List.mem_flatMap.2 ⟨x, hxa, he⟩) (.call A .preinit f) ?_ ⟨hi, trivial⟩
    exact List.mem_flatMap.2 ⟨A, List.mem_cons_self, h.preinit_mem hf hc⟩
  · intro hcond
    rw [h.log, List.pairwise_flatMap]
    refine ⟨fun y hy => ?_, ?_⟩
    · obtain ⟨d, hd⟩ := h.settled hy
      exact linkEvents_pairwise hd
    · refine List.Pairwise.imp_of_mem ?_ h.nodup
      rintro y z hy hz hyz e he e' he' ⟨hi, hp⟩
      obtain ⟨rfl, hpre⟩ := h.eq_of_preinit hz he' hp
      obtain ⟨d, hd, hr⟩ := h.transGen_requires hW (h.required y hy hyz) (h.usable y hy).2
      exact hcond.elim (fun hno => hno hpre) fun hno => hno d hr ((exists_init_iff hd).1 ⟨e, he, hi⟩)

end Started

/-- The functions of `DT_PREINIT_ARRAY` run first if and only if there are none, or no library that
the executable requires has an initialization function. -/
theorem preinit_first_iff (hW : W.ByName)
    (hr : Returns (linkerInit W exe) (poweredOn beyond) (some A) s) :
    PreinitFirst exe A s.log ↔ ¬ exe.HasPreinit ∨
      ∀ d d', exe.dynamic = some d → Relation.TransGen (Requires W) d d' → ¬ d'.HasInit := by
  obtain ⟨d₀, order, hdyn, h⟩ := linkerInit_started hr
  have hpre : exe.HasPreinit ↔ ∃ f ∈ d₀.preinitArray, Callable f := by
    simp [Exe.HasPreinit, hdyn]
  have hreq : (∀ d d', exe.dynamic = some d → Relation.TransGen (Requires W) d d' → ¬ d'.HasInit) ↔
      ∀ d, Relation.TransGen (Requires W) d₀ d → ¬ d.HasInit := by
    refine ⟨fun hall d => hall d₀ d hdyn, fun hall d d' hd => ?_⟩
    rw [hdyn] at hd
    cases hd
    exact hall d'
  rw [hpre, hreq, ← h.pairwise_iff hW, PreinitFirst]
  refine and_iff_right fun d hd f hf hc => ?_
  rw [hdyn] at hd
  cases hd
  rw [h.log]
  exact List.mem_flatMap.2 ⟨A, h.mem, h.preinit_mem hf hc⟩

end Init

/-- `libi.so` has a `DT_INIT` function. -/
def preinitWorld : World where
  arch := .arm
  openLibrary := fun _ name =>
    if basename name = "libi.so".toList then
      some { extents := some (0xb0000000, 0x1000)
             dynamic := some { tables := true, needed := [], relocates := true, initFunc := 0xb0000100 } }
    else none

/-- An executable with a `DT_PREINIT_ARRAY` that needs `libi.so`. -/
def preinitExe : Exe :=
  { argv0 := "app".toList, size := 0x1000
    dynamic := some { tables := true, needed := ["libi.so".toList], relocates := true,
                      preinitArray := [0x8100] } }

theorem byName_preinit : preinitWorld.ByName := by
  intro t t' n n' h
  simp only [preinitWorld, h]

theorem returns_preinit : Returns (linkerInit preinitWorld preinitExe) (poweredOn noBits)
    (some (.pool 0)) (launch preinitWorld preinitExe noBits).linker := by
  have h : (linkerInit preinitWorld preinitExe (poweredOn noBits)).toOption.map (·.1) =
      some (some (.pool 0)) := by decide
  unfold launch
  cases hr : linkerInit preinitWorld preinitExe (poweredOn noBits) with
  | error f =>
      rw [hr] at h
      cases h
  | ok p =>
      rw [hr] at h
      obtain ⟨r, s⟩ := p
      cases h
      exact hr

theorem preinit_first_iff_example :
    PreinitFirst preinitExe (.pool 0) (launch preinitWorld preinitExe noBits).linker.log ↔
      ¬ preinitExe.HasPreinit ∨ ∀ d d', preinitExe.dynamic = some d →
        Relation.TransGen (Requires preinitWorld) d d' → ¬ d'.HasInit :=
  preinit_first_iff byName_preinit returns_preinit

/-- The `DT_INIT` function of `libi.so` is called before the executable's `DT_PREINIT_ARRAY`. -/
theorem library_init_first : ∃ s, Returns (linkerInit preinitWorld preinitExe) (poweredOn noBits)
    (some (.pool 0)) s ∧ s.log = [.constructors (.pool 1), .call (.pool 1) .init 0xb0000100,
      .notifyLoad (.pool 1), .constructors (.pool 0), .call (.pool 0) .preinit 0x8100] ∧
    ¬ PreinitFirst preinitExe (.pool 0) s.log := by
  have hlog : (launch preinitWorld preinitExe noBits).linker.log = [.constructors (.pool 1),
      .call (.pool 1) .init 0xb0000100, .notifyLoad (.pool 1), .constructors (.pool 0),
      .call (.pool 0) .preinit 0x8100] := by decide
  refine ⟨_, returns_preinit, hlog, fun h => ?_⟩
  have hpw := h.2
  rw [hlog] at hpw
  simp [Event.IsInit, Event.IsPreinit] at hpw

end Bionic.Linker
