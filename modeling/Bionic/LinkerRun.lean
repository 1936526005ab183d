import Bionic.LinkerUnload

/-! # Runs of `dlopen` and `dlclose`

A run starts with `__linker_init` and is a finite sequence of `dlopen` and `dlclose` calls, in which
every `dlclose` is given a handle that a `dlopen` returned and that has not been closed since
(`Matched`).  `Reach` are the states reached by runs whose steps meet a condition.

`RunInv` is what holds between the calls.  `dlopen_spec` and `dlclose_spec` keep it; for a `dlclose`
this needs that no `refcount` has wrapped around and that `libdl_info` does not lose its last
reference (`Keeps`). -/

namespace Bionic.Linker

open StateExcept RefGraph

inductive Op where
  | dlopen (filename : CStr)
  | dlclose (handle : Ptr)
deriving DecidableEq, Repr

/-- The linker, the outstanding handles, and whether some `dlopen` has returned NULL. -/
structure System where
  linker : State
  handles : List Ptr
  failed : Bool

def step (W : World) (S : System) : Op → Except Fault System
  | .dlopen filename =>
      (dlopen W filename S.linker).map fun p =>
        ⟨p.2, p.1.toList ++ S.handles, S.failed || p.1.isNone⟩
  | .dlclose handle =>
      (dlclose W handle S.linker).map fun p => ⟨p.2, S.handles.erase handle, S.failed⟩

/-- A `dlclose` is given an outstanding handle. -/
def Matched (S : System) : Op → Prop
  | .dlopen _ => True
  | .dlclose handle => handle ∈ S.handles

instance (S : System) : DecidablePred (Matched S)
  | .dlopen _ => isTrue trivial
  | .dlclose handle => inferInstanceAs (Decidable (handle ∈ S.handles))

/-- The states reached by runs of matched calls whose steps meet `ok`. -/
inductive Reach (W : World) (exe : Exe) (beyond : ℕ → Ba.BaBits) (ok : System → Op → Prop) :
    System → Prop
  | init {e : Ptr} {s : State} : Returns (linkerInit W exe) (poweredOn beyond) (some e) s →
      Reach W exe beyond ok ⟨s, [], false⟩
  | step {S S' : System} {op : Op} : Reach W exe beyond ok S → Matched S op → ok S op →
      step W S op = .ok S' → Reach W exe beyond ok S'

/-! ### References to an entry -/

/-- The number of references to `z`: outstanding handles and `DT_NEEDED` entries. -/
def System.refs (S : System) (z : Ptr) : ℕ := total S.linker [] S.handles z

/-- `z` keeps a reference when the handle `h` is given up: nothing refers to it anyway, or a chain of
references leads to it from another handle or from an entry that nothing refers to. -/
def System.KeptWithout (S : System) (h z : Ptr) : Prop :=
  Anchored (taken S.linker) (fun y => y ∈ S.handles.erase h ∨ y ∈ S.linker.solist ∧ S.refs y = 0) z

/-- Before a `dlclose` no entry has `2 ^ 32` references, and `libdl_info` will keep one. -/
def Keeps (S : System) : Op → Prop
  | .dlopen _ => True
  | .dlclose h => (∀ z, S.refs z < 2 ^ 32) ∧ S.KeptWithout h .libdl

/-! ### What entries need -/

/-- `x` is what a `DT_NEEDED` name of `y` leads to. -/
def Needs (s : State) (y x : Ptr) : Prop :=
  ∃ d n, (s.so y).dynamic = .present d ∧ n ∈ d.needed ∧ lookup s n = some x

section Needs

variable {s : State} {E : List Ptr} {x y : Ptr}

theorem Inv.usable_of_taken (h : Inv s E []) (hy : y ∈ s.solist) (hx : x ∈ taken s y) : Usable s x :=
  h.tidy.usable y (by rwa [nodes_nil]) x hx

theorem Inv.settled_of_mem (h : Inv s E []) (hy : y ∈ s.solist) (hne : y ≠ .libdl) : Settled s y :=
  h.settled y (by rwa [nodes_nil]) hne

/-- A usable entry refers to what its `DT_NEEDED` names lead to. -/
theorem Inv.leads (h : Inv s E []) (hu : Usable s y) {d : Dynamic} {n : CStr}
    (hd : (s.so y).dynamic = .present d) (hn : n ∈ d.needed) :
    ∃ x ∈ taken s y, lookup s n = some x := by
  have hne : y ≠ .libdl := by
    rintro rfl
    rw [h.libdl.dynamic] at hd
    cases hd
  obtain ⟨d', hd', hl⟩ := (h.settled_of_mem hu.mem hne).needed hu.linked
  rw [hd] at hd'
  cases hd'
  obtain ⟨i, hi, rfl⟩ := List.getElem_of_mem hn
  have hlen : i < (taken s y).length := hl.length_eq ▸ hi
  exact ⟨_, List.getElem_mem hlen, (List.forall₂_iff_get.1 hl).2 i hi hlen⟩

theorem Inv.needs_iff (h : Inv s E []) (hu : Usable s y) : Needs s y x ↔ x ∈ taken s y := by
  constructor
  · rintro ⟨d, n, hd, hn, hl⟩
    obtain ⟨z, hz, hlz⟩ := h.leads hu hd hn
    rw [hl] at hlz
    cases hlz
    exact hz
  · intro hx
    have hne : y ≠ .libdl := by
      rintro rfl
      rw [taken, h.libdl.taken] at hx
      cases hx
    obtain ⟨d, hd, hl⟩ := (h.settled_of_mem hu.mem hne).needed hu.linked
    obtain ⟨i, hi, rfl⟩ := List.getElem_of_mem hx
    have hlen : i < d.needed.length := hl.length_eq ▸ hi
    exact ⟨d, _, hd, List.getElem_mem hlen, (List.forall₂_iff_get.1 hl).2 i hlen hi⟩

/-- What a usable entry needs, directly or not, is usable and reached by references. -/
theorem Inv.transGen_needs (h : Inv s E []) (hu : Usable s y) (hx : Relation.TransGen (Needs s) y x) :
    Usable s x ∧ Relation.TransGen (fun y x => x ∈ taken s y) y x := by
  induction hx with
  | single hx =>
      have hx' := (h.needs_iff hu).1 hx
      exact ⟨h.usable_of_taken hu.mem hx', .single hx'⟩
  | tail _ hx ih =>
      have hx' := (h.needs_iff ih.1).1 hx
      exact ⟨h.usable_of_taken ih.1.mem hx', ih.2.tail hx'⟩

end Needs

/-! ### The invariant of a run -/

/-- Every reference is to an entry whose name has `P`. -/
structure RunInv (P : CStr → Prop) (S : System) : Prop where
  inv : Inv S.linker S.handles []
  named : ∀ y ∈ S.linker.solist, ∀ x ∈ taken S.linker y, P (S.linker.so x).name
  opened : ∀ x ∈ S.handles, P (S.linker.so x).name
  /-- An entry to which nothing refers is `libdl_info`, the executable, or failed to link. -/
  resident : ∀ y ∈ S.linker.solist, S.refs y = 0 →
    y = .libdl ∨ (S.linker.so y).flags.exe = true ∨ (S.linker.so y).flags.error = true
  errors : ∀ y ∈ S.linker.solist, (S.linker.so y).flags.error = true → S.failed = true
  exe : ∀ y ∈ S.linker.solist, (S.linker.so y).flags.exe = true → Usable S.linker y
  log : ∀ e ∈ S.linker.log, e.si ≠ .libdl ∧ e.HasPrev

theorem Inv.grow {P : CStr → Prop} {s s' : State} {E new : List Ptr} (h : Inv s E [])
    (hg : Grown P s s' new) (hs : ∀ y ∈ new, Settled s' y) : Inv s' E [] := by
  refine ⟨hg.wf, ?_, fun x hx => hg.usable_old (h.tokens x hx), ?_, ?_, ?_⟩
  · rw [nodes_nil]
    apply hg.tidy
    rw [← nodes_nil]
    exact h.tidy
  · intro x hx
    have hheld : held (taken s') s.solist = held (taken s) s.solist :=
      held_congr fun y hy => hg.taken_old hy
    rw [hg.counts x hx, total, refs, nodes_nil, hg.solist, held_append, hheld, List.count_append,
      ← Nat.add_assoc, BitVec.ofNat_add (E.count x + _)]
    congr 1
    by_cases hxs : x ∈ s.solist
    · rw [before, if_pos hxs, h.counts x hxs, total, refs, nodes_nil]
    · have h₁ : x ∉ E := fun hm => hxs (h.mem hm)
      have h₂ : x ∉ held (taken s) s.solist := by
        intro hm
        obtain ⟨y, hy, hxy⟩ := mem_held.1 hm
        exact hxs (h.usable_of_taken hy hxy).mem
      rw [before, if_neg hxs, List.count_eq_zero.2 h₁, List.count_eq_zero.2 h₂]
      rfl
  · intro y hy hne
    rw [nodes_nil, hg.solist] at hy
    rcases List.mem_append.1 hy with hy | hy
    · exact hg.settled hy (h.settled_of_mem hy hne)
    · exact hs y hy
  · exact h.libdl.trans (hg.same _ h.wf.libdl_mem)

theorem Inv.perm {s : State} {E E' D : List Ptr} (h : Inv s E D) (hp : E.Perm E') : Inv s E' D := by
  refine ⟨h.wf, h.tidy, fun x hx => h.tokens x (hp.mem_iff.2 hx), fun x hx => ?_, h.settled, h.libdl⟩
  rw [h.counts x hx, total, total, refs, refs, hp.count_eq]

section Raise

variable {s : State} {x : Ptr}

theorem raise_same (z : Ptr) : Same (s.so z) ((s.raise x).so z) :=
  Same.update (fun i => Same.refcount i _) s x z

theorem raise_taken : taken (s.raise x) = taken s := funext fun z => (raise_same z).taken

theorem raise_total (D E : List Ptr) (z : Ptr) : total (s.raise x) D E z = total s D E z := by
  rw [total, raise_taken]
  rfl

theorem Inv.raise {E : List Ptr} (h : Inv s E []) (hx : Usable s x) : Inv (s.raise x) (x :: E) [] := by
  refine h.shrink (h.wf.congr rfl rfl rfl) (.refl _) (fun z _ => raise_same z) raise_taken rfl
    (fun y hy z hz => (h.tidy.usable y hy z hz).mem) (fun z hz => ?_) fun z hz => ?_
  · rcases List.mem_cons.1 hz with rfl | hz
    · exact ⟨hx, hx.mem⟩
    · exact ⟨h.tokens z hz, h.mem hz⟩
  · rw [raise_total, total_cons, State.raise, State.update_so]
    split
    · next he =>
      subst he
      rw [if_pos rfl, BitVec.ofNat_add, ← h.counts z hz]
      rfl
    · next hne =>
      rw [if_neg (Ne.symm hne), Nat.add_zero]
      exact h.counts z hz

end Raise

/-! ### `dlopen` -/

section Open

variable {W : World} {P : CStr → Prop} {S : System}

/-- What a `dlopen` has done: `find_library` has added the entries `new`, and the entry returned has
one more reference. -/
structure Opened (W : World) (P : CStr → Prop) (filename : CStr) (S S' : System) (new : List Ptr) (r : Option Ptr) :
    Prop where
  handles : S'.handles = r.toList ++ S.handles
  failed : S'.failed = (S.failed || r.isNone)
  found : ∃ s₁, Found W P filename S.linker s₁ new r ∧ S'.linker = r.elim s₁ s₁.raise

theorem dlopen_spec (hW : W.Names P) {s : State} (hw : Wf s) (filename : CStr) :
    Total (dlopen W filename) s fun r s' => ∃ new s₁, Found W P filename s s₁ new r ∧
      s' = r.elim s₁ s₁.raise ∧ (new ≠ [] ↔ Initializes W filename s) := by
  unfold dlopen
  apply total_bind
  apply (findLibrary_spec hW (findLibrary_finds hW SO_MAX 2 (le_refl _)) hw hw.length_pos filename).mono
  rintro r s₁ ⟨new, hfound, hnew⟩
  cases r with
  | none => exact total_pure.2 ⟨new, s₁, hfound, rfl, hnew⟩
  | some x =>
      apply total_bind
      rw [total_modify, total_pure]
      exact ⟨new, s₁, hfound, rfl, hnew⟩

theorem step_dlopen (hW : W.Names P) (h : RunInv P S) (filename : CStr) :
    ∃ S' new r, step W S (.dlopen filename) = .ok S' ∧ Opened W P filename S S' new r := by
  obtain ⟨r, s', hr, new, s₁, hfound, rfl, -⟩ := dlopen_spec hW h.inv.wf filename
  have hr' : dlopen W filename S.linker = .ok (r, r.elim s₁ s₁.raise) := hr
  exact ⟨⟨r.elim s₁ s₁.raise, r.toList ++ S.handles, S.failed || r.isNone⟩, new, r,
    by rw [step, hr']; rfl, rfl, rfl, s₁, hfound, rfl⟩

variable {S' : System} {filename : CStr} {new : List Ptr} {r : Option Ptr}

namespace Opened

theorem solist (h : Opened W P filename S S' new r) : S'.linker.solist = S.linker.solist ++ new := by
  obtain ⟨s₁, hf, he⟩ := h.found
  rw [he]
  cases r with
  | none => exact hf.grown.solist
  | some x => exact hf.grown.solist

/-- Entries and their references are those that `find_library` has left. -/
theorem frame (h : Opened W P filename S S' new r) : ∃ s₁, Found W P filename S.linker s₁ new r ∧
    S'.linker.solist = s₁.solist ∧ S'.linker.log = s₁.log ∧ (∀ z, Same (s₁.so z) (S'.linker.so z)) ∧
    taken S'.linker = taken s₁ := by
  obtain ⟨s₁, hf, he⟩ := h.found
  refine ⟨s₁, hf, ?_⟩
  rw [he]
  cases r with
  | none => exact ⟨rfl, rfl, fun _ => Same.refl _, rfl⟩
  | some x => exact ⟨rfl, rfl, raise_same, raise_taken⟩

theorem inv (h : Opened W P filename S S' new r) (hi : Inv S.linker S.handles []) :
    Inv S'.linker S'.handles [] := by
  obtain ⟨s₁, hf, he⟩ := h.found
  have h₁ := hi.grow hf.grown fun y hy => (hf.loaded y hy).toSettled
  rw [he, h.handles]
  cases r with
  | none => exact h₁
  | some x => exact h₁.raise (hf.usable x rfl)

/-- No reference is given up. -/
theorem refs_le (h : Opened W P filename S S' new r) (z : Ptr) : S.refs z ≤ S'.refs z := by
  obtain ⟨s₁, hf, hsol, -, -, htk⟩ := h.frame
  have hheld : held (taken s₁) S.linker.solist = held (taken S.linker) S.linker.solist :=
    held_congr fun y hy => hf.grown.taken_old hy
  rw [System.refs, System.refs, total, total, refs, refs, htk, nodes_nil, nodes_nil, h.solist, h.handles,
    held_append, hheld, List.count_append, List.count_append]
  omega

theorem mem_held_pos (h : Opened W P filename S S' new r) {z : Ptr}
    (hz : r = some z ∨ z ∈ held (taken S'.linker) new) : S'.refs z ≠ 0 := by
  intro h0
  obtain ⟨hE, hn⟩ := refs_eq_zero.1 h0
  rcases hz with rfl | hz
  · rw [h.handles] at hE
    exact hE List.mem_cons_self
  · obtain ⟨y, hy, hzy⟩ := mem_held.1 hz
    refine hn y ?_ hzy
    rw [nodes_nil, h.solist]
    exact List.mem_append_right _ hy

theorem runInv (h : Opened W P filename S S' new r) (hi : RunInv P S) (hP : P (basename filename)) :
    RunInv P S' := by
  obtain ⟨s₁, hf, hsol, hlog, hsame, htk⟩ := h.frame
  have hold : ∀ y ∈ S.linker.solist, Same (S.linker.so y) (S'.linker.so y) :=
    fun y hy => (hf.grown.same y hy).trans (hsame y)
  refine ⟨h.inv hi.inv, ?_, ?_, ?_, ?_, ?_, ?_⟩
  · intro y hy x hx
    rw [htk] at hx
    rw [(hsame x).name]
    rw [h.solist] at hy
    rcases List.mem_append.1 hy with hy | hy
    · rw [hf.grown.taken_old hy] at hx
      have hu := hi.inv.usable_of_taken hy hx
      rw [(hf.grown.same x hu.mem).name]
      exact hi.named y hy x hx
    · exact hf.grown.named y hy x hx
  · intro x hx
    rw [h.handles] at hx
    rcases List.mem_append.1 hx with hx | hx
    · have hr : r = some x := Option.mem_toList.1 hx
      rw [(hsame x).name, (lookup_eq_some (hf.lookup x hr)).2]
      exact hP
    · rw [(hold x (hi.inv.mem hx)).name]
      exact hi.opened x hx
  · intro y hy h0
    rw [h.solist] at hy
    rcases List.mem_append.1 hy with hy | hy
    · rw [(hold y hy).flags]
      have := h.refs_le y
      exact hi.resident y hy (by omega)
    · rw [(hsame y).flags]
      have hd := (hf.loaded y hy).done
      cases hlk : (s₁.so y).flags.linked with
      | true =>
          have hz := hf.referenced y hy hlk
          rw [← htk] at hz
          exact absurd h0 (h.mem_held_pos hz)
      | false =>
          rw [hlk] at hd
          exact Or.inr (Or.inr hd)
  · intro y hy he
    rw [h.failed]
    rw [h.solist] at hy
    rcases List.mem_append.1 hy with hy | hy
    · rw [(hold y hy).flags] at he
      rw [hi.errors y hy he]
      rfl
    · rw [(hsame y).flags, (hf.loaded y hy).done] at he
      cases r with
      | none => exact Bool.or_true _
      | some x =>
          rw [hf.linked rfl y hy] at he
          cases he
  · intro y hy he
    rw [h.solist] at hy
    rcases List.mem_append.1 hy with hy | hy
    · rw [(hold y hy).flags] at he
      exact (hi.exe y hy he).of_same (by rw [h.solist]; exact List.mem_append_left _ hy) (hold y hy)
    · rw [(hsame y).flags, (hf.loaded y hy).exe] at he
      cases he
  · intro e he
    rw [hlog] at he
    obtain ⟨es, hes, hp⟩ := hf.grown.log
    rw [hes] at he
    rcases List.mem_append.1 he with he | he
    · exact hi.log e he
    · exact ⟨fun hl => (hp e he).1 (hl ▸ hi.inv.wf.libdl_mem), (hp e he).2⟩

end Opened

end Open

/-! ### `dlclose` -/

section Close

variable {W : World} {P : CStr → Prop} {S S' : System} {handle : Ptr}

/-- What a `dlclose` has done: the entries that keep a reference are still there. -/
structure Closed (handle : Ptr) (S S' : System) : Prop where
  handles : S'.handles = S.handles.erase handle
  failed : S'.failed = S.failed
  released : Released (S.handles.erase handle) (S.KeptWithout handle) []
    (handle :: S.handles.erase handle) (S.handles.erase handle) S.linker S'.linker

theorem refs_eq_total (hm : handle ∈ S.handles) (z : Ptr) :
    S.refs z = total S.linker [] (handle :: S.handles.erase handle) z := by
  rw [System.refs, total, total, refs, refs, (List.perm_cons_erase hm).count_eq]

theorem supported_keptWithout (h : RunInv P S) (hm : handle ∈ S.handles) :
    Supported (taken S.linker) (nodes S.linker []) (handle :: S.handles.erase handle)
      (S.handles.erase handle) (S.KeptWithout handle) := by
  have hroot : (fun y => y ∈ S.handles.erase handle ∨ y ∈ S.linker.solist ∧ S.refs y = 0) =
      fun y => y ∈ S.handles.erase handle ∨ y ∈ nodes S.linker [] ∧
        refs (taken S.linker) (nodes S.linker []) (handle :: S.handles.erase handle) y = 0 := by
    funext y
    rw [refs_eq_total hm, total, nodes_nil]
  unfold System.KeptWithout
  rw [hroot]
  refine supported_anchored (fun z hz => ?_) fun y hy z hz => ?_
  · rw [nodes_nil]
    exact h.inv.mem (List.mem_of_mem_erase hz)
  · rw [nodes_nil]
    exact (h.inv.tidy.usable y hy z hz).mem

theorem step_dlclose (h : RunInv P S) (hm : handle ∈ S.handles) (hk : Keeps S (.dlclose handle)) :
    ∃ S', step W S (.dlclose handle) = .ok S' ∧ Closed handle S S' := by
  have hlen : (nodes S.linker []).length < unloadDepth := by
    have := h.inv.wf.length_le
    rw [nodes_nil, unloadDepth]
    omega
  have hu := unloadLibrary_unloads W hk.2 unloadDepth S.linker handle (S.handles.erase handle) []
    (h.inv.perm (List.perm_cons_erase hm)) (by simp) (fun _ hz => hz)
    (fun z => by rw [← refs_eq_total hm]; exact hk.1 z) (supported_keptWithout h hm) hlen
  have hd : Total (dlclose W handle) S.linker fun _ s' =>
      Released (S.handles.erase handle) (S.KeptWithout handle) [] (handle :: S.handles.erase handle)
        (S.handles.erase handle) S.linker s' := by
    unfold dlclose
    apply total_bind
    exact hu.mono fun _ s' hs' => total_pure.2 hs'
  obtain ⟨_, s', hr, hrel⟩ := hd
  have hr' : dlclose W handle S.linker = .ok ((), s') := hr
  exact ⟨⟨s', S.handles.erase handle, S.failed⟩, by rw [step, hr']; rfl, rfl, rfl, hrel⟩

namespace Closed

theorem runInv (h : Closed handle S S') (hi : RunInv P S) (hm : handle ∈ S.handles) :
    RunInv P S' := by
  have hr := h.released
  have hsub := hr.shrunk.sub.subset
  have hinv : Inv S'.linker S'.handles [] := by
    rw [h.handles]
    exact hr.inv
  have hmem : ∀ x ∈ S'.handles, x ∈ S.handles := by
    intro x hx
    rw [h.handles] at hx
    exact List.mem_of_mem_erase hx
  refine ⟨hinv, ?_, ?_, ?_, ?_, ?_, ?_⟩
  · intro y hy x hx
    have hu := hinv.usable_of_taken hy hx
    rw [(hr.shrunk.same x hu.mem).name]
    rw [hr.shrunk.taken] at hx
    exact hi.named y (hsub hy) x hx
  · intro x hx
    rw [(hr.shrunk.same x (hinv.mem hx)).name]
    exact hi.opened x (hmem x hx)
  · intro y hy h0
    rw [(hr.shrunk.same y hy).flags]
    apply hi.resident y (hsub hy)
    rw [refs_eq_total hm]
    rw [System.refs, h.handles] at h0
    exact hr.zero y hy h0
  · intro y hy he
    rw [(hr.shrunk.same y hy).flags] at he
    rw [h.failed]
    exact hi.errors y (hsub hy) he
  · intro y hy he
    rw [(hr.shrunk.same y hy).flags] at he
    exact (hi.exe y (hsub hy) he).of_same hy (hr.shrunk.same y hy)
  · intro e he
    obtain ⟨es, hes, hsw⟩ := hr.shrunk.log
    rw [hes] at he
    rcases List.mem_append.1 he with he | he
    · exact hi.log e he
    · obtain ⟨-, hgone, hp⟩ := hsw.about e he
      refine ⟨fun hl => hgone ?_, hp⟩
      rw [hl]
      exact hinv.wf.libdl_mem

/-- An entry that keeps a reference is not concerned by the calls that were made. -/
theorem untouched (h : Closed handle S S') {x : Ptr} (hx : S.KeptWithout handle x) :
    x ∈ S'.linker.solist ∧ Logs (· ≠ x) S.linker S'.linker := by
  have hx' := (mem_nodes.1 (h.released.supported x hx).1).1
  obtain ⟨es, hes, hsw⟩ := h.released.shrunk.log
  refine ⟨hx', es, hes, fun e he => ⟨fun hex => ?_, (hsw.about e he).2.2⟩⟩
  exact (hsw.about e he).2.1 (hex ▸ hx')

end Closed

end Close

/-! ### `__linker_init` -/

section Init

variable {W : World} {P : CStr → Prop} {exe : Exe} {beyond : ℕ → Ba.BaBits}

/-- The executable's own `DT_NEEDED` entries name only libraries with `P`. -/
def Exe.Names (exe : Exe) (P : CStr → Prop) : Prop :=
  ∀ d, exe.dynamic = some d → ∀ n ∈ d.needed, P (basename n)

/-- The linker before the executable has an entry, with the buddy allocator initialised. -/
def booted (beyond : ℕ → Ba.BaBits) : State := { poweredOn beyond with ba := Ba.start beyond }

theorem booted_wf : Wf (booted beyond) := by
  refine ⟨rfl, by simp [booted, poweredOn], ?_, Nat.zero_le _⟩
  intro x hx
  exact Or.inl (by simpa [booted, poweredOn] using hx)

theorem booted_inv : Inv (booted beyond) [] [] := by
  have hmem : ∀ y ∈ (booted beyond).solist, y = .libdl := fun y hy => List.mem_singleton.1 hy
  refine ⟨booted_wf, ⟨?_, ?_⟩, by simp, ?_, ?_, Same.refl _⟩
  · intro y hy x hx
    rw [nodes_nil] at hy
    rw [hmem y hy] at hx
    cases hx
  · intro y hy
    rw [nodes_nil] at hy
    refine Grounded.intro fun x hx => ?_
    rw [hmem y hy] at hx
    cases hx
  · intro x hx
    rw [hmem x hx]
    rfl
  · intro y hy hne
    rw [nodes_nil] at hy
    exact absurd (hmem y hy) hne

/-- The entry of the executable when `link_image` starts. -/
def Exe.entry (exe : Exe) : Soinfo :=
  { name := exe.argv0, flags := { exe := true }, size := exe.size, mapped := true,
    dynamic := exe.dynamic.elim .missing .present }

theorem linkerInit_spec (hW : W.Names P) (hE : exe.Names P) :
    Total (linkerInit W exe) (poweredOn beyond) fun r s' => ∀ A, r = some A →
      ∃ s₁ new, s₁.log = [] ∧ Linked W P A exe.entry (booted beyond) s₁ s' new true := by
  have hwf : Wf (poweredOn beyond) := (booted_wf : Wf (booted beyond)).congr rfl rfl rfl
  unfold linkerInit
  apply total_bind
  apply (allocInfo_spec hwf exe.argv0).mono
  rintro r s₁ (⟨rfl, rfl⟩ | ⟨A, fl, n, rfl, hA, rfl, hwf₁⟩)
  · exact total_pure.2 (by simp)
  apply total_bind
  rw [total_modify, State.update_eq_put]
  apply total_bind
  rw [total_callBa]
  have hi : ((poweredOn beyond).install A exe.argv0 fl n).so A = { name := exe.argv0 } := by
    simp [State.install]
  rw [hi]
  change Total _ (((poweredOn beyond).install A exe.argv0 fl n).put A exe.entry (Ba.start beyond) []) _
  have hne : A ≠ .libdl := fun he => hA (he ▸ List.mem_singleton.2 rfl)
  have hg : Grown P (booted beyond)
      (((poweredOn beyond).install A exe.argv0 fl n).put A exe.entry (Ba.start beyond) []) [A] := by
    refine .fresh (hwf₁.congr rfl rfl rfl) rfl ?_ ?_ ?_ ?_ (.of_eq (List.append_nil _)) fun t ht => ?_
    · intro x hx
      exact put_install_so (s := poweredOn beyond) hA hx
    · intro y hy
      rwa [List.mem_singleton.1 hy]
    · intro y hy
      rw [List.mem_singleton.1 hy, taken, State.put_so_self]
      rfl
    · intro y hy
      rw [List.mem_singleton.1 hy, State.put_so_self]
      rfl
    · refine ⟨t, ?_, by simp⟩
      have hlive : live (((poweredOn beyond).install A exe.argv0 fl n).put A exe.entry
          (Ba.start beyond) []) = live (booted beyond) := by
        rw [live_append (s := booted beyond) rfl fun x hx =>
          congrArg Soinfo.baIndex (put_install_so (s := poweredOn beyond) hA hx)]
        simp [Exe.entry]
      rw [Blocks, hlive]
      exact ht
  have hL : Linking W P A ((((poweredOn beyond).install A exe.argv0 fl n).put A exe.entry
      (Ba.start beyond) []).so A) (booted beyond) (((poweredOn beyond).install A exe.argv0 fl n).put A
        exe.entry (Ba.start beyond) []) [] :=
    ⟨hg, by simp, Same.refl _, by rw [State.put_so_self]; rfl, by simp⟩
  apply total_bind
  refine (linkImage_spec (findLibrary_finds hW loadDepth 1 (le_refl _)) hL ?_ ?_ ?_ ?_ ?_).mono ?_
  · exact Nat.le_add_left 1 _
  · rw [taken, State.put_so_self]
    rfl
  · rw [State.put_so_self]
    exact DynPtr.names_elim hE
  · rw [State.put_so_self]
    rfl
  · rw [State.put_so_self]
    rfl
  rw [State.put_so_self]
  rintro ok s' ⟨new, hlinked⟩
  cases ok with
  | false => exact total_pure.2 (by simp)
  | true =>
      refine total_pure.2 fun B hB => ?_
      cases hB
      exact ⟨_, new, rfl, hlinked⟩

theorem init_runInv (hW : W.Names P) (hE : exe.Names P) {A : Ptr} {s : State}
    (hr : Returns (linkerInit W exe) (poweredOn beyond) (some A) s) : RunInv P ⟨s, [], false⟩ := by
  obtain ⟨s₁, new, -, h⟩ := (linkerInit_spec hW hE).of_returns hr A rfl
  have hinv : Inv s [] [] := by
    refine booted_inv.grow h.grown fun y hy => ?_
    rcases List.mem_cons.1 hy with rfl | hy
    · exact h.settled
    · exact (h.loaded y hy).toSettled
  have hcases : ∀ y ∈ s.solist, y = .libdl ∨ y = A ∨ y ∈ new := by
    intro y hy
    rw [h.grown.solist] at hy
    rcases List.mem_append.1 hy with hy | hy
    · exact Or.inl (List.mem_singleton.1 hy)
    · exact Or.inr (List.mem_cons.1 hy)
  have hlib := hinv.libdl
  have herr : ∀ y ∈ new, (s.so y).flags.error = false := by
    intro y hy
    rw [(h.loaded y hy).done, h.linked rfl y hy]
    rfl
  refine ⟨hinv, ?_, by simp, ?_, ?_, ?_, ?_⟩
  · intro y hy x hx
    rcases hcases y hy with rfl | hy
    · rw [taken, hlib.taken] at hx
      cases hx
    · exact h.grown.named y (List.mem_cons.2 hy) x hx
  · intro y hy h0
    rcases hcases y hy with rfl | rfl | hy
    · exact Or.inl rfl
    · exact Or.inr (Or.inl (by rw [h.flags]; rfl))
    · obtain ⟨z, hz, hyz⟩ := mem_held.1 (h.referenced y hy (h.linked rfl y hy))
      refine absurd hyz ((refs_eq_zero.1 h0).2 z ?_)
      rw [nodes_nil]
      exact h.grown.mem_new hz
  · intro y hy he
    rcases hcases y hy with rfl | rfl | hy
    · rw [hlib.flags] at he
      cases he
    · rw [h.flags] at he
      cases he
    · rw [herr y hy] at he
      cases he
  · intro y hy he
    rcases hcases y hy with rfl | rfl | hy'
    · rw [hlib.flags] at he
      cases he
    · exact ⟨hy, by rw [h.flags], by rw [h.flags]; rfl⟩
    · rw [(h.loaded y hy').exe] at he
      cases he
  · intro e he
    obtain ⟨es, hes, hp⟩ := h.grown.log
    rw [hes] at he
    exact ⟨fun hl => (hp e he).1 (List.mem_singleton.2 hl), (hp e he).2⟩

end Init

/-! ### Runs -/

/-- `ok` admits a `dlopen` only of names with `P`, and a `dlclose` only where it keeps `libdl_info`. -/
def Admits (P : CStr → Prop) (ok : System → Op → Prop) : Prop :=
  ∀ S op, ok S op → Keeps S op ∧ ∀ filename, op = .dlopen filename → P (basename filename)

theorem step_runInv {W : World} {P : CStr → Prop} (hW : W.Names P) {S : System} (h : RunInv P S)
    {op : Op} (hm : Matched S op) (hk : Keeps S op)
    (hP : ∀ filename, op = .dlopen filename → P (basename filename)) :
    ∃ S', step W S op = .ok S' ∧ RunInv P S' := by
  cases op with
  | dlopen filename =>
      obtain ⟨S', new, r, hs, ho⟩ := step_dlopen hW h filename
      exact ⟨S', hs, ho.runInv h (hP filename rfl)⟩
  | dlclose handle =>
      obtain ⟨S', hs, hc⟩ := step_dlclose (W := W) h hm hk
      exact ⟨S', hs, hc.runInv h hm⟩

theorem reach_runInv {W : World} {P : CStr → Prop} {exe : Exe} {beyond : ℕ → Ba.BaBits}
    {ok : System → Op → Prop} (hW : W.Names P) (hE : exe.Names P) (hok : Admits P ok) {S : System}
    (h : Reach W exe beyond ok S) : RunInv P S := by
  induction h with
  | init hr => exact init_runInv hW hE hr
  | step _ hm hk hs ih =>
      obtain ⟨S', hs', h'⟩ := step_runInv hW ih hm (hok _ _ hk).1 (hok _ _ hk).2
      rw [hs] at hs'
      cases hs'
      exact h'

/-! ### Runs on given files -/

/-- The system after `__linker_init`, where that succeeds. -/
def launch (W : World) (exe : Exe) (beyond : ℕ → Ba.BaBits) : System :=
  match linkerInit W exe (poweredOn beyond) with
  | .ok (_, s) => ⟨s, [], false⟩
  | .error _ => ⟨poweredOn beyond, [], false⟩

/-- The system after a call, where that returns. -/
def next (W : World) (S : System) (op : Op) : System :=
  match step W S op with
  | .ok S' => S'
  | .error _ => S

theorem reach_launch {W : World} {exe : Exe} {beyond : ℕ → Ba.BaBits} {ok : System → Op → Prop}
    (h : (linkerInit W exe (poweredOn beyond)).toOption.any (·.1.isSome) = true) :
    Reach W exe beyond ok (launch W exe beyond) := by
  unfold launch
  cases hr : linkerInit W exe (poweredOn beyond) with
  | error f =>
      rw [hr] at h
      cases h
  | ok p =>
      obtain ⟨r, s⟩ := p
      cases r with
      | none =>
          rw [hr] at h
          cases h
      | some e => exact .init hr

theorem step_next {W : World} {S : System} {op : Op} (h : (step W S op).isOk = true) :
    step W S op = .ok (next W S op) := by
  unfold next
  cases hs : step W S op with
  | error f =>
      rw [hs] at h
      cases h
  | ok S' => rfl

theorem step_fault {W : World} {S : System} {op : Op} {f : Fault}
    (h : (match step W S op with | .ok _ => none | .error f => some f) = some f) :
    step W S op = .error f := by
  cases hs : step W S op with
  | ok S' =>
      rw [hs] at h
      cases h
  | error g =>
      rw [hs] at h
      cases h
      rfl

/-- There are no more references to an entry than there are handles and references in all. -/
theorem System.refs_le_length (S : System) (z : Ptr) :
    S.refs z ≤ S.handles.length + (held (taken S.linker) S.linker.solist).length := by
  have h₁ := List.count_le_length (a := z) (l := S.handles)
  have h₂ := List.count_le_length (a := z) (l := held (taken S.linker) S.linker.solist)
  rw [System.refs, total, RefGraph.refs, nodes_nil]
  omega

end Bionic.Linker
