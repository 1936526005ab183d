import Bionic.LinkerAtomic

/-! # The order of constructors and destructors

`ConstructorOrder` and `DestructorOrder` say in which order a load and an unload call the functions
of the libraries, and `call_order` is that every call of a run keeps to them.  Both rest on what the
references say: a new entry refers only to entries that were linked before it (`Ordered`), and an
entry gives up its references behind its destructors (`Swept`).

A `refcount` that has wrapped around breaks the second: `wrapped_close_disorders` is a run in which
a library is unloaded before the destructors of the one that needs it. -/

namespace Bionic.Linker

open StateExcept RefGraph

/-! ### Definitions -/

/-- From `s` to `s'` the constructors of each added entry have run once, and behind those of all
that it needs, directly or not; `libdl_info` has none. -/
def ConstructorOrder (s s' : State) : Prop :=
  ∃ es, s'.log = s.log ++ es ∧ ∀ y ∈ s'.solist, y ∉ s.solist →
    es.count (.constructors y) = 1 ∧ ∃ a b, es = a ++ linkEvents s' y ++ b ∧
      ∀ z, Relation.TransGen (Needs s') y z → z = .libdl ∨ Constructed s' (s.log ++ a) z

/-- From `s` to `s'` the destructors of each removed entry have run once, and before any call about
what it needs, directly or not. -/
def DestructorOrder (s s' : State) : Prop :=
  ∃ es, s'.log = s.log ++ es ∧ ∀ x ∈ s.solist, x ∉ s'.solist →
    es.count (.destructors x) = 1 ∧ ∃ a b, es = a ++ destructorEvents x (s.so x) ++ b ∧
      ∀ e ∈ a, ¬ Relation.TransGen (Needs s) x e.si

/-! ### Loading -/

theorem linkEvents_count (s : State) (y : Ptr) : (linkEvents s y).count (.constructors y) = 1 := by
  have hne : ∀ si stage f, Event.constructors y ≠ .call si stage f := by
    intro si stage f h
    cases h
  have hload : (if (s.so y).flags.exe then [] else [.notifyLoad y]).count (Event.constructors y) = 0 := by
    split <;> simp
  have hpre : ∀ l : List ℕ,
      (if (s.so y).flags.exe then callArray y .preinit l else []).count (Event.constructors y) = 0 := by
    intro l
    split
    · exact count_callArray hne _ _ _
    · exact List.count_nil
  rw [linkEvents, List.count_append, hload, Nat.add_zero]
  unfold constructorEvents
  split
  · rw [List.count_cons_self, List.count_append, List.count_append, hpre, count_callFunc hne,
      count_callArray hne]
  · exact List.count_singleton_self

section Load

variable {s s' : State} {E E' new : List Ptr}

theorem constructorOrder_of_ordered (h : Inv s E []) (h' : Inv s' E' [])
    (hsol : s'.solist = s.solist ++ new) (hsame : ∀ x ∈ s.solist, Same (s.so x) (s'.so x))
    (hlinked : ∀ y ∈ new, Usable s' y) (ho : Ordered s s' new)
    (hc : ∀ y, Usable s y → y ≠ .libdl → Constructed s s.log y) : ConstructorOrder s s' := by
  obtain ⟨order, hp, ht, hlog⟩ := ho
  have hnd : order.Nodup := by
    have hn := h'.wf.nodup_solist
    rw [hsol] at hn
    exact hp.nodup_iff.2 (List.nodup_append.1 hn).2.1
  have hold : ∀ z ∈ s.solist, z ∉ order := by
    intro z hz hzo
    have hn := h'.wf.nodup_solist
    rw [hsol] at hn
    exact (List.nodup_append.1 hn).2.2 z hz z (hp.mem_iff.1 hzo) rfl
  have hclosed : ∀ z ∈ s.solist, ∀ w ∈ taken s' z, w ∈ s.solist := by
    intro z hz w hw
    rw [taken, (hsame z hz).taken] at hw
    exact (h.usable_of_taken hz hw).mem
  refine ⟨order.flatMap (linkEvents s'), hlog, fun y hy hy' => ?_⟩
  have hyn : y ∈ new := by
    rw [hsol] at hy
    exact (List.mem_append.1 hy).resolve_left hy'
  obtain ⟨a, b, hab⟩ := List.append_of_mem (hp.mem_iff.2 hyn)
  have hes : order.flatMap (linkEvents s') =
      a.flatMap (linkEvents s') ++ linkEvents s' y ++ b.flatMap (linkEvents s') := by
    rw [hab]
    simp only [List.flatMap_append, List.flatMap_cons, List.append_assoc]
  rw [hab] at hnd
  obtain ⟨hna, hnb, hdis⟩ := List.nodup_append.1 hnd
  refine ⟨?_, _, _, hes, fun z hz => ?_⟩
  · have hza : (Event.constructors y) ∉ a.flatMap (linkEvents s') := by
      intro he
      exact hdis y (flatMap_linkEvents_about s' a _ he) y List.mem_cons_self rfl
    have hzb : (Event.constructors y) ∉ b.flatMap (linkEvents s') := by
      intro he
      exact (List.nodup_cons.1 hnb).1 (flatMap_linkEvents_about s' b _ he)
    rw [hes, List.count_append, List.count_append, List.count_eq_zero.2 hza,
      List.count_eq_zero.2 hzb, linkEvents_count]
  · obtain ⟨hu, hchain⟩ := h'.transGen_needs (hlinked y hyn) hz
    by_cases hl : z = .libdl
    · exact Or.inl hl
    apply Or.inr
    rcases ht.transGen hclosed hab hchain with hzo | hza
    · have huz : Usable s z := hu.of_same hzo (hsame z hzo).symm
      refine ((hc z huz hl).of_same (hsame z hzo)).append fun e he hez => ?_
      have hea := flatMap_linkEvents_about s' a e he
      rw [hez] at hea
      apply hold z hzo
      rw [hab]
      exact List.mem_append_left _ hea
    · obtain ⟨a₁, a₂, rfl⟩ := List.append_of_mem hza
      exact constructed_flatMap hna rfl _

end Load

/-! ### Unloading -/

/-- Two splits of one list: where the left part of the first does not contain the element at which
the second is split, it lies to the left of that. -/
theorem mem_left_of_splits {α : Type} {a b a' b' : List α} {x e : α} (h : a ++ b = a' ++ x :: b')
    (hx : x ∉ a) (he : e ∈ a) : e ∈ a' := by
  rcases List.append_eq_append_iff.1 h with ⟨c, rfl, -⟩ | ⟨c, rfl, hc⟩
  · exact List.mem_append_left _ he
  · cases c with
    | nil => simpa using he
    | cons z c =>
        obtain ⟨rfl, -⟩ := List.cons.inj hc
        exact absurd (List.mem_append_right a' List.mem_cons_self) hx

theorem destructorEvents_eq_cons (x : Ptr) (i : Soinfo) :
    ∃ l, destructorEvents x i = .destructors x :: l := by
  unfold destructorEvents
  split
  · exact ⟨_, rfl⟩
  · exact ⟨[], rfl⟩

section Unload

variable {s s' : State} {E E' : List Ptr} {es : List Event} {x z : Ptr}

/-- An entry to which a remaining entry refers remains. -/
theorem Swept.removed_of_removed (h' : Inv s' E' []) (hs : Shrunk s s') (hx : z ∈ taken s x)
    (hz : z ∉ s'.solist) : x ∉ s'.solist := by
  intro hm
  rw [← hs.taken] at hx
  exact hz (h'.usable_of_taken hm hx).mem

/-- The destructors of `x` run before any call about what it refers to, directly or not. -/
theorem Swept.first_transGen (h : Inv s E []) (h' : Inv s' E' []) (hs : Shrunk s s')
    (hw : Swept s s' es) (hx : x ∈ s.solist) (hx' : x ∉ s'.solist) :
    ∃ a b, es = a ++ destructorEvents x (s.so x) ++ b ∧
      ∀ z, Relation.TransGen (fun y x => x ∈ taken s y) x z → ∀ e ∈ a, e.si ≠ z := by
  obtain ⟨a, b, he, ha⟩ := hw.first x hx hx'
  refine ⟨a, b, he, fun z hz => ?_⟩
  have hmem : ∀ w, Relation.TransGen (fun y x => x ∈ taken s y) x w → w ∈ s.solist := by
    intro w hwz
    induction hwz with
    | single hw => exact (h.usable_of_taken hx hw).mem
    | tail _ hw ih => exact (h.usable_of_taken ih hw).mem
  induction hz with
  | single hz => exact fun e he' hez => ha e he' (hez ▸ hz)
  | @tail y w hy hw' ih =>
      intro e hea hew
      have hwgone : w ∉ s'.solist := by
        have hes : e ∈ es := by
          rw [he]
          exact List.mem_append_left _ (List.mem_append_left _ hea)
        rw [← hew]
        exact (hw.about e hes).2.1
      have hygone := Swept.removed_of_removed h' hs hw' hwgone
      obtain ⟨a', b', he', ha'⟩ := hw.first y (hmem y hy) hygone
      obtain ⟨l, hl⟩ := destructorEvents_eq_cons y (s.so y)
      have hsplit : a ++ (destructorEvents x (s.so x) ++ b) = a' ++ .destructors y :: (l ++ b') := by
        rw [← List.append_assoc, ← he, he', hl, List.append_assoc, List.cons_append]
      have hno : Event.destructors y ∉ a := fun hm => ih _ hm rfl
      exact ha' e (mem_left_of_splits hsplit hno hea) (hew ▸ hw')

theorem destructorOrder_of_shrunk (h : Inv s E []) (h' : Inv s' E' []) (hs : Shrunk s s')
    (hu : ∀ x ∈ s.solist, x ∉ s'.solist → Usable s x) : DestructorOrder s s' := by
  obtain ⟨es, hes, hw⟩ := hs.log
  refine ⟨es, hes, fun x hx hx' => ⟨hw.once x hx hx', ?_⟩⟩
  obtain ⟨a, b, he, ha⟩ := Swept.first_transGen h h' hs hw hx hx'
  exact ⟨a, b, he, fun e hea hn => ha _ (h.transGen_needs (hu x hx hx') hn).2 e hea rfl⟩

end Unload

/-! ### Runs -/

theorem RunInv.usable_of_refs {P : CStr → Prop} {S : System} {x : Ptr} (hi : RunInv P S)
    (hx : S.refs x ≠ 0) : Usable S.linker x := by
  by_contra hu
  refine hx (refs_eq_zero.2 ⟨fun hm => hu (hi.inv.tokens x hm), fun y hy hm => hu ?_⟩)
  exact hi.inv.tidy.usable y hy x hm

theorem Opened.constructorOrder {W : World} {P : CStr → Prop} {S S' : System} {filename : CStr}
    {new : List Ptr} {x : Ptr} (h : Opened W P filename S S' new (some x)) (hi : RunInv P S)
    (hc : ∀ y, Usable S.linker y → y ≠ .libdl → Constructed S.linker S.linker.log y) :
    ConstructorOrder S.linker S'.linker := by
  obtain ⟨s₁, hf, hsol, hlog, hsame, -⟩ := h.frame
  refine constructorOrder_of_ordered hi.inv (h.inv hi.inv) h.solist
    (fun y hy => (hf.grown.same y hy).trans (hsame y)) (fun y hy => ?_)
    ((hf.ordered rfl).congr (fun y _ => hsame y) hlog) hc
  have hu : Usable s₁ y := by
    refine ⟨hf.grown.mem_new hy, hf.linked rfl y hy, ?_⟩
    rw [(hf.loaded y hy).done, hf.linked rfl y hy]
    rfl
  exact hu.of_same (by rw [hsol]; exact hu.mem) (hsame y)

theorem Closed.destructorOrder {P : CStr → Prop} {S S' : System} {handle : Ptr}
    (h : Closed handle S S') (hi : RunInv P S) : DestructorOrder S.linker S'.linker := by
  refine destructorOrder_of_shrunk hi.inv h.released.inv h.released.shrunk fun x hx hx' => ?_
  refine hi.usable_of_refs fun h0 => hx' ?_
  exact (h.untouched (System.keptWithout_of_refs hx h0)).1

theorem linkerInit_constructorOrder {W : World} {exe : Exe} {beyond : ℕ → Ba.BaBits} {e : Ptr}
    {s : State} (hr : Returns (linkerInit W exe) (poweredOn beyond) (some e) s) :
    ConstructorOrder (poweredOn beyond) s := by
  have hi := init_runInv W.names_true exe.names_true hr
  obtain ⟨s₁, new, hl₁, h⟩ := (linkerInit_spec W.names_true exe.names_true).of_returns hr e rfl
  refine constructorOrder_of_ordered (s := booted beyond) booted_inv hi.inv h.grown.solist h.grown.same
    (fun y hy => ?_) ?_ ?_
  · rcases List.mem_cons.1 hy with rfl | hy
    · exact ⟨h.grown.mem_new List.mem_cons_self, by rw [h.flags], by rw [h.flags]; rfl⟩
    · have hlk := h.linked rfl y hy
      exact ⟨h.grown.mem_new (List.mem_cons_of_mem _ hy), hlk, by rw [(h.loaded y hy).done, hlk]; rfl⟩
  · obtain ⟨order, hp, ht, hlog⟩ := h.ordered rfl
    refine ⟨order, hp.trans List.perm_append_comm, ht, ?_⟩
    rw [hlog, hl₁]
    rfl
  · intro y hu hne
    exact absurd (List.mem_singleton.1 hu.mem) hne

/-- Between the calls of a run the constructors of every usable entry have run, and nothing has been
called for it since. -/
theorem reach_constructed {W : World} {exe : Exe} {beyond : ℕ → Ba.BaBits} {S : System}
    (h : Reach W exe beyond Keeps S) :
    ∀ y, Usable S.linker y → y ≠ .libdl → Constructed S.linker S.linker.log y := by
  induction h with
  | @init e s hr =>
      intro y hu hne
      obtain ⟨s₁, new, -, hl⟩ := (linkerInit_spec W.names_true exe.names_true).of_returns hr e rfl
      have hy := hu.mem
      rw [hl.grown.solist] at hy
      rcases List.mem_append.1 hy with hy | hy
      · exact absurd (List.mem_singleton.1 hy) hne
      · rcases List.mem_cons.1 hy with rfl | hy
        · exact hl.constructed
        · exact (hl.loaded y hy).constructed hu.linked
  | @step S S' op hr hm hk hs ih =>
      intro y hu hne
      have hi := reach_keeps hr
      cases op with
      | dlopen filename =>
          obtain ⟨S₁, new, r, hs₁, ho⟩ := step_dlopen W.names_true hi filename
          rw [hs] at hs₁
          cases hs₁
          obtain ⟨s₁, hf, hsol, hlog, hsame, -⟩ := ho.frame
          have hy := hu.mem
          rw [ho.solist] at hy
          rcases List.mem_append.1 hy with hy | hy
          · have hsame' := (hf.grown.same y hy).trans (hsame y)
            exact (ih y (hu.of_same hy hsame'.symm) hne).of_logs hsame' (ho.untouched hy).2
          · have hlk := hu.linked
            rw [(hsame y).flags] at hlk
            rw [hlog]
            exact ((hf.loaded y hy).constructed hlk).of_same (hsame y)
      | dlclose handle =>
          obtain ⟨S₁, hs₁, hc⟩ := step_dlclose (W := W) hi hm hk
          rw [hs] at hs₁
          cases hs₁
          have hsame := hc.released.shrunk.same y hu.mem
          have hy := hc.released.shrunk.sub.subset hu.mem
          obtain ⟨es, hes, hsw⟩ := hc.released.shrunk.log
          refine (ih y (hu.of_same hy hsame.symm) hne).of_logs hsame ⟨es, hes, fun e he => ?_⟩
          exact ⟨fun hey => (hsw.about e he).2.1 (hey ▸ hu.mem), (hsw.about e he).2.2⟩

/-- Every call returns; a `dlopen` that succeeds keeps to the order of constructors, and a `dlclose`
that meets `ok` to the order of destructors. -/
structure CallOrder (W : World) (ok : System → Op → Prop) (S : System) : Prop where
  load : ∀ filename, ∃ S', step W S (.dlopen filename) = .ok S' ∧
    ∀ x, S'.handles = x :: S.handles → ConstructorOrder S.linker S'.linker
  unload : ∀ handle, Matched S (.dlclose handle) → ok S (.dlclose handle) →
    ∃ S', step W S (.dlclose handle) = .ok S' ∧ DestructorOrder S.linker S'.linker

/-- `__linker_init`, and every call of a run in which no `refcount` wraps around and no `dlclose`
gives up the last reference to `libdl_info`. -/
theorem call_order (W : World) (exe : Exe) (beyond : ℕ → Ba.BaBits) :
    (∀ e s, Returns (linkerInit W exe) (poweredOn beyond) (some e) s →
      ConstructorOrder (poweredOn beyond) s) ∧
    ∀ S, Reach W exe beyond Keeps S → CallOrder W Keeps S := by
  refine ⟨fun e s hr => linkerInit_constructorOrder hr, fun S h => ?_⟩
  have hi := reach_keeps h
  have hc := reach_constructed h
  refine ⟨fun filename => ?_, fun handle hm hk => ?_⟩
  · obtain ⟨S', new, r, hs, ho⟩ := step_dlopen W.names_true hi filename
    refine ⟨S', hs, fun x hx => ?_⟩
    rw [ho.handles] at hx
    cases r with
    | none => simp at hx
    | some y => exact ho.constructorOrder hi hc
  · obtain ⟨S', hs, hcl⟩ := step_dlclose (W := W) hi hm hk
    exact ⟨S', hs, hcl.destructorOrder hi⟩

/-! ### A `refcount` that wraps around -/

/-- The system after `n` further calls of `dlopen` that found the entry `x`. -/
def System.reopened (S : System) (x : Ptr) (n : ℕ) : System where
  linker := S.linker.update x fun i => { i with refcount := i.refcount + BitVec.ofNat 32 n }
  handles := List.replicate n x ++ S.handles
  failed := S.failed

theorem reopened_same (S : System) (x : Ptr) (n : ℕ) (z : Ptr) :
    Same (S.linker.so z) ((S.reopened x n).linker.so z) :=
  Same.update (fun i => Same.refcount i _) S.linker x z

theorem reopened_zero (S : System) (x : Ptr) : S.reopened x 0 = S := by
  simp [System.reopened, State.update]

theorem step_reopened {W : World} {S : System} {x : Ptr} {filename : CStr}
    (hl : lookup S.linker filename = some x) (hu : Usable S.linker x) (n : ℕ) :
    step W (S.reopened x n) (.dlopen filename) = .ok (S.reopened x (n + 1)) := by
  have hsame := reopened_same S x n
  have hl' : lookup (S.reopened x n).linker filename = some x := by
    have names : ∀ z ∈ S.linker.solist, ((S.reopened x n).linker.so z).name = (S.linker.so z).name :=
      fun z _ => (hsame z).name
    have hc := find?_name_congr names (basename filename)
    exact hc.trans hl
  have hu' : Usable (S.reopened x n).linker x := hu.of_same hu.mem (hsame x)
  have hf := findLibrary_hits W SO_MAX _ _ _ hl' hu'
  have hd : dlopen W filename (S.reopened x n).linker =
      .ok (some x, (S.reopened x n).linker.raise x) := returns_bind hf rfl
  have hraise : (S.reopened x n).linker.raise x = (S.reopened x (n + 1)).linker := by
    simp [System.reopened, State.raise, State.update, BitVec.ofNat_add, BitVec.add_assoc]
  rw [step, hd, hraise]
  simp [System.reopened, Except.map, List.replicate_succ]

theorem reach_reopened {W : World} {exe : Exe} {beyond : ℕ → Ba.BaBits} {S : System} {x : Ptr}
    {filename : CStr} (h : Reach W exe beyond (fun _ _ => True) S)
    (hl : lookup S.linker filename = some x) (hu : Usable S.linker x) (n : ℕ) :
    Reach W exe beyond (fun _ _ => True) (S.reopened x n) := by
  induction n with
  | zero => rwa [reopened_zero]
  | succ n ih =>
      refine .step ih ?_ trivial (step_reopened hl hu n)
      exact trivial

/-- `libx.so` needs `liba.so` and `libb.so`, which needs `liba.so`. -/
def diamondFile (name : CStr) : Option Image :=
  if name = "libx.so".toList then some (prelinked 0xb0000000 ["liba.so", "libb.so"])
  else if name = "liba.so".toList then some (prelinked 0xb1000000 [])
  else if name = "libb.so".toList then some (prelinked 0xb2000000 ["liba.so"])
  else none

def diamondWorld : World := { arch := .arm, openLibrary := fun _ name => diamondFile name }

def diamondExe : Exe :=
  { argv0 := "app".toList, size := 0x1000
    dynamic := some { tables := true, needed := [], relocates := true } }

/-- The example after `__linker_init` and `dlopen("libx.so")`. -/
def diamondOpened : System :=
  next diamondWorld (launch diamondWorld diamondExe noBits) (.dlopen "libx.so".toList)

theorem reach_diamondOpened {ok : System → Op → Prop}
    (hok : ok (launch diamondWorld diamondExe noBits) (.dlopen "libx.so".toList)) :
    Reach diamondWorld diamondExe noBits ok diamondOpened := by
  refine .step (reach_launch (by decide)) ?_ hok (step_next (by decide))
  exact trivial

theorem call_order_diamond : Reach diamondWorld diamondExe noBits Keeps diamondOpened ∧
    Keeps diamondOpened (.dlclose (.pool 1)) ∧ CallOrder diamondWorld Keeps diamondOpened := by
  have h : Reach diamondWorld diamondExe noBits Keeps diamondOpened := reach_diamondOpened trivial
  exact ⟨h, ⟨System.refs_lt (by decide),
    System.keptWithout_of_refs (by decide) (by decide)⟩,
    (call_order diamondWorld diamondExe noBits).2 _ h⟩

/-- The example after `2 ^ 32 - 1` calls of `dlopen("liba.so")`, which take its `refcount` from 2
to 1. -/
def diamondWrapped : System := diamondOpened.reopened (.pool 2) (2 ^ 32 - 1)

def diamondClosed : System := next diamondWorld diamondWrapped (.dlclose (.pool 1))

theorem diamondFile_eq_some {name : CStr} {img : Image} (h : diamondFile name = some img) :
    (name = "libx.so".toList ∧ img = prelinked 0xb0000000 ["liba.so", "libb.so"]) ∨
      (name = "liba.so".toList ∧ img = prelinked 0xb1000000 []) ∨
      (name = "libb.so".toList ∧ img = prelinked 0xb2000000 ["liba.so"]) := openFile_eq_some h

theorem acyclic_diamond : Acyclic diamondWorld diamondExe := by
  let rank (name : CStr) : ℕ :=
    if name = "liba.so".toList then 0 else if name = "libb.so".toList then 1 else 2
  refine ⟨⟨rank, ?_, ?_⟩, ?_, ?_⟩
  · intro tick name img d n ho hd hn
    rcases diamondFile_eq_some ho with ⟨rfl, rfl⟩ | ⟨rfl, rfl⟩ | ⟨rfl, rfl⟩
    all_goals cases hd; revert n; decide
  · intro d n hd hn
    cases hd
    cases hn
  · intro tick name img d n ho hd hn
    rcases diamondFile_eq_some ho with ⟨rfl, rfl⟩ | ⟨rfl, rfl⟩ | ⟨rfl, rfl⟩
    all_goals cases hd; revert n; decide
  · intro d hd
    cases hd
    decide

/-- The `dlclose` of `libx.so` unloads `liba.so` before it runs the destructors of `libb.so`. -/
theorem not_destructorOrder_diamond :
    ¬ DestructorOrder diamondWrapped.linker diamondClosed.linker := by
  rintro ⟨es, hes, h⟩
  have hdrop : diamondClosed.linker.log.drop diamondWrapped.linker.log.length = es := by
    rw [hes, List.drop_left]
  have hbefore : ∀ k ≤ (diamondClosed.linker.log.drop diamondWrapped.linker.log.length).length,
      ((diamondClosed.linker.log.drop diamondWrapped.linker.log.length).drop k).head? =
        some (.destructors (.pool 3)) →
      Event.destructors (.pool 2) ∈
        (diamondClosed.linker.log.drop diamondWrapped.linker.log.length).take k := by
    decide
  obtain ⟨-, a, b, hab, ha⟩ := h (.pool 3) (by decide) (by decide)
  obtain ⟨l, hl⟩ := destructorEvents_eq_cons (.pool 3) (diamondWrapped.linker.so (.pool 3))
  rw [hdrop, hab, hl] at hbefore
  have hmem := hbefore a.length (by simp) (by simp)
  rw [List.append_assoc, List.take_left] at hmem
  refine ha _ hmem (.single ⟨{ tables := true, needed := ["liba.so".toList], relocates := true },
    "liba.so".toList, ?_, List.mem_cons_self, ?_⟩)
  · decide
  · decide

theorem wrapped_close_disorders : Acyclic diamondWorld diamondExe ∧ ∃ S S',
    Reach diamondWorld diamondExe noBits (fun _ _ => True) S ∧ Matched S (.dlclose (.pool 1)) ∧
    step diamondWorld S (.dlclose (.pool 1)) = .ok S' ∧ ¬ DestructorOrder S.linker S'.linker ∧
    ¬ CallOrder diamondWorld (fun _ _ => True) S := by
  have hr : Reach diamondWorld diamondExe noBits (fun _ _ => True) diamondWrapped := by
    have hl : lookup diamondOpened.linker "liba.so".toList = some (.pool 2) := by decide
    exact reach_reopened (reach_diamondOpened trivial) hl
      ⟨by decide, by decide, by decide⟩ _
  have hm : Matched diamondWrapped (.dlclose (.pool 1)) := by
    apply List.mem_append_right _
    decide
  have hs : step diamondWorld diamondWrapped (.dlclose (.pool 1)) = .ok diamondClosed :=
    step_next (by decide)
  refine ⟨acyclic_diamond, _, _, hr, hm, hs, not_destructorOrder_diamond, fun h => ?_⟩
  obtain ⟨S', hs', hd⟩ := h.unload _ hm trivial
  rw [hs] at hs'
  cases hs'
  exact not_destructorOrder_diamond hd

end Bionic.Linker
