import Bionic.LinkerRun

/-! # How long libraries stay loaded

`libdl_safe` and `lifetime` are about all states that runs of `dlopen` and `dlclose` reach.
`libdl_info` and the executable have no reference of their own: their `refcount` starts at 0, and
only other references keep `unload_library` from unloading them.  So both results ask of a
`dlclose` that it does not give up the last of these, and `close_libdl_faults` and
`close_plugin_unloads` are runs in which it does. -/

namespace Bionic.Linker

open StateExcept RefGraph

/-! ### `libdl_info` -/

/-- `libdl_info` is the head of `solist` and has never been unloaded, no call of `free_info` has
missed a predecessor, and the next call, if it meets `ok`, does not fault. -/
structure LibdlSafe (W : World) (ok : System → Op → Prop) (S : System) : Prop where
  head : S.linker.solist.head? = some .libdl
  log : ∀ e ∈ S.linker.log, e.si ≠ .libdl ∧ e.HasPrev
  returns : ∀ op, Matched S op → ok S op → ∃ S', step W S op = .ok S'

theorem World.names_true (W : World) : W.Names fun _ => True := fun _ _ _ _ _ _ _ _ => trivial

theorem Exe.names_true (exe : Exe) : exe.Names fun _ => True := fun _ _ _ _ => trivial

theorem reach_keeps {W : World} {exe : Exe} {beyond : ℕ → Ba.BaBits} {S : System}
    (h : Reach W exe beyond Keeps S) : RunInv (fun _ => True) S :=
  reach_runInv W.names_true exe.names_true (fun _ _ hk => ⟨hk, fun _ _ => trivial⟩) h

/-- In every run in which no `refcount` wraps around and no `dlclose` gives up the last reference
to `libdl_info`. -/
theorem libdl_safe {W : World} {exe : Exe} {beyond : ℕ → Ba.BaBits} {S : System}
    (h : Reach W exe beyond Keeps S) : LibdlSafe W Keeps S := by
  have hi := reach_keeps h
  refine ⟨hi.inv.wf.head, hi.log, fun op hm hk => ?_⟩
  obtain ⟨S', hs, -⟩ := step_runInv W.names_true hi hm hk fun _ _ => trivial
  exact ⟨S', hs⟩

/-- A prelinked library. -/
def prelinked (base : ℕ) (needed : List String) : Image :=
  { extents := some (base, 0x1000)
    dynamic := some { tables := true, needed := needed.map String.toList, relocates := true } }

/-- The files of an example: `libp.so` refers back to the executable. -/
def pluginFile (name : CStr) : Option Image :=
  if name = "libq.so".toList then some (prelinked 0xb0000000 [])
  else if name = "libp.so".toList then some (prelinked 0xb1000000 ["app"])
  else if name = "libr.so".toList then some (prelinked 0xb2000000 ["libq.so"])
  else none

def pluginWorld : World := { arch := .arm, openLibrary := fun _ name => pluginFile name }

/-- An executable that needs `libq.so`. -/
def pluginExe : Exe :=
  { argv0 := "app".toList, size := 0x1000
    dynamic := some { tables := true, needed := ["libq.so".toList], relocates := true } }

def noBits : ℕ → Ba.BaBits := fun _ => ⟨false, 0⟩

/-- The example after `__linker_init` and one `dlopen`. -/
def pluginOpened (filename : String) : System :=
  next pluginWorld (launch pluginWorld pluginExe noBits) (.dlopen filename.toList)

theorem reach_pluginOpened {ok : System → Op → Prop} (filename : String)
    (hok : ok (launch pluginWorld pluginExe noBits) (.dlopen filename.toList))
    (h : (step pluginWorld (launch pluginWorld pluginExe noBits) (.dlopen filename.toList)).isOk = true) :
    Reach pluginWorld pluginExe noBits ok (pluginOpened filename) := by
  refine .step (reach_launch (by decide)) ?_ hok (step_next h)
  exact trivial

/-- Nothing refers to `z`, so that giving up a handle changes nothing for it. -/
theorem System.keptWithout_of_refs {S : System} {h z : Ptr} (hz : z ∈ S.linker.solist)
    (h0 : S.refs z = 0) : S.KeptWithout h z := .root (Or.inr ⟨hz, h0⟩)

theorem System.refs_lt {S : System}
    (h : S.handles.length + (held (taken S.linker) S.linker.solist).length < 2 ^ 32) (z : Ptr) :
    S.refs z < 2 ^ 32 := (S.refs_le_length z).trans_lt h

theorem libdl_safe_reopened : LibdlSafe pluginWorld Keeps
    (next pluginWorld (pluginOpened "libr.so") (.dlclose (.pool 2))) := by
  have hk : Keeps (pluginOpened "libr.so") (.dlclose (.pool 2)) := by
    exact ⟨System.refs_lt (by decide),
      System.keptWithout_of_refs (by decide) (by decide)⟩
  have h : Reach pluginWorld pluginExe noBits Keeps (pluginOpened "libr.so") :=
    reach_pluginOpened "libr.so" trivial (by decide)
  exact libdl_safe (.step h (by decide) hk (step_next (by decide)))

/-- `dlopen("libdl.so")` returns `libdl_info`, and the `dlclose` of that handle reads through its
null `dynamic`. -/
theorem close_libdl_faults : ∃ S, Reach pluginWorld pluginExe noBits (fun _ _ => True) S ∧
    Matched S (.dlclose .libdl) ∧
    step pluginWorld S (.dlclose .libdl) = .error (.derefDynamic .libdl) ∧
    ¬ LibdlSafe pluginWorld (fun _ _ => True) S := by
  have hm : Matched (pluginOpened "libdl.so") (.dlclose .libdl) := by decide
  have hs : step pluginWorld (pluginOpened "libdl.so") (.dlclose .libdl) =
      .error (.derefDynamic .libdl) := step_fault (by decide)
  refine ⟨_, reach_pluginOpened "libdl.so" trivial (by decide), hm, hs, fun h => ?_⟩
  obtain ⟨S', hS'⟩ := h.returns _ hm trivial
  rw [hs] at hS'
  cases hS'

/-! ### Libraries in use -/

/-- The executable, what one of the handles `H` stands for, and what these need, directly or not,
as `find_library` resolves the names. -/
inductive InUse (s : State) (H : List Ptr) : Ptr → Prop where
  | handle {x : Ptr} : x ∈ H → InUse s H x
  | exe {x : Ptr} : x ∈ s.solist → (s.so x).flags.exe = true → InUse s H x
  | needed {x y : Ptr} {d : Dynamic} {n : CStr} : InUse s H y → (s.so y).dynamic = .present d →
      n ∈ d.needed → lookup s n = some x → InUse s H x

/-- The handles that are outstanding after the call, of those that are outstanding before it. -/
def remaining (S : System) : Op → List Ptr
  | .dlopen _ => S.handles
  | .dlclose handle => S.handles.erase handle

/-- What is in use is loaded, mapped and linked, and so are the libraries it needs; a further call
that meets `ok` returns, and does nothing to what stays in use; and while no `dlopen` has failed,
nothing else is loaded. -/
structure Lifetime (W : World) (ok : System → Op → Prop) (S : System) : Prop where
  loaded : ∀ x, InUse S.linker S.handles x → x ∈ S.linker.solist ∧
    (S.linker.so x).mapped = true ∧ (S.linker.so x).flags.linked = true
  needed : ∀ x d n, InUse S.linker S.handles x → (S.linker.so x).dynamic = .present d →
    n ∈ d.needed → ∃ z, lookup S.linker n = some z
  kept : ∀ op, Matched S op → ok S op → ∃ S', step W S op = .ok S' ∧
    ∀ x, InUse S.linker (remaining S op) x → x ∈ S'.linker.solist ∧ Logs (· ≠ x) S.linker S'.linker
  unloaded : S.failed = false → ∀ x ∈ S.linker.solist, x = .libdl ∨ InUse S.linker S.handles x

/-- The `DT_NEEDED` entries form no cycle, and none of them names `libdl.so`. -/
structure Acyclic (W : World) (exe : Exe) : Prop where
  rank : ∃ rank : CStr → ℕ,
    (∀ tick name img d n, W.openLibrary tick name = some img → img.dynamic = some d →
      n ∈ d.needed → rank (basename n) < rank (basename name)) ∧
    ∀ d n, exe.dynamic = some d → n ∈ d.needed → rank (basename n) < rank exe.argv0
  world : W.Names (· ≠ "libdl.so".toList)
  exe : exe.Names (· ≠ "libdl.so".toList)

/-- Neither `libdl.so` nor the executable is opened. -/
def Scope (exe : Exe) (_ : System) : Op → Prop
  | .dlopen filename => basename filename ≠ "libdl.so".toList ∧ basename filename ≠ exe.argv0
  | .dlclose _ => True

/-- Before a `dlclose` no entry has `2 ^ 32` references, and the executable will keep one. -/
def KeepsExe (exe : Exe) (S : System) (op : Op) : Prop :=
  Scope exe S op ∧ ∀ h, op = .dlclose h → (∀ z, S.refs z < 2 ^ 32) ∧
    ∀ y ∈ S.linker.solist, (S.linker.so y).flags.exe = true → S.KeptWithout h y

section Use

variable {P : CStr → Prop} {S : System} {H : List Ptr} {x y : Ptr}

theorem RunInv.usable_of_inUse (hi : RunInv P S) (hH : ∀ z ∈ H, z ∈ S.handles)
    (h : InUse S.linker H x) : Usable S.linker x := by
  induction h with
  | handle hx => exact hi.inv.tokens _ (hH _ hx)
  | exe hx he => exact hi.exe _ hx he
  | @needed x y d n _ hd hn hl ih =>
      exact hi.inv.usable_of_taken ih.mem ((hi.inv.needs_iff ih).1 ⟨d, n, hd, hn, hl⟩)

/-- What is in use is reached by references from the handles and the executable. -/
theorem RunInv.anchored_of_inUse (hi : RunInv P S) (hH : ∀ z ∈ H, z ∈ S.handles)
    {root : Ptr → Prop} (hh : ∀ z ∈ H, root z)
    (he : ∀ y ∈ S.linker.solist, (S.linker.so y).flags.exe = true → Anchored (taken S.linker) root y)
    (h : InUse S.linker H x) : Anchored (taken S.linker) root x := by
  induction h with
  | handle hx => exact .root (hh _ hx)
  | exe hx hf => exact he _ hx hf
  | @needed x y d n hy hd hn hl ih =>
      exact .step ih ((hi.inv.needs_iff (hi.usable_of_inUse hH hy)).1 ⟨d, n, hd, hn, hl⟩)

/-- An entry refers only to what its `DT_NEEDED` names lead to. -/
theorem RunInv.inUse_of_taken (hi : RunInv P S) (hy : InUse S.linker S.handles y)
    (hx : x ∈ taken S.linker y) : InUse S.linker S.handles x := by
  have hu := hi.usable_of_inUse (fun _ hz => hz) hy
  obtain ⟨d, n, hd, hn, hl⟩ := (hi.inv.needs_iff hu).2 hx
  exact .needed hy hd hn hl

/-- While no `dlopen` has failed, only `libdl_info` and the executable are loaded unreferenced. -/
theorem RunInv.inUse_of_loaded (hi : RunInv P S) (hf : S.failed = false)
    (hx : x ∈ S.linker.solist) : x = .libdl ∨ InUse S.linker S.handles x := by
  have hg : ∀ y ∈ S.linker.solist, Grounded (taken S.linker) y := by
    intro y hy
    exact hi.inv.tidy.grounded y (by rwa [nodes_nil])
  have ha := anchored_of_grounded (E := S.handles) hg hx
  induction ha with
  | @root x hr =>
      rcases hr with hr | ⟨hm, h0⟩
      · exact Or.inr (.handle hr)
      · have h0' : S.refs x = 0 := by
          rw [System.refs, total, nodes_nil]
          exact h0
        rcases hi.resident x hm h0' with hl | he | he
        · exact Or.inl hl
        · exact Or.inr (.exe hm he)
        · rw [hi.errors _ hm he] at hf
          cases hf
  | @step x y hy hxy ih =>
      have hym : y ∈ S.linker.solist := by
        refine hy.mem (N := (· ∈ S.linker.solist)) (fun z hz => ?_) fun z hz w hw => ?_
        · exact hz.elim hi.inv.mem And.left
        · exact (hi.inv.usable_of_taken hz hw).mem
      rcases ih hym with rfl | hu
      · rw [taken, hi.inv.libdl.taken] at hxy
        cases hxy
      · exact Or.inr (hi.inUse_of_taken hu hxy)

/-- A `dlopen` does nothing to the entries that are there. -/
theorem Opened.untouched {W : World} {S' : System} {filename : CStr} {new : List Ptr} {r : Option Ptr}
    (h : Opened W P filename S S' new r) (hx : x ∈ S.linker.solist) :
    x ∈ S'.linker.solist ∧ Logs (· ≠ x) S.linker S'.linker := by
  obtain ⟨s₁, hf, -, hlog, -, -⟩ := h.frame
  obtain ⟨es, hes, hp⟩ := hf.grown.log
  refine ⟨?_, es, hlog.trans hes, fun e he => ⟨fun hex => (hp e he).1 (hex ▸ hx), (hp e he).2⟩⟩
  rw [h.solist]
  exact List.mem_append_left _ hx

/-- Where nothing refers to `libdl_info`, nothing changes for it. -/
theorem RunInv.keeps {exe : Exe} {op : Op} (hi : RunInv (· ≠ "libdl.so".toList) S)
    (hk : KeepsExe exe S op) : Keeps S op := by
  cases op with
  | dlopen filename => trivial
  | dlclose h =>
      refine ⟨(hk.2 h rfl).1, System.keptWithout_of_refs hi.inv.wf.libdl_mem ?_⟩
      have hname : (S.linker.so .libdl).name = "libdl.so".toList := hi.inv.libdl.name
      refine refs_eq_zero.2 ⟨fun hm => hi.opened _ hm hname, fun y hy hm => ?_⟩
      rw [nodes_nil] at hy
      exact hi.named y hy _ hm hname

end Use

theorem reach_keepsExe {W : World} {exe : Exe} {beyond : ℕ → Ba.BaBits} (hA : Acyclic W exe)
    {S : System} (h : Reach W exe beyond (KeepsExe exe) S) : RunInv (· ≠ "libdl.so".toList) S := by
  induction h with
  | init hr => exact init_runInv hA.world hA.exe hr
  | @step S S' op _ hm hk hs ih =>
      have hP : ∀ filename, op = .dlopen filename → basename filename ≠ "libdl.so".toList := by
        rintro filename rfl
        exact hk.1.1
      obtain ⟨S'', hs', h'⟩ := step_runInv hA.world ih hm (ih.keeps hk) hP
      rw [hs] at hs'
      cases hs'
      exact h'

/-- In every run in which no `refcount` wraps around and no `dlclose` gives up the last reference
to the executable. -/
theorem lifetime {W : World} {exe : Exe} {beyond : ℕ → Ba.BaBits} (hA : Acyclic W exe) {S : System}
    (h : Reach W exe beyond (KeepsExe exe) S) : Lifetime W (KeepsExe exe) S := by
  have hi := reach_keepsExe hA h
  have hus : ∀ {x}, InUse S.linker S.handles x → Usable S.linker x :=
    fun hx => hi.usable_of_inUse (fun _ hz => hz) hx
  refine ⟨fun x hx => ?_, fun x d n hx hd hn => ?_, fun op hm hk => ?_, fun hf x hx => ?_⟩
  · have hu := hus hx
    refine ⟨hu.mem, ?_, hu.linked⟩
    by_cases hl : x = .libdl
    · rw [hl, hi.inv.libdl.mapped]
      rfl
    · exact (hi.inv.settled_of_mem hu.mem hl).mapped hu.linked
  · obtain ⟨z, -, hz⟩ := hi.inv.leads (hus hx) hd hn
    exact ⟨z, hz⟩
  · cases op with
    | dlopen filename =>
        obtain ⟨S', new, r, hs, ho⟩ := step_dlopen hA.world hi filename
        exact ⟨S', hs, fun x hx => ho.untouched (hus hx).mem⟩
    | dlclose handle =>
        obtain ⟨S', hs, hc⟩ := step_dlclose (W := W) hi hm (hi.keeps hk)
        refine ⟨S', hs, fun x hx => hc.untouched ?_⟩
        exact hi.anchored_of_inUse (fun _ hz => List.mem_of_mem_erase hz) (fun _ hz => Or.inl hz)
          (hk.2 handle rfl).2 hx
  · exact hi.inUse_of_loaded hf hx

/-- What a search path with three files finds. -/
theorem openFile_eq_some {p q r : Prop} [Decidable p] [Decidable q] [Decidable r] {x y z img : Image}
    (h : (if p then some x else if q then some y else if r then some z else none) = some img) :
    p ∧ img = x ∨ q ∧ img = y ∨ r ∧ img = z := by
  split at h
  · exact Or.inl ⟨‹_›, (Option.some.inj h).symm⟩
  split at h
  · exact Or.inr (Or.inl ⟨‹_›, (Option.some.inj h).symm⟩)
  split at h
  · exact Or.inr (Or.inr ⟨‹_›, (Option.some.inj h).symm⟩)
  · cases h

theorem pluginFile_eq_some {name : CStr} {img : Image} (h : pluginFile name = some img) :
    (name = "libq.so".toList ∧ img = prelinked 0xb0000000 []) ∨
      (name = "libp.so".toList ∧ img = prelinked 0xb1000000 ["app"]) ∨
      (name = "libr.so".toList ∧ img = prelinked 0xb2000000 ["libq.so"]) := openFile_eq_some h

/-- `libp.so` needs `app`, which needs `libq.so`. -/
theorem acyclic_plugin : Acyclic pluginWorld pluginExe := by
  let rank (name : CStr) : ℕ :=
    if name = "libq.so".toList then 0 else if name = "libp.so".toList then 2 else 1
  refine ⟨⟨rank, ?_, ?_⟩, ?_, ?_⟩
  · intro tick name img d n ho hd hn
    rcases pluginFile_eq_some ho with ⟨rfl, rfl⟩ | ⟨rfl, rfl⟩ | ⟨rfl, rfl⟩
    all_goals cases hd; revert n; decide
  · intro d n hd hn
    cases hd
    revert n
    decide
  · intro tick name img d n ho hd hn
    rcases pluginFile_eq_some ho with ⟨rfl, rfl⟩ | ⟨rfl, rfl⟩ | ⟨rfl, rfl⟩
    all_goals cases hd; revert n; decide
  · intro d hd
    cases hd
    decide

theorem lifetime_reopened : Lifetime pluginWorld (KeepsExe pluginExe)
    (next pluginWorld (pluginOpened "libr.so") (.dlclose (.pool 2))) := by
  have h : Reach pluginWorld pluginExe noBits (KeepsExe pluginExe) (pluginOpened "libr.so") := by
    refine reach_pluginOpened "libr.so" ⟨?_, by simp⟩ (by decide)
    show _ ∧ _
    decide
  have hexe : ∀ y ∈ (pluginOpened "libr.so").linker.solist,
      ((pluginOpened "libr.so").linker.so y).flags.exe = true → (pluginOpened "libr.so").refs y = 0 := by
    decide
  have hk : KeepsExe pluginExe (pluginOpened "libr.so") (.dlclose (.pool 2)) := by
    refine ⟨trivial, ?_⟩
    rintro handle -
    exact ⟨System.refs_lt (by decide),
      fun y hy he => System.keptWithout_of_refs hy (hexe y hy he)⟩
  exact lifetime acyclic_plugin (.step h (by decide) hk (step_next (by decide)))

/-- Opening and closing `libp.so` raises the `refcount` of the executable to 1 and drops it again,
which unloads the executable and the `libq.so` that it needs. -/
theorem close_plugin_unloads : Acyclic pluginWorld pluginExe ∧ ∃ S S',
    Reach pluginWorld pluginExe noBits (Scope pluginExe) S ∧ Matched S (.dlclose (.pool 2)) ∧
    step pluginWorld S (.dlclose (.pool 2)) = .ok S' ∧
    InUse S.linker (remaining S (.dlclose (.pool 2))) (.pool 1) ∧
    .munmap (.pool 1) ∈ S'.linker.log ∧ .pool 1 ∉ S'.linker.solist ∧
    ¬ Lifetime pluginWorld (Scope pluginExe) S := by
  have hm : Matched (pluginOpened "libp.so") (.dlclose (.pool 2)) := by decide
  have hs : step pluginWorld (pluginOpened "libp.so") (.dlclose (.pool 2)) =
      .ok (next pluginWorld (pluginOpened "libp.so") (.dlclose (.pool 2))) :=
    step_next (by decide)
  have hu : InUse (pluginOpened "libp.so").linker
      (remaining (pluginOpened "libp.so") (.dlclose (.pool 2))) (.pool 1) :=
    .needed (y := .pool 0) (n := "libq.so".toList)
      (d := { tables := true, needed := ["libq.so".toList], relocates := true })
      (.exe (by decide) (by decide)) (by decide) (by decide) (by decide)
  have hgone : .pool 1 ∉ (next pluginWorld (pluginOpened "libp.so") (.dlclose (.pool 2))).linker.solist := by
    decide
  refine ⟨acyclic_plugin, _, _, reach_pluginOpened "libp.so" ?_ (by decide), hm, hs, hu,
    by decide, hgone, fun h => ?_⟩
  · show _ ∧ _
    decide
  · obtain ⟨S', hs', hk⟩ := h.kept _ hm trivial
    rw [hs] at hs'
    cases hs'
    exact hgone (hk _ hu).1

end Bionic.Linker
