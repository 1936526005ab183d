import Bionic.LinkedList
import Bionic.Linker

/-! # The link map for the debugger

The linker keeps a doubly linked list of `link_map` structures, which are fields of the `soinfo`
structures, from `_r_debug.r_map` to `r_debug_tail`.  `debug_map` is about all sequences of loads and
unloads after `__linker_init`: the list contains the executable, the linker and the loaded libraries
in the order in which they were loaded, and reads the same in both directions. -/

namespace Bionic.Linker.DebugMap

open LinkedList

/-! ### The code -/

/-- The `soinfo` that a `link_map` is a field of: `linker_soinfo` or another one. -/
inductive Node where
  | linker
  | so (si : Ptr)
deriving DecidableEq, Repr

structure LinkMap where
  lAddr : ℕ := 0
  lName : CStr := []
  lLd : DynPtr := .null
  lNext : Option Node := none
  lPrev : Option Node := none

inductive RState where
  | consistent
  | add
  | delete
deriving DecidableEq, Repr

/-- The `link_map` structures, `_r_debug` and `r_debug_tail`. -/
structure Debug where
  map : Node → LinkMap
  rMap : Option Node
  tail : Option Node
  rState : RState

/-- The static initialisation. -/
def initial : Debug := ⟨fun _ => {}, none, none, .consistent⟩

namespace Debug

variable (D : Debug)

def update (n : Node) (f : LinkMap → LinkMap) : Debug :=
  { D with map := Function.update D.map n (f (D.map n)) }

def setNext (n : Node) (p : Option Node) : Debug := D.update n fun m => { m with lNext := p }

def setPrev (n : Node) (p : Option Node) : Debug := D.update n fun m => { m with lPrev := p }

def next (n : Node) : Option Node := (D.map n).lNext

def prev (n : Node) : Option Node := (D.map n).lPrev

/-- Copy the necessary fields into the debug structure. -/
def describe (n : Node) (info : Soinfo) : Debug :=
  D.update n fun m => { m with lAddr := info.base, lName := info.name, lLd := info.dynamic }

/-- `insert_soinfo_into_debug_map`, where `n` is the node of `info`. -/
def insertSoinfoIntoDebugMap (n : Node) (info : Soinfo) : Debug :=
  let D := D.describe n info
  match D.tail with
  | some t => { ((D.setNext t (some n)).setPrev n (some t)).setNext n none with tail := some n }
  | none => { ({ D with rMap := some n }.setPrev n none).setNext n none with tail := some n }

/-- `if (r_debug_tail == map) r_debug_tail = map->l_prev`. -/
def leaveTail (n : Node) : Debug := if D.tail = some n then { D with tail := D.prev n } else D

/-- `if (map->l_prev) map->l_prev->l_next = map->l_next`. -/
def skipForward (n : Node) : Debug :=
  match D.prev n with
  | some p => D.setNext p (D.next n)
  | none => D

/-- `if (map->l_next) map->l_next->l_prev = map->l_prev`. -/
def skipBackward (n : Node) : Debug :=
  match D.next n with
  | some q => D.setPrev q (D.prev n)
  | none => D

/-- `remove_soinfo_from_debug_map`. -/
def removeSoinfoFromDebugMap (n : Node) : Debug := ((D.leaveTail n).skipForward n).skipBackward n

/-- `notify_gdb_of_load`. -/
def notifyGdbOfLoad (si : Ptr) (info : Soinfo) : Debug :=
  if info.flags.exe then D
  else { { D with rState := .add }.insertSoinfoIntoDebugMap (.so si) info with rState := .consistent }

/-- `notify_gdb_of_unload`. -/
def notifyGdbOfUnload (si : Ptr) (info : Soinfo) : Debug :=
  if info.flags.exe then D
  else { { D with rState := .delete }.removeSoinfoFromDebugMap (.so si) with rState := .consistent }

/-- What `memset(si, 0, sizeof(soinfo))` in `alloc_info` does to the `link_map` of `si`. -/
def clear (si : Ptr) : Debug := D.update (.so si) fun _ => {}

/-- The part of `__linker_init` that sets up the list; `si` is the entry of the executable. -/
def bootstrap (si : Ptr) (argv0 : CStr) : Debug :=
  let D := D.update (.so si) fun m => { m with lAddr := 0, lName := argv0, lPrev := none, lNext := none }
  let D := { D with rMap := some (.so si), tail := some (.so si) }
  D.insertSoinfoIntoDebugMap .linker { name := "/system/bin/linker".toList }

end Debug

/-! ### The fields as maps -/

section Fields

variable (D : Debug) (n : Node) (p : Option Node)

@[simp] theorem next_setNext : (D.setNext n p).next = Function.update D.next n p := by
  funext m
  by_cases h : m = n <;> simp [Debug.next, Debug.setNext, Debug.update, h]

@[simp] theorem prev_setNext : (D.setNext n p).prev = D.prev := by
  funext m
  by_cases h : m = n <;> simp [Debug.prev, Debug.setNext, Debug.update, h]

@[simp] theorem next_setPrev : (D.setPrev n p).next = D.next := by
  funext m
  by_cases h : m = n <;> simp [Debug.next, Debug.setPrev, Debug.update, h]

@[simp] theorem prev_setPrev : (D.setPrev n p).prev = Function.update D.prev n p := by
  funext m
  by_cases h : m = n <;> simp [Debug.prev, Debug.setPrev, Debug.update, h]

@[simp] theorem next_describe (info : Soinfo) : (D.describe n info).next = D.next := by
  funext m
  by_cases h : m = n <;> simp [Debug.next, Debug.describe, Debug.update, h]

@[simp] theorem prev_describe (info : Soinfo) : (D.describe n info).prev = D.prev := by
  funext m
  by_cases h : m = n <;> simp [Debug.prev, Debug.describe, Debug.update, h]

@[simp] theorem rMap_setNext : (D.setNext n p).rMap = D.rMap := rfl
@[simp] theorem tail_setNext : (D.setNext n p).tail = D.tail := rfl
@[simp] theorem rMap_setPrev : (D.setPrev n p).rMap = D.rMap := rfl
@[simp] theorem tail_setPrev : (D.setPrev n p).tail = D.tail := rfl

end Fields

/-- The list `l` from `_r_debug.r_map` to `r_debug_tail`. -/
def Lists (D : Debug) (l : List Node) : Prop := Doubly D.next D.prev D.rMap D.tail l

section Operations

variable {D : Debug} {l r : List Node} {a n : Node}

/-- The node is not in the list, so its fields do not matter. -/
theorem Lists.update (h : Lists D l) (hn : n ∉ l) (f : LinkMap → LinkMap) : Lists (D.update n f) l := by
  refine Doubly.congr h (fun m hm => ?_) fun m hm => ?_
  all_goals
    have hne : m ≠ n := fun he => hn (he ▸ hm)
    simp [Debug.next, Debug.prev, Debug.update, hne]

theorem Lists.insert (h : Lists D l) (hl : l ≠ []) (hn : n ∉ l) (info : Soinfo) :
    Lists (D.insertSoinfoIntoDebugMap n info) (l ++ [n]) := by
  obtain ⟨l₀, t, rfl⟩ : ∃ l₀ t, l = l₀ ++ [t] := ⟨_, _, (List.dropLast_append_getLast hl).symm⟩
  have ht : D.tail = some t := (Doubly.tail_eq h).trans List.getLast?_concat
  have hd : Doubly D.next D.prev D.rMap (some t) (l₀ ++ [t]) := ht ▸ h
  have heq : D.insertSoinfoIntoDebugMap n info =
      { (((D.describe n info).setNext t (some n)).setPrev n (some t)).setNext n none with
        tail := some n } := by
    have ht' : (D.describe n info).tail = some t := ht
    rw [Debug.insertSoinfoIntoDebugMap]
    simp only [ht']
  have hnext : (D.insertSoinfoIntoDebugMap n info).next =
      Function.update (Function.update D.next t (some n)) n none := by
    rw [heq]
    exact (next_setNext _ _ _).trans (by simp)
  have hprev : (D.insertSoinfoIntoDebugMap n info).prev = Function.update D.prev n (some t) := by
    rw [heq]
    exact (prev_setNext _ _ _).trans (by simp)
  rw [Lists, hnext, hprev, heq]
  exact hd.push_back hn

theorem leaveTail_eq : D.leaveTail n =
    { D with tail := if D.tail = some n then D.prev n else D.tail } := by
  unfold Debug.leaveTail
  split <;> rfl

theorem skipForward_eq {p : Node} (h : D.prev n = some p) : D.skipForward n = D.setNext p (D.next n) := by
  rw [Debug.skipForward, h]

theorem skipBackward_eq {q : Node} (h : D.next n = some q) : D.skipBackward n = D.setPrev q (D.prev n) := by
  rw [Debug.skipBackward, h]

theorem skipBackward_none (h : D.next n = none) : D.skipBackward n = D := by
  rw [Debug.skipBackward, h]

/-- A node behind the first is taken out, at the end or before it. -/
theorem Lists.remove (h : Lists D (l ++ a :: n :: r)) :
    Lists (D.removeSoinfoFromDebugMap n) (l ++ a :: r) := by
  have hp : D.prev n = some a := Doubly.prev_eq h
  have hne : n ≠ a := by
    have hnd := (List.nodup_append.1 (Doubly.nodup h)).2.1
    exact fun he => (List.nodup_cons.1 hnd).1 (he ▸ List.mem_cons_self)
  have hl : l ++ a :: n :: r = (l ++ [a]) ++ n :: r := by simp
  have hn : D.next n = r.head? := Doubly.next_eq (hl ▸ h)
  have hfwd : (D.leaveTail n).skipForward n = { D with
      tail := if D.tail = some n then D.prev n else D.tail }.setNext a (D.next n) := by
    rw [leaveTail_eq]
    exact skipForward_eq hp
  have hnext : ((D.leaveTail n).skipForward n).next = Function.update D.next a (D.next n) := by
    rw [hfwd, next_setNext]
    rfl
  have hprev : ((D.leaveTail n).skipForward n).prev = D.prev := by
    rw [hfwd, prev_setNext]
    rfl
  have hnn : ((D.leaveTail n).skipForward n).next n = r.head? := by
    rw [hnext, Function.update_of_ne hne, hn]
  have htail := Doubly.tail_eq h
  unfold Debug.removeSoinfoFromDebugMap
  cases r with
  | nil =>
      rw [hl, List.getLast?_concat] at htail
      rw [skipBackward_none hnn, Lists, hnext, hprev, hfwd, tail_setNext, rMap_setNext, if_pos htail]
      exact Doubly.unlink_last (hl ▸ h)
  | cons b r =>
      have ht : D.tail ≠ some n := by
        intro ht
        rw [hl, List.getLast?_append_of_ne_nil _ (List.cons_ne_nil _ _), List.getLast?_cons_cons, ht] at htail
        have hnd := (List.nodup_append.1 (Doubly.nodup h)).2.1
        exact (List.nodup_cons.1 (List.nodup_cons.1 hnd).2).1 (List.mem_of_getLast? htail.symm)
      rw [skipBackward_eq hnn, Lists, next_setPrev, prev_setPrev, hnext, hprev, rMap_setPrev,
        tail_setPrev, hfwd, tail_setNext, rMap_setNext, if_neg ht]
      exact Doubly.unlink_middle h

end Operations

/-! ### Sequences of loads and unloads -/

/-- The states reached from `__linker_init` by loads and unloads of libraries; `live` are the loaded
ones in the order of their loads.  An entry that is not loaded may be allocated anew. -/
inductive Run (exe : Ptr) : Debug → List Ptr → Prop where
  | init (argv0 : CStr) : Run exe (initial.bootstrap exe argv0) []
  | alloc {D : Debug} {live : List Ptr} {si : Ptr} : Run exe D live → si ∉ live → si ≠ exe →
      Run exe (D.clear si) live
  | load {D : Debug} {live : List Ptr} {si : Ptr} {info : Soinfo} : Run exe D live → si ∉ live →
      si ≠ exe → info.flags.exe = false → Run exe (D.notifyGdbOfLoad si info) (live ++ [si])
  | unload {D : Debug} {live : List Ptr} {si : Ptr} {info : Soinfo} : Run exe D live → si ∈ live →
      info.flags.exe = false → Run exe (D.notifyGdbOfUnload si info) (live.erase si)

/-- The executable, the linker and the libraries. -/
def nodes (exe : Ptr) (live : List Ptr) : List Node := .so exe :: .linker :: live.map .so

theorem so_mem_nodes {exe si : Ptr} {live : List Ptr} :
    Node.so si ∈ nodes exe live ↔ si = exe ∨ si ∈ live := by
  simp [nodes]

theorem bootstrap_lists (exe : Ptr) (argv0 : CStr) :
    Lists (initial.bootstrap exe argv0) (nodes exe []) := by
  have h : Lists { initial.update (.so exe) fun m =>
      { m with lAddr := 0, lName := argv0, lPrev := none, lNext := none } with
      rMap := some (.so exe), tail := some (.so exe) } [.so exe] := by
    refine ⟨⟨rfl, ?_⟩, rfl, ?_⟩
    · simp [Debug.next, Debug.update]
    · simp [Debug.prev, Debug.update]
  exact h.insert (List.cons_ne_nil _ _) (by simp) _

theorem debug_map {exe : Ptr} {D : Debug} {live : List Ptr} (h : Run exe D live) :
    Seg D.next D.rMap (nodes exe live) none ∧ Seg D.prev D.tail (nodes exe live).reverse none ∧
      (nodes exe live).Nodup := by
  have hlists : Lists D (nodes exe live) := by
    induction h with
    | init argv0 => exact bootstrap_lists exe argv0
    | alloc _ hl he ih =>
        refine ih.update (fun hm => ?_) _
        exact (so_mem_nodes.1 hm).elim he hl
    | @load D live si info _ hl he hf ih =>
        have hn : Node.so si ∉ nodes exe live := fun hm => (so_mem_nodes.1 hm).elim he hl
        have hi := Lists.insert (D := { D with rState := .add }) ih (List.cons_ne_nil _ _) hn info
        have hlist : nodes exe (live ++ [si]) = nodes exe live ++ [.so si] := by simp [nodes]
        rw [hlist, Debug.notifyGdbOfLoad, hf, if_neg Bool.false_ne_true]
        exact hi
    | @unload D live si info _ hl hf ih =>
        obtain ⟨l₁, l₂, hl₁, rfl, herase⟩ := List.exists_erase_eq hl
        obtain ⟨l₀, a, hl₀⟩ : ∃ l₀ a, nodes exe l₁ = l₀ ++ [a] :=
          ⟨_, _, (List.dropLast_append_getLast (List.cons_ne_nil _ _)).symm⟩
        have hsplit : ∀ l, nodes exe (l₁ ++ l) = l₀ ++ a :: l.map .so := by
          intro l
          have hap : nodes exe (l₁ ++ l) = nodes exe l₁ ++ l.map .so := by simp [nodes]
          rw [hap, hl₀, List.append_assoc]
          rfl
        rw [hsplit] at ih
        have hr := Lists.remove (D := { D with rState := .delete }) ih
        rw [herase, hsplit, Debug.notifyGdbOfUnload, hf, if_neg Bool.false_ne_true]
        exact hr
  exact ⟨hlists.forward, hlists.backward, Doubly.nodup hlists⟩

/-- Two libraries are loaded, the first is unloaded, and its entry is allocated and loaded again. -/
def reloaded : Debug :=
  ((((initial.bootstrap (.pool 0) ['a']).notifyGdbOfLoad (.pool 1) { name := ['b'] }).notifyGdbOfLoad
    (.pool 2) { name := ['c'] }).notifyGdbOfUnload (.pool 1) { name := ['b'] }).clear (.pool 1)
    |>.notifyGdbOfLoad (.pool 1) { name := ['d'] }

theorem run_reloaded : Run (.pool 0) reloaded [.pool 2, .pool 1] := by
  have h₀ : Run (.pool 0) _ [] := .init ['a']
  have h₁ := @Run.load _ _ _ (.pool 1) { name := ['b'] } h₀ (by decide) (by decide) rfl
  have h₂ := @Run.load _ _ _ (.pool 2) { name := ['c'] } h₁ (by decide) (by decide) rfl
  have h₃ := @Run.unload _ _ _ (.pool 1) { name := ['b'] } h₂ (by decide) rfl
  have h₄ := @Run.alloc _ _ _ (.pool 1) h₃ (by decide) (by decide)
  exact .load h₄ (by decide) (by decide) rfl

theorem debug_map_reloaded :
    Seg reloaded.next reloaded.rMap [.so (.pool 0), .linker, .so (.pool 2), .so (.pool 1)] none ∧
      Seg reloaded.prev reloaded.tail [.so (.pool 1), .so (.pool 2), .linker, .so (.pool 0)] none ∧
      (nodes (.pool 0) [.pool 2, .pool 1]).Nodup :=
  debug_map run_reloaded

end Bionic.Linker.DebugMap
