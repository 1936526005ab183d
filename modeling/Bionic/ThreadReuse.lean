import Bionic.ThreadKeys
import Bionic.ThreadReclaim

/-! # Descriptors that are given out again

`_pthread_internal_alloc` takes the descriptors from the heap, and a block that `_pthread_internal_free` has given back may
become the descriptor of a later thread, or anything else.  Here a descriptor is an address: the list, the arguments of
`pthread_join` and `pthread_detach` and what `__get_thread` returns are addresses, `pthread_create` may be given each block
that is not in use, and what is in such a block may change at any time.

If no descriptor is freed before its thread has done with it, nobody sees the difference: such a run is one of `Threads`,
where each thread has a descriptor of its own for ever (`exists_names`).  So `reclaimed_once` holds of the blocks
(`blocks_reclaimed`). -/

namespace Bionic.ThreadReuse

open Threads

variable {T A : Type}

structure Sys (T A : Type) where
  list : List A
  lock : Option T
  desc : A → Desc
  pc : T → Pc A
  crashed : Bool
  /-- What `__get_thread` returns. -/
  self : T → A
  allocated : A → Bool
  /-- The thread that the block has last been allocated for; the counters are those of its descriptor. -/
  thread : A → T
  stored : T → Option Word
  removed : T → ℕ
  freed : T → ℕ
  joins : T → ℕ

section

variable [DecidableEq T] [DecidableEq A]

/-- After `__libc_init_common`; `a` is the static descriptor of the main thread. -/
def start (main : T) (a : A) : Sys T A where
  list := [a]
  lock := none
  desc := Function.update (fun _ => initThread false false) a mainThread
  pc := Function.update (fun _ => .fresh) main .running
  crashed := false
  self := fun _ => a
  allocated := Function.update (fun _ => false) a true
  thread := fun _ => main
  stored := fun _ => none
  removed := fun _ => 0
  freed := fun _ => 0
  joins := fun _ => 0

/-! ### The steps -/

namespace Sys

variable (s : Sys T A)

def goto (t : T) (pc : Pc A) : Sys T A := { s with pc := Function.update s.pc t pc }

def setDesc (a : A) (d : Desc) : Sys T A := { s with desc := Function.update s.desc a d }

/-- `pthread_create` for the new thread `u`, where `calloc` gives the block `a`. -/
def create (u : T) (a : A) (detached userStack : Bool) : Sys T A :=
  ({ s with
    list := a :: s.list
    allocated := Function.update s.allocated a true
    thread := Function.update s.thread a u
    self := Function.update s.self u a }.setDesc a (initThread detached userStack)).goto u .starting

def unlinked (a : A) (list : List A) : Sys T A :=
  { s with
    list := list
    removed := Function.update s.removed (s.thread a) (s.removed (s.thread a) + 1) }

/-- The removal of `a` follows a null pointer if `a` is in the list, and links in freed memory if it is not. -/
def crash (a : A) : Sys T A :=
  { s with
    crashed := true
    removed :=
      if a ∈ s.list then s.removed
      else Function.update s.removed (s.thread a) (s.removed (s.thread a) + 1) }

/-- `_pthread_internal_free`. -/
def internalFree (a : A) : Sys T A :=
  { s with
    desc := Function.update s.desc a { s.desc a with intern := false }
    allocated := if (s.desc a).intern then Function.update s.allocated a false else s.allocated
    freed := Function.update s.freed (s.thread a) (s.freed (s.thread a) + 1) }

/-- The end of `pthread_join`, where `count` is in `join_count`; after it there is only `return 0`. -/
def joinEnd (t : T) (a : A) (count : ℤ) : Sys T A :=
  let s' := { s.setDesc a { s.desc a with joinCount := count } with
    joins := Function.update s.joins (s.thread a) (s.joins (s.thread a) + 1) }
  if count ≤ 0 then
    match removeLocked s.list a with
    | some list => ((s'.unlinked a list).internalFree a).goto t .running
    | none => s.crash a
  else s'.goto t .running

def pthreadJoin (t : T) (a : A) : Sys T A :=
  if a ∉ s.list then s
  else if (s.desc a).detached then s
  else if 0 ≤ (s.desc a).joinCount then
    (s.setDesc a { s.desc a with joinCount := (s.desc a).joinCount + 1 }).goto t
      (.joinWait a (s.desc a).joinCond)
  else s.joinEnd t a (s.desc a).joinCount

def pthreadDetach (a : A) : Sys T A :=
  if a ∉ s.list then s
  else if (s.desc a).detached then s
  else s.setDesc a { s.desc a with detached := true }

def exitStore (t : T) (retval : Word) : Sys T A :=
  let thread := s.self t
  let s' := { s with lock := some t, stored := Function.update s.stored t (some retval) }
  if 0 < (s.desc thread).joinCount then
    (s'.setDesc thread { s.desc thread with returnValue := retval }).goto t .exitBroadcast
  else
    (s'.setDesc thread { s.desc thread with returnValue := retval, joinCount := -1 }).goto t .exitUnlock

def wakeJoiners (a : A) : Sys T A :=
  { s with pc := fun u => if s.pc u = .joinAsleep a then .joinLock a else s.pc u }

end Sys

/-- What happens next: as in `Threads`, or a block that is not in use gets other contents. -/
inductive Act (T A : Type)
  | exec (t : T)
  | create (t thread : T) (a : A) (detached userStack : Bool)
  | reuse (a : A) (desc : Desc)
  | exit (t : T) (retval : Word)
  | join (t : T) (a : A)
  | detach (t : T) (a : A)
  | spurious (t : T)
deriving DecidableEq, Repr

/-- One step of the thread `t`. -/
def exec (s : Sys T A) (t : T) : Option (Sys T A) :=
  let thread := s.self t
  match s.pc t with
  | .starting => some ((s.setDesc thread { s.desc thread with tls := true }).goto t .running)
  | .joinWait a oldvalue =>
      if (s.desc a).joinCond = oldvalue then some (s.goto t (.joinAsleep a))
      else some (s.goto t (.joinLock a))
  | .joinLock a =>
      if s.lock = none then some (s.joinEnd t a ((s.desc a).joinCount - 1)) else none
  | .exitTest retval =>
      if (s.desc thread).detached then some (s.goto t .exitRemove) else some (s.goto t (.exitLock retval))
  | .exitRemove =>
      if s.lock = none then
        match removeLocked s.list thread with
        | some list => some ((s.unlinked thread list).goto t .exitFree)
        | none => some (s.crash thread)
      else none
  | .exitFree => some ((s.internalFree thread).goto t .exitLeave)
  | .exitLock retval => if s.lock = none then some (s.exitStore t retval) else none
  | .exitBroadcast =>
      some ((s.setDesc thread { s.desc thread with joinCond := (s.desc thread).joinCond - 1 }).goto t .exitWake)
  | .exitWake => some ((s.wakeJoiners thread).goto t .exitUnlock)
  | .exitUnlock => some ({ s with lock := none }.goto t .exitLeave)
  | .exitLeave => some (s.goto t .gone)
  | _ => none

/-- One step of the system; `none` if the action is not possible. -/
def step (s : Sys T A) (act : Act T A) : Option (Sys T A) :=
  if s.crashed then none
  else
    match act with
    | .exec t => exec s t
    | .create t u a detached userStack =>
        if s.pc t = .running ∧ s.pc u = .fresh ∧ s.lock = none ∧ s.allocated a = false then
          some (s.create u a detached userStack)
        else none
    | .reuse a desc => if s.allocated a then none else some (s.setDesc a desc)
    | .exit t retval => if s.pc t = .running then some (s.goto t (.exitTest retval)) else none
    | .join t a => if s.pc t = .running ∧ s.lock = none then some (s.pthreadJoin t a) else none
    | .detach t a => if s.pc t = .running ∧ s.lock = none then some (s.pthreadDetach a) else none
    | .spurious t =>
        match s.pc t with
        | .joinAsleep a => some (s.goto t (.joinLock a))
        | _ => none

/-- `Threads.orderly`, of the thread that the descriptor belongs to. -/
def orderly (s : Sys T A) : Act T A → Bool
  | .detach _ a =>
      !(a ∈ s.list && !(s.desc a).detached) ||
        (s.desc a).joinCount == 0 && (s.pc (s.thread a)).phase.untested ||
        decide (0 < (s.desc a).joinCount) && !(s.pc (s.thread a)).phase.untested
  | .exec t =>
      match s.pc t with
      | .joinLock a => decide (1 < (s.desc a).joinCount) || (s.stored (s.thread a)).isSome
      | _ => true
  | _ => true

inductive Reach (main : T) (a : A) (ok : Sys T A → Act T A → Bool) : Sys T A → Prop
  | start : Reach main a ok (start main a)
  | step {s s' : Sys T A} {act : Act T A} :
      Reach main a ok s → ok s act = true → step s act = some s' → Reach main a ok s'

/-- Every interleaving. -/
def always (_ : Sys T A) (_ : Act T A) : Bool := true

/-- The actions, one after the other; `none` if one of them is not possible or not allowed. -/
def Sys.acts (ok : Sys T A → Act T A → Bool) (s : Sys T A) : List (Act T A) → Option (Sys T A)
  | [] => some s
  | act :: acts => if ok s act then (ThreadReuse.step s act).bind fun s' => s'.acts ok acts else none

theorem Reach.acts {main : T} {a : A} {ok : Sys T A → Act T A → Bool} {s s' : Sys T A} {acts : List (Act T A)}
    (h : Reach main a ok s) (e : s.acts ok acts = some s') : Reach main a ok s' := by
  induction acts generalizing s with
  | nil =>
      cases e
      exact h
  | cons act acts ih =>
      unfold Sys.acts at e
      split at e
      next allowed =>
        obtain ⟨s₁, h₁, e₁⟩ := Option.bind_eq_some_iff.1 e
        exact ih (h.step allowed h₁) e₁
      next => cases e

/-- The state the actions lead to. -/
theorem Reach.getD {main : T} {a : A} {ok : Sys T A → Act T A → Bool} {s : Sys T A} (h : Reach main a ok s)
    (acts : List (Act T A)) : Reach main a ok ((s.acts ok acts).getD s) := by
  cases e : s.acts ok acts with
  | none => exact h
  | some s' => exact h.acts e

end

/-! ### Threads and their descriptors -/

end Bionic.ThreadReuse

namespace Bionic.Threads

variable {T A : Type}

/-- The program counter, where `f` gives the descriptors of the threads; `pthread_key_delete` is left out. -/
def Pc.map (f : T → A) : Pc T → Pc A
  | .fresh => .fresh
  | .starting => .starting
  | .running => .running
  | .joinWait u oldvalue => .joinWait (f u) oldvalue
  | .joinAsleep u => .joinAsleep (f u)
  | .joinLock u => .joinLock (f u)
  | .joined u value => .joined (f u) value
  | .keyWalk _ => .keyWalk []
  | .keyWrite _ _ => .keyWalk []
  | .exitTest retval => .exitTest retval
  | .exitRemove => .exitRemove
  | .exitFree => .exitFree
  | .exitLock retval => .exitLock retval
  | .exitBroadcast => .exitBroadcast
  | .exitWake => .exitWake
  | .exitUnlock => .exitUnlock
  | .exitLeave => .exitLeave
  | .gone => .gone

@[simp] theorem Pc.map_phase (f : T → A) (pc : Pc T) : (pc.map f).phase = pc.phase := by
  cases pc <;> rfl

theorem Pc.map_congr [DecidableEq T] {f g : T → A} {pc : Pc T} (h : ∀ u, pc.joiner u ≠ .out → f u = g u) :
    pc.map f = pc.map g := by
  cases pc with
  | joinWait u oldvalue => rw [Pc.map, Pc.map, h u (by simp [Pc.joiner])]
  | joinAsleep u => rw [Pc.map, Pc.map, h u (by simp [Pc.joiner])]
  | joinLock u => rw [Pc.map, Pc.map, h u (by simp [Pc.joiner])]
  | joined u value => rw [Pc.map, Pc.map, h u (by simp [Pc.joiner])]
  | _ => rfl

theorem removeLocked_map [DecidableEq T] [DecidableEq A] {f : T → A} {list : List T} {u : T}
    (h : ∀ v ∈ list, f v = f u → v = u) :
    removeLocked (list.map f) (f u) = (removeLocked list u).map (List.map f) := by
  have mem : f u ∈ list.map f ↔ u ∈ list := by
    refine ⟨fun hm => ?_, List.mem_map_of_mem⟩
    obtain ⟨v, hv, e⟩ := List.mem_map.1 hm
    rwa [← h v hv e]
  have last : (list.map f).getLast? = some (f u) ↔ list.getLast? = some u := by
    rw [List.getLast?_map]
    refine ⟨fun e => ?_, fun e => by rw [e]; rfl⟩
    obtain ⟨v, hv, e⟩ := Option.map_eq_some_iff.1 e
    rw [hv, h v (List.mem_of_getLast? hv) e]
  have rest : (list.map f).filter (· != f u) = (list.filter (· != u)).map f := by
    rw [List.filter_map]
    refine congrArg _ (List.filter_congr fun v hv => ?_)
    by_cases e : v = u
    · simp [e]
    · have ne : f v ≠ f u := fun same => e (h v hv same)
      exact (bne_iff_ne.2 ne).trans (bne_iff_ne.2 e).symm
  unfold removeLocked
  by_cases hu : u ∈ list ∧ list.getLast? ≠ some u
  · rw [if_pos hu, if_pos ⟨mem.2 hu.1, fun e => hu.2 (last.1 e)⟩, rest]
    rfl
  · rw [if_neg hu, if_neg fun h => hu ⟨mem.1 h.1, fun e => h.2 (last.2 e)⟩]
    rfl

theorem Pc.map_eq_running {f : T → A} {pc : Pc T} : pc.map f = .running ↔ pc = .running := by
  cases pc <;> simp [Pc.map]

theorem Pc.map_eq_fresh {f : T → A} {pc : Pc T} : pc.map f = .fresh ↔ pc = .fresh := by
  cases pc <;> simp [Pc.map]

theorem Pc.map_eq_gone {f : T → A} {pc : Pc T} : pc.map f = .gone ↔ pc = .gone := by
  cases pc <;> simp [Pc.map]

theorem Pc.map_eq_joinAsleep {f : T → A} {pc : Pc T} {a : A} :
    pc.map f = .joinAsleep a ↔ ∃ u, pc = .joinAsleep u ∧ f u = a := by
  cases pc <;> simp [Pc.map]

theorem Pc.counted_iff [DecidableEq T] {pc : Pc T} {u : T} :
    (pc.joiner u).counted = true ↔ (∃ w, pc = .joinWait u w) ∨ pc = .joinAsleep u ∨ pc = .joinLock u := by
  constructor
  · intro h
    have self (v : T) (j : Joiner) (hj : (if v = u then j else .out).counted = true) : v = u := by
      by_contra e
      rw [if_neg e] at hj
      cases hj
    cases pc with
    | joinWait v w => exact .inl ⟨w, by rw [self v _ h]⟩
    | joinAsleep v => exact .inr (.inl (by rw [self v _ h]))
    | joinLock v => exact .inr (.inr (by rw [self v _ h]))
    | joined v value =>
        obtain rfl := self v _ h
        rw [Pc.joiner, if_pos rfl] at h
        cases h
    | _ => cases h
  · rintro (⟨w, rfl⟩ | rfl | rfl)
    all_goals
      simp only [Pc.joiner, if_true]
      rfl

theorem Pc.map_counted [DecidableEq T] [DecidableEq A] {f : T → A} {pc : Pc T} {u : T}
    (h : (pc.joiner u).counted = true) : ((pc.map f).joiner (f u)).counted = true := by
  rw [Pc.counted_iff] at h ⊢
  rcases h with ⟨w, rfl⟩ | rfl | rfl
  · exact .inl ⟨w, rfl⟩
  · exact .inr (.inl rfl)
  · exact .inr (.inr rfl)

end Bionic.Threads

namespace Bionic.ThreadReuse

open Threads

/-- The system where each descriptor has the name of its thread; `self` gives the block. -/
structure Names (s : Sys T A) (o : Threads.Sys T) : Prop where
  list : s.list = o.list.map s.self
  lock : s.lock = o.lock
  pc : ∀ t, s.pc t = (o.pc t).map s.self
  crashed : s.crashed = o.crashed
  stored : s.stored = o.stored
  removed : s.removed = o.removed
  freed : s.freed = o.freed
  joins : s.joins = o.joins
  desc : ∀ u, Held o u → s.desc (s.self u) = o.desc u
  thread : ∀ u, Held o u → s.thread (s.self u) = u
  allocated : ∀ u, Held o u → s.allocated (s.self u) = true

variable [DecidableEq T] [DecidableEq A] {s s' : Sys T A} {o o' : Threads.Sys T} {t u : T}

omit [DecidableEq T] [DecidableEq A] in
theorem Names.eq_of_self (h : Names s o) {v : T} (hu : Held o u) (hv : Held o v) (e : s.self v = s.self u) : v = u := by
  rw [← h.thread u hu, ← e, h.thread v hv]

omit [DecidableEq A] in
theorem Names.mem_iff (h : Names s o) (tidy : Tidy o) (hu : Held o u) : s.self u ∈ s.list ↔ u ∈ o.list := by
  rw [h.list]
  refine ⟨fun hm => ?_, List.mem_map_of_mem⟩
  obtain ⟨v, hv, e⟩ := List.mem_map.1 hm
  rwa [← h.eq_of_self hu (tidy.listed v hv) e]

omit [DecidableEq T] [DecidableEq A] in
theorem Names.exists_mem (h : Names s o) {a : A} (ha : a ∈ s.list) : ∃ u ∈ o.list, s.self u = a := by
  rw [h.list] at ha
  exact List.mem_map.1 ha

theorem Names.removeLocked (h : Names s o) (tidy : Tidy o) (hu : Held o u) :
    Threads.removeLocked s.list (s.self u) = (Threads.removeLocked o.list u).map (List.map s.self) := by
  rw [h.list]
  exact removeLocked_map fun v hv e => h.eq_of_self hu (tidy.listed v hv) e

/-! ### Updates -/

omit [DecidableEq A] in
theorem Names.goto (h : Names s o) (ht : o.pc t ≠ .fresh) (pc : Pc T) :
    Names (s.goto t (pc.map s.self)) (o.goto t pc) := by
  have held (u : T) (hu : Held (o.goto t pc) u) : Held o u := by
    refine ⟨?_, hu.2⟩
    by_cases e : u = t
    · rwa [e]
    · rw [← goto_pc_of_ne o e]
      exact hu.1
  refine { h with
    pc := fun r => ?_
    desc := fun u hu => h.desc u (held u hu)
    thread := fun u hu => h.thread u (held u hu)
    allocated := fun u hu => h.allocated u (held u hu) }
  show Function.update s.pc t (pc.map s.self) r = (Function.update o.pc t pc r).map s.self
  by_cases e : r = t
  · rw [e, Function.update_self, Function.update_self]
  · rw [Function.update_of_ne e, Function.update_of_ne e, h.pc]

theorem Names.setDesc (h : Names s o) (hu : Held o u) (d : Desc) :
    Names (s.setDesc (s.self u) d) (o.setDesc u d) := by
  refine { h with desc := fun v hv => ?_ }
  show Function.update s.desc (s.self u) d (s.self v) = Function.update o.desc u d v
  by_cases e : v = u
  · rw [e, Function.update_self, Function.update_self]
  · rw [Function.update_of_ne fun same => e (h.eq_of_self hu hv same), Function.update_of_ne e]
    exact h.desc v hv

omit [DecidableEq A] in
theorem Names.unlinked (h : Names s o) (hu : Held o u) (list : List T) :
    Names (s.unlinked (s.self u) (list.map s.self)) (o.unlinked u list) := by
  refine { h with list := rfl, removed := ?_ }
  show Function.update s.removed (s.thread (s.self u)) _ = Function.update o.removed u _
  rw [h.thread u hu, h.removed]

theorem Names.crash (h : Names s o) (tidy : Tidy o) (hu : u ∈ o.list) : Names (s.crash (s.self u)) (o.crash u) := by
  have listed := (h.mem_iff tidy (tidy.listed u hu)).2 hu
  refine { h with crashed := rfl, removed := ?_ }
  show (if s.self u ∈ s.list then s.removed else _) = if u ∈ o.list then o.removed else _
  rw [if_pos listed, if_pos hu, h.removed]

theorem Names.internalFree (h : Names s o) (hu : Held o u) :
    Names (s.internalFree (s.self u)) (o.internalFree u) := by
  have held (v : T) (hv : Held (o.internalFree u) v) : v ≠ u ∧ Held o v := by
    have freed : Function.update o.freed u (o.freed u + 1) v = 0 := hv.2
    by_cases e : v = u
    · rw [e, Function.update_self] at freed
      cases freed
    · rw [Function.update_of_ne e] at freed
      exact ⟨e, hv.1, freed⟩
  have other (v : T) (hv : Held (o.internalFree u) v) : s.self v ≠ s.self u :=
    fun same => (held v hv).1 (h.eq_of_self hu (held v hv).2 same)
  refine { h with
    freed := ?_
    desc := fun v hv => ?_
    thread := fun v hv => h.thread v (held v hv).2
    allocated := fun v hv => ?_ }
  · show Function.update s.freed (s.thread (s.self u)) _ = Function.update o.freed u _
    rw [h.thread u hu, h.freed]
  · show Function.update s.desc (s.self u) _ (s.self v) = Function.update o.desc u _ v
    rw [Function.update_of_ne (other v hv), Function.update_of_ne (held v hv).1]
    exact h.desc v (held v hv).2
  · show (if (s.desc (s.self u)).intern then Function.update s.allocated (s.self u) false else s.allocated) (s.self v) =
      true
    split
    next =>
      rw [Function.update_of_ne (other v hv)]
      exact h.allocated v (held v hv).2
    next => exact h.allocated v (held v hv).2

/-- `o` after the `return 0` of a `pthread_join` on `u`. -/
def returned (o : Threads.Sys T) (t u : T) : Threads.Sys T :=
  { o with joins := Function.update o.joins u (o.joins u + 1) }.goto t .running

omit [DecidableEq A] in
theorem returned_goto (o : Threads.Sys T) (t u : T) (pc : Pc T) :
    returned (o.goto t pc) t u =
      { o with joins := Function.update o.joins u (o.joins u + 1) }.goto t .running := by
  simp only [returned, Threads.Sys.goto, Function.update_idem]

/-- The join has ended in `o` and is to return, or the removal has faulted. -/
theorem Names.joinEnd (h : Names s o) (tidy : Tidy o) (hu : u ∈ o.list) (ht : o.pc t ≠ .fresh) (count : ℤ) :
    (∃ v, (o.joinEnd t u count).pc t = .joined u v) ∧ (o.joinEnd t u count).crashed = o.crashed ∧
        Names (s.joinEnd t (s.self u) count) (returned (o.joinEnd t u count) t u) ∨
      Names (s.joinEnd t (s.self u) count) (o.joinEnd t u count) := by
  have held := tidy.listed u hu
  have counted : Names { s.setDesc (s.self u) { s.desc (s.self u) with joinCount := count } with
      joins := Function.update s.joins (s.thread (s.self u)) (s.joins (s.thread (s.self u)) + 1) }
      { o.setDesc u { o.desc u with joinCount := count } with
        joins := Function.update o.joins u (o.joins u + 1) } := by
    have set := h.setDesc held { o.desc u with joinCount := count }
    rw [h.desc u held, h.thread u held, h.joins]
    exact { set with joins := rfl }
  unfold Sys.joinEnd Threads.Sys.joinEnd
  dsimp only
  rw [h.removeLocked tidy held]
  by_cases le : count ≤ 0
  · rw [if_pos le, if_pos le]
    cases Threads.removeLocked o.list u with
    | none => exact .inr (h.crash tidy hu)
    | some list =>
        refine .inl ⟨⟨_, goto_pc_self _⟩, rfl, ?_⟩
        rw [returned_goto]
        exact ((counted.unlinked held list).internalFree held).goto ht .running
  · rw [if_neg le, if_neg le]
    refine .inl ⟨⟨_, goto_pc_self _⟩, rfl, ?_⟩
    rw [returned_goto]
    exact counted.goto ht .running

theorem Names.exitStore (h : Names s o) (held : Held o t) (retval : Word) :
    Names (s.exitStore t retval) (o.exitStore t retval) := by
  have base : Names { s with lock := some t, stored := Function.update s.stored t (some retval) }
      { o with lock := some t, stored := Function.update o.stored t (some retval) } :=
    { h with lock := rfl, stored := by rw [h.stored] }
  unfold Sys.exitStore Threads.Sys.exitStore
  dsimp only
  rw [h.desc t held]
  split
  next => exact (base.setDesc held _).goto held.1 .exitBroadcast
  next => exact (base.setDesc held _).goto held.1 .exitUnlock

theorem Names.wakeJoiners (h : Names s o) (tidy : Tidy o) (held : Held o t) :
    Names (s.wakeJoiners (s.self t)) (o.wakeJoiners t) := by
  have awake (r : T) (ne : o.pc r ≠ .joinAsleep t) : s.pc r ≠ .joinAsleep (s.self t) := by
    rw [h.pc r]
    intro e
    obtain ⟨v, pc, same⟩ := Pc.map_eq_joinAsleep.1 e
    have listed := tidy.waiting r v (Pc.counted_iff.2 (.inr (.inl pc)))
    exact ne (h.eq_of_self held (tidy.listed v listed) same ▸ pc)
  have still (u : T) (hu : Held (o.wakeJoiners t) u) : Held o u := by
    refine ⟨fun fresh => hu.1 ?_, hu.2⟩
    show (if o.pc u = .joinAsleep t then Pc.joinLock t else o.pc u) = .fresh
    rw [fresh, if_neg (by simp)]
  refine { h with
    pc := fun r => ?_
    desc := fun u hu => h.desc u (still u hu)
    thread := fun u hu => h.thread u (still u hu)
    allocated := fun u hu => h.allocated u (still u hu) }
  show (if s.pc r = .joinAsleep (s.self t) then Pc.joinLock (s.self t) else s.pc r) =
    (if o.pc r = .joinAsleep t then Pc.joinLock t else o.pc r).map s.self
  by_cases e : o.pc r = .joinAsleep t
  · rw [if_pos e, h.pc r, e]
    exact if_pos rfl
  · rw [if_neg e, if_neg (awake r e), h.pc r]

theorem Names.create (h : Names s o) (tidy : Tidy o) (fresh : o.pc u = .fresh) {a : A} (free : s.allocated a = false)
    (detached userStack : Bool) :
    Names (s.create u a detached userStack) (o.create u detached userStack) := by
  have named (v : T) (hv : o.pc v ≠ .fresh) : Function.update s.self u a v = s.self v :=
    Function.update_of_ne (fun e => hv (by rw [e, fresh])) ..
  have held (v : T) (hv : Held (o.create u detached userStack) v) (e : v ≠ u) : Held o v :=
    ⟨by have := hv.1; rwa [Threads.Sys.create, goto_pc_of_ne _ e] at this, hv.2⟩
  have other (v : T) (hv : Held o v) : Function.update s.self u a v ≠ a := by
    rw [named v hv.1]
    intro e
    have used := h.allocated v hv
    rw [e, free] at used
    cases used
  refine { h with
    list := ?_
    pc := fun r => ?_
    desc := fun v hv => ?_
    thread := fun v hv => ?_
    allocated := fun v hv => ?_ }
  · show a :: s.list = Function.update s.self u a u :: o.list.map (Function.update s.self u a)
    rw [Function.update_self, h.list]
    exact congrArg _ (List.map_congr_left fun v hv => (named v (tidy.listed v hv).1).symm)
  · show Function.update s.pc u .starting r = (Function.update o.pc u .starting r).map (Function.update s.self u a)
    by_cases e : r = u
    · rw [e, Function.update_self, Function.update_self]
      rfl
    · rw [Function.update_of_ne e, Function.update_of_ne e, h.pc r]
      exact Pc.map_congr fun v hv => (named v (tidy.joiner r v hv)).symm
  · show Function.update s.desc a (initThread detached userStack) (Function.update s.self u a v) =
      Function.update o.desc u (initThread detached userStack) v
    by_cases e : v = u
    · rw [e, Function.update_self, Function.update_self, Function.update_self]
    · have hv := held v hv e
      rw [Function.update_of_ne (other v hv), named v hv.1, Function.update_of_ne e]
      exact h.desc v hv
  · show Function.update s.thread a u (Function.update s.self u a v) = v
    by_cases e : v = u
    · rw [e, Function.update_self, Function.update_self]
    · have hv := held v hv e
      rw [Function.update_of_ne (other v hv), named v hv.1, h.thread v hv]
  · show Function.update s.allocated a true (Function.update s.self u a v) = true
    by_cases e : v = u
    · rw [e, Function.update_self, Function.update_self]
    · have hv := held v hv e
      rw [Function.update_of_ne (other v hv), named v hv.1, h.allocated v hv]

omit [DecidableEq T] in
theorem Names.reuse (h : Names s o) {a : A} (free : s.allocated a = false) (d : Desc) : Names (s.setDesc a d) o := by
  refine { h with desc := fun u hu => ?_ }
  have ne : s.self u ≠ a := by
    intro e
    have used := h.allocated u hu
    rw [e, free] at used
    cases used
  exact (Function.update_of_ne ne ..).trans (h.desc u hu)

/-! ### Steps -/

variable {main : T}

/-- The run of `Threads` goes on with a step of the thread `t`. -/
theorem reach_exec (t : T) (ho : Threads.Reach main Threads.orderly o) (alive : o.crashed = false)
    (ok : ∀ u, o.pc t = .joinLock u → 1 < (o.desc u).joinCount ∨ o.stored u ≠ none) (hs : Threads.exec o t = some o') :
    Threads.Reach main Threads.orderly o' := by
  have step : Threads.step o (.exec t) = some o' := by
    unfold Threads.step
    rw [alive]
    exact hs
  refine ho.step ?_ step
  unfold Threads.orderly freesAfterStore
  cases pc : o.pc t with
  | joinLock u => simpa [detachesInTime, pc, Option.isSome_iff_ne_none] using ok u pc
  | _ => simp [detachesInTime, pc]

/-- A join returns. -/
theorem reach_returned (ho : Threads.Reach main Threads.orderly o) (alive : o.crashed = false) {v : Word}
    (pc : o.pc t = .joined u v) : Threads.Reach main Threads.orderly (returned o t u) :=
  reach_exec t ho alive (by simp [pc]) (by simp only [Threads.exec, pc]; rfl)

theorem Names.joinEnd_reach (h : Names s o) (tidy : Tidy o) (hu : u ∈ o.list) (ht : o.pc t ≠ .fresh)
    (alive : o.crashed = false) (count : ℤ) (reach : Threads.Reach main Threads.orderly (o.joinEnd t u count)) :
    ∃ o', Threads.Reach main Threads.orderly o' ∧ Names (s.joinEnd t (s.self u) count) o' := by
  obtain ⟨⟨v, pc⟩, crashed, names⟩ | names := h.joinEnd tidy hu ht count
  · exact ⟨_, reach_returned reach (crashed.trans alive) pc, names⟩
  · exact ⟨_, reach, names⟩

theorem exec_names (h : Names s o) (ho : Threads.Reach main Threads.orderly o) (tidy : Tidy o)
    (alive : o.crashed = false) (ok : orderly s (.exec t) = true) (hs : exec s t = some s') :
    ∃ o', Threads.Reach main Threads.orderly o' ∧ Names s' o' := by
  have pc := h.pc t
  unfold exec at hs
  dsimp only at hs
  cases ho' : o.pc t with
  | fresh => rw [pc, ho'] at hs; cases hs
  | running => rw [pc, ho'] at hs; cases hs
  | joinAsleep u => rw [pc, ho'] at hs; cases hs
  | joined u v => rw [pc, ho'] at hs; cases hs
  | keyWalk rest => rw [pc, ho'] at hs; cases hs
  | keyWrite u rest => rw [pc, ho'] at hs; cases hs
  | gone => rw [pc, ho'] at hs; cases hs
  | starting =>
      have held := tidy.own t (by rw [ho']; rfl)
      rw [pc, ho'] at hs
      obtain rfl := Option.some.inj hs
      rw [h.desc t held]
      exact ⟨_, reach_exec t ho alive (by simp [ho']) (by simp only [Threads.exec, ho']),
        (h.setDesc held _).goto held.1 .running⟩
  | joinWait u oldvalue =>
      have held := tidy.listed u (tidy.waiting t u (Pc.counted_iff.2 (.inl ⟨oldvalue, ho'⟩)))
      rw [pc, ho'] at hs
      dsimp only [Pc.map] at hs
      rw [h.desc u held] at hs
      have ht : o.pc t ≠ .fresh := by rw [ho']; simp
      split at hs <;> obtain rfl := Option.some.inj hs
      next same =>
        exact ⟨_, reach_exec t ho alive (by simp [ho']) (by simp only [Threads.exec, ho', if_pos same]),
          h.goto ht (.joinAsleep u)⟩
      next moved =>
        exact ⟨_, reach_exec t ho alive (by simp [ho']) (by simp only [Threads.exec, ho', if_neg moved]),
          h.goto ht (.joinLock u)⟩
  | joinLock u =>
      have listed := tidy.waiting t u (Pc.counted_iff.2 (.inr (.inr ho')))
      have held := tidy.listed u listed
      have ht : o.pc t ≠ .fresh := by rw [ho']; simp
      have store : 1 < (o.desc u).joinCount ∨ o.stored u ≠ none := by
        simpa [orderly, pc, ho', Pc.map, h.desc u held, h.thread u held, h.stored, Option.isSome_iff_ne_none] using ok
      rw [pc, ho'] at hs
      dsimp only [Pc.map] at hs
      rw [h.desc u held, h.lock] at hs
      split at hs <;> cases hs
      next free =>
        refine h.joinEnd_reach tidy listed ht alive _ (reach_exec t ho alive (fun v hv => ?_) ?_)
        · obtain rfl : u = v := Pc.joinLock.inj (ho'.symm.trans hv)
          exact store
        · simp only [Threads.exec, ho', if_pos free]
  | exitTest retval =>
      have held := tidy.own t (by rw [ho']; rfl)
      rw [pc, ho'] at hs
      dsimp only [Pc.map] at hs
      rw [h.desc t held] at hs
      split at hs <;> obtain rfl := Option.some.inj hs
      next flag =>
        exact ⟨_, reach_exec t ho alive (by simp [ho']) (by simp only [Threads.exec, ho', if_pos flag]),
          h.goto held.1 .exitRemove⟩
      next flag =>
        exact ⟨_, reach_exec t ho alive (by simp [ho']) (by simp only [Threads.exec, ho', if_neg flag]),
          h.goto held.1 (.exitLock retval)⟩
  | exitRemove =>
      have held := tidy.own t (by rw [ho']; rfl)
      rw [pc, ho'] at hs
      dsimp only [Pc.map] at hs
      rw [h.lock, h.removeLocked tidy held] at hs
      split at hs
      next free =>
        cases removed : Threads.removeLocked o.list t with
        | none =>
            rw [removed] at hs
            obtain rfl := Option.some.inj hs
            exact ⟨_, reach_exec t ho alive (by simp [ho']) (by simp only [Threads.exec, ho', if_pos free, removed]),
              h.crash tidy (tidy.removes t ho')⟩
        | some list =>
            rw [removed] at hs
            obtain rfl := Option.some.inj hs
            exact ⟨_, reach_exec t ho alive (by simp [ho']) (by simp only [Threads.exec, ho', if_pos free, removed]),
              (h.unlinked held list).goto held.1 .exitFree⟩
      next => cases hs
  | exitFree =>
      have held := tidy.own t (by rw [ho']; rfl)
      rw [pc, ho'] at hs
      obtain rfl := Option.some.inj hs
      exact ⟨_, reach_exec t ho alive (by simp [ho']) (by simp only [Threads.exec, ho']),
        (h.internalFree held).goto held.1 .exitLeave⟩
  | exitLock retval =>
      have held := tidy.own t (by rw [ho']; rfl)
      rw [pc, ho'] at hs
      dsimp only [Pc.map] at hs
      rw [h.lock] at hs
      split at hs <;> cases hs
      next free =>
        exact ⟨_, reach_exec t ho alive (by simp [ho']) (by simp only [Threads.exec, ho', if_pos free]),
          h.exitStore held retval⟩
  | exitBroadcast =>
      have held := tidy.own t (by rw [ho']; rfl)
      rw [pc, ho'] at hs
      obtain rfl := Option.some.inj hs
      rw [h.desc t held]
      exact ⟨_, reach_exec t ho alive (by simp [ho']) (by simp only [Threads.exec, ho']),
        (h.setDesc held _).goto held.1 .exitWake⟩
  | exitWake =>
      have held := tidy.own t (by rw [ho']; rfl)
      rw [pc, ho'] at hs
      obtain rfl := Option.some.inj hs
      refine ⟨_, reach_exec t ho alive (by simp [ho']) (by simp only [Threads.exec, ho']),
        (h.wakeJoiners tidy held).goto ?_ .exitUnlock⟩
      show (if o.pc t = .joinAsleep t then Pc.joinLock t else o.pc t) ≠ .fresh
      rw [ho', if_neg (by simp)]
      nofun
  | exitUnlock =>
      have ht : o.pc t ≠ .fresh := by rw [ho']; simp
      rw [pc, ho'] at hs
      obtain rfl := Option.some.inj hs
      have base : Names { s with lock := none } { o with lock := none } := { h with lock := rfl }
      exact ⟨_, reach_exec t ho alive (by simp [ho']) (by simp only [Threads.exec, ho']), base.goto ht .exitLeave⟩
  | exitLeave =>
      have ht : o.pc t ≠ .fresh := by rw [ho']; simp
      rw [pc, ho'] at hs
      obtain rfl := Option.some.inj hs
      have base : Names s { o with unmapped := Function.update o.unmapped t (!(o.desc t).userStack) } :=
        { h with lock := h.lock }
      exact ⟨_, reach_exec t ho alive (by simp [ho']) (by simp only [Threads.exec, ho']), base.goto ht .gone⟩

theorem join_names (h : Names s o) (ho : Threads.Reach main Threads.orderly o) (tidy : Tidy o) (alive : o.crashed = false)
    (running : o.pc t = .running) (unlocked : s.lock = none) (a : A) :
    ∃ o', Threads.Reach main Threads.orderly o' ∧ Names (s.pthreadJoin t a) o' := by
  unfold Sys.pthreadJoin
  split
  next => exact ⟨o, ho, h⟩
  next listed =>
    obtain ⟨u, hu, rfl⟩ := h.exists_mem (not_not.1 listed)
    have held := tidy.listed u hu
    have ht : o.pc t ≠ .fresh := by rw [running]; simp
    have reach : Threads.Reach main Threads.orderly (o.pthreadJoin t u) := by
      refine ho.step (a := .join t u) rfl ?_
      simp [Threads.step, alive, running, ← h.lock, unlocked]
    unfold Threads.Sys.pthreadJoin at reach
    rw [if_neg (not_not.2 hu)] at reach
    rw [h.desc u held]
    split
    next => exact ⟨o, ho, h⟩
    next joinable =>
      rw [if_neg joinable] at reach
      split
      next count =>
        rw [if_pos count] at reach
        exact ⟨_, reach, (h.setDesc held _).goto ht (.joinWait u (o.desc u).joinCond)⟩
      next count =>
        rw [if_neg count] at reach
        exact h.joinEnd_reach tidy hu ht alive _ reach

theorem detach_names {a : A} (h : Names s o) (ho : Threads.Reach main Threads.orderly o) (tidy : Tidy o)
    (alive : o.crashed = false) (running : o.pc t = .running) (unlocked : s.lock = none)
    (ok : orderly s (.detach t a) = true) :
    ∃ o', Threads.Reach main Threads.orderly o' ∧ Names (s.pthreadDetach a) o' := by
  unfold Sys.pthreadDetach
  split
  next => exact ⟨o, ho, h⟩
  next listed =>
    obtain ⟨u, hu, rfl⟩ := h.exists_mem (not_not.1 listed)
    have held := tidy.listed u hu
    rw [h.desc u held]
    split
    next => exact ⟨o, ho, h⟩
    next joinable =>
      refine ⟨_, ho.step (a := .detach t u) ?_ ?_, h.setDesc held { o.desc u with detached := true }⟩
      · have memory : s.self u ∈ s.list := not_not.1 listed
        simpa [orderly, Threads.orderly, detachesInTime, freesAfterStore, memory, hu, h.desc u held, h.thread u held,
          h.pc u] using ok
      · simp [Threads.step, alive, running, ← h.lock, unlocked, Threads.Sys.pthreadDetach, hu, joinable]

theorem step_names {act : Act T A} (h : Names s o) (ho : Threads.Reach main Threads.orderly o) (tidy : Tidy o)
    (ok : orderly s act = true) (hs : step s act = some s') :
    ∃ o', Threads.Reach main Threads.orderly o' ∧ Names s' o' := by
  unfold step at hs
  split at hs
  next => cases hs
  next alive =>
    rw [h.crashed] at alive
    have alive : o.crashed = false := by simpa using alive
    cases act with
    | exec t => exact exec_names h ho tidy alive ok hs
    | create t u a detached userStack =>
        dsimp only at hs
        split at hs <;> cases hs
        next can =>
          obtain ⟨running, fresh, unlocked, free⟩ := can
          rw [h.pc, Pc.map_eq_running] at running
          rw [h.pc, Pc.map_eq_fresh] at fresh
          refine ⟨_, ho.step (a := .create t u detached userStack) rfl ?_, h.create tidy fresh free detached userStack⟩
          simp [Threads.step, alive, running, fresh, ← h.lock, unlocked]
    | reuse a d =>
        dsimp only at hs
        split at hs <;> cases hs
        next free => exact ⟨o, ho, h.reuse (by simpa using free) d⟩
    | exit t retval =>
        dsimp only at hs
        split at hs <;> cases hs
        next running =>
          rw [h.pc, Pc.map_eq_running] at running
          refine ⟨_, ho.step (a := .exit t retval) rfl ?_, h.goto (by rw [running]; simp) (.exitTest retval)⟩
          simp [Threads.step, alive, running]
    | join t a =>
        dsimp only at hs
        split at hs <;> cases hs
        next can =>
          obtain ⟨running, unlocked⟩ := can
          rw [h.pc, Pc.map_eq_running] at running
          exact join_names h ho tidy alive running unlocked a
    | detach t a =>
        dsimp only at hs
        split at hs <;> cases hs
        next can =>
          obtain ⟨running, unlocked⟩ := can
          rw [h.pc, Pc.map_eq_running] at running
          exact detach_names h ho tidy alive running unlocked ok
    | spurious t =>
        dsimp only at hs
        split at hs
        next a asleep =>
          obtain rfl := Option.some.inj hs
          rw [h.pc] at asleep
          obtain ⟨u, pc, rfl⟩ := Pc.map_eq_joinAsleep.1 asleep
          refine ⟨_, ho.step (a := .spurious t) rfl ?_, h.goto (by rw [pc]; simp) (.joinLock u)⟩
          simp [Threads.step, alive, pc]
        next => cases hs

/-! ### Runs -/

theorem names_start (main : T) (a : A) : Names (start main a) (Threads.start main) := by
  have held (u : T) (hu : Held (Threads.start main) u) : u = main := by
    by_contra e
    exact hu.1 (by simp [Threads.start, e])
  refine ⟨rfl, rfl, fun t => ?_, rfl, rfl, rfl, rfl, rfl, fun u hu => ?_, fun u hu => (held u hu).symm, fun u _ => ?_⟩
  · show Function.update (fun _ => Pc.fresh) main .running t =
      (Function.update (fun _ => Pc.fresh) main .running t).map fun _ => a
    by_cases e : t = main
    · rw [e, Function.update_self, Function.update_self]
      rfl
    · rw [Function.update_of_ne e, Function.update_of_ne e]
      rfl
  · rw [held u hu]
    simp [start, Threads.start]
  · simp [start]

/-- As long as descriptors are freed in order, a run is one where no descriptor is given out twice. -/
theorem exists_names {a : A} (h : Reach main a orderly s) :
    ∃ o, Threads.Reach main Threads.orderly o ∧ Names s o := by
  induction h with
  | start => exact ⟨_, .start, names_start main a⟩
  | step _ ok hs ih =>
      obtain ⟨o, ho, names⟩ := ih
      exact step_names names ho ho.tidy ok hs

/-- Each descriptor is removed and freed at most once; and if a descriptor is listed whose thread is over and has been
joined or detached, then a `pthread_join` on it is under way. -/
structure BlocksReclaimed (s : Sys T A) : Prop where
  once : ∀ u, s.removed u ≤ 1 ∧ s.freed u ≤ 1
  ended : ∀ a ∈ s.list, s.pc (s.thread a) = .gone → (s.desc a).detached = true ∨ 0 < s.joins (s.thread a) →
    ∃ t, ((s.pc t).joiner a).counted = true

/-- In every run in which threads are detached in time and the last joiner of a thread comes back after its store. -/
theorem blocks_reclaimed {a : A} (h : Reach main a orderly s) : BlocksReclaimed s := by
  obtain ⟨o, ho, names⟩ := exists_names h
  have reclaimed := reclaimed_once ho.inTime
  refine ⟨fun u => ?_, fun b hb gone ended => ?_⟩
  · rw [names.removed, names.freed]
    exact ⟨(reclaimed u).1, (reclaimed u).2.1⟩
  · obtain ⟨u, hu, rfl⟩ := names.exists_mem hb
    have held := ho.tidy.listed u hu
    rw [names.thread u held, names.pc, Pc.map_eq_gone] at gone
    rw [names.desc u held, names.thread u held, names.joins] at ended
    obtain ⟨t, ht⟩ := (reclaimed u).2.2 gone ended hu
    refine ⟨t, ?_⟩
    rw [names.pc t]
    exact Pc.map_counted ht

/-- The thread 1 is joined and its descriptor freed; the thread 2 gets the same block, is detached and exits. -/
def sameBlock : Sys (Fin 3) (Fin 2) :=
  ((start 0 0).acts orderly
    [.create 0 1 1 false false, .exec 1, .join 0 1, .exec 0, .exit 1 7, .exec 1, .exec 1, .exec 1, .exec 1, .exec 1,
      .exec 0, .exec 1, .create 0 2 1 false false, .exec 2, .detach 0 1, .exit 2 5, .exec 2, .exec 2, .exec 2,
      .exec 2]).getD (start 0 0)

theorem blocks_reclaimed_sameBlock :
    sameBlock.self 1 = sameBlock.self 2 ∧ sameBlock.freed 1 = 1 ∧ sameBlock.freed 2 = 1 ∧ sameBlock.list = [0] ∧
      BlocksReclaimed sameBlock :=
  ⟨by decide, by decide, by decide, by decide, blocks_reclaimed (Reach.start.getD _)⟩

/-- The thread 1 has exited and is a zombie when it is detached. -/
def detachedZombie : Sys (Fin 2) (Fin 2) :=
  ((start 0 0).acts always
    [.create 0 1 1 false false, .exec 1, .exit 1 7, .exec 1, .exec 1, .exec 1, .exec 1, .detach 0 1]).getD (start 0 0)

/-- The thread 1 is detached while the thread 0 waits for it and exits; a signal ends the sleep of the thread 0. -/
def removedTwice : Sys (Fin 3) (Fin 3) :=
  ((start 0 0).acts always
    [.create 0 1 1 false false, .create 0 2 2 false false, .exec 1, .exec 2, .join 0 1, .exec 0, .detach 2 1, .exit 1 7,
      .exec 1, .exec 1, .exec 1, .exec 1, .spurious 0, .exec 0]).getD (start 0 0)

/-- A signal ends the sleep of the thread 0, which frees the descriptor of the thread 1; the block becomes the descriptor of
the detached thread 2, and both threads remove it at their end. -/
def sharedBlock : Sys (Fin 3) (Fin 2) :=
  ((start 0 0).acts always
    [.create 0 1 1 false false, .exec 1, .join 0 1, .exec 0, .spurious 0, .exec 0, .create 0 2 1 true false, .exec 2,
      .exit 1 7, .exec 1, .exec 1, .exec 1, .exit 2 5, .exec 2, .exec 2]).getD (start 0 0)

theorem not_blocks_reclaimed :
    Reach 0 0 always detachedZombie ∧ ¬ BlocksReclaimed detachedZombie ∧ Reach 0 0 always removedTwice ∧
      ¬ BlocksReclaimed removedTwice ∧ Reach 0 0 always sharedBlock ∧ ¬ BlocksReclaimed sharedBlock := by
  refine ⟨Reach.start.getD _, fun h => ?_, Reach.start.getD _, fun h => ?_, Reach.start.getD _, fun h => ?_⟩
  · exact absurd (h.ended 1 (by decide) (by decide) (.inl (by decide))) (by decide)
  · exact absurd (h.once 1).1 (by decide)
  · exact absurd (h.once 2).1 (by decide)

end Bionic.ThreadReuse
