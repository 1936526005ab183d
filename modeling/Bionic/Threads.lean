import Mathlib.Logic.Function.Basic
import Mathlib.Data.Int.Notation
import Bionic.ThreadList

/-! # Creation, exit, join and detach of threads (`libc/bionic/pthread.c`)

Any number of threads call `pthread_create`, `pthread_exit`, `pthread_join`, `pthread_detach` and
`pthread_key_delete`.  A thread is named by its descriptor, and each `pthread_create` gives a new one; what a
freed descriptor contained stays readable.  In `ThreadReuse` a freed descriptor is given out again.

The fields `join_count` and `return_value` and the list are accessed under `gThreadListLock` only, so a section
of code under that lock is one step, except where it does something that others see without the lock: the
decrement of `join_cond` and the wake-up call of `pthread_cond_broadcast` in `pthread_exit`, and the writes of
`pthread_key_delete` into the TLS areas of the threads, one by one.  The test of the detached flag in
`pthread_exit` is made without the lock and is a step of its own.

`list` is `gThreadList`, read from its head; `removeLocked_links` and `hooked_add` relate it to the pointers.
The removal of the last thread of the list, which is the main thread, faults and ends the run; so does, here, the
second removal of a descriptor, which follows links in freed memory. -/

namespace Bionic.Threads

open LinkedList ThreadList

abbrev Word := BitVec 32

variable {T : Type}

/-! ### Descriptors -/

/-- `pthread_internal_t`; the two flags of `attr.flags` are fields of their own. -/
structure Desc where
  detached : Bool
  userStack : Bool
  joinCond : Word
  joinCount : ℤ
  returnValue : Word
  intern : Bool
  /-- `tls` has been set by `__init_tls`. -/
  tls : Bool
deriving DecidableEq, Repr

/-- What `_pthread_internal_alloc` and `_init_thread` make; `attr` gives the flags. -/
def initThread (detached userStack : Bool) : Desc :=
  ⟨detached, userStack, 0, 0, 0, true, false⟩

/-- The static descriptor of the main thread. -/
def mainThread : Desc := ⟨false, false, 0, 0, 0, false, true⟩

/-! ### The list -/

section

variable [DecidableEq T]

/-- `_pthread_internal_remove_locked`: the list it leaves; it faults on the last thread of the list, and a
descriptor that is not in the list has no links to follow. -/
def removeLocked (list : List T) (thread : T) : Option (List T) :=
  if thread ∈ list ∧ list.getLast? ≠ some thread then some (list.filter (· != thread)) else none

/-- `removeLocked` is what `_pthread_internal_remove_locked` does to the pointers of the list. -/
theorem removeLocked_links {links : Links T} {list : List T} {thread : T} (h : Hooked links list)
    (ht : thread ∈ list) :
    match removeLocked list thread with
    | some list' => ∃ links', pthreadInternalRemoveLocked links thread = some links' ∧ Hooked links' list'
    | none => pthreadInternalRemoveLocked links thread = none := by
  obtain ⟨l, r, hl, rfl, herase⟩ := List.exists_erase_eq ht
  unfold removeLocked
  cases r with
  | nil =>
      rw [if_neg (by simp)]
      exact remove_last h
  | cons b r =>
      have hn := (List.nodup_append.1 h.nodup).2.1
      have hlast : (l ++ thread :: b :: r).getLast? ≠ some thread := by
        rw [List.getLast?_append_cons, List.getLast?_cons_cons]
        intro e
        exact (List.nodup_cons.1 hn).1 (List.mem_of_getLast? e)
      rw [if_pos ⟨ht, hlast⟩, ← h.nodup.erase_eq_filter, herase]
      exact hooked_remove h

end

/-! ### Threads -/

/-- The program counter of a thread, with the locals it still needs. -/
inductive Pc (T : Type)
  | fresh
  /-- In `__thread_entry`, before `__init_tls`. -/
  | starting
  | running
  /-- In `pthread_join`, before `__futex_wait(&cond->value, oldvalue, …)`. -/
  | joinWait (thread : T) (oldvalue : Word)
  | joinAsleep (thread : T)
  /-- Before the `pthread_mutex_lock` at the end of `pthread_cond_wait`. -/
  | joinLock (thread : T)
  /-- Before `return 0` of `pthread_join`, with `*ret_val`. -/
  | joined (thread : T) (value : Word)
  /-- In the loop of `pthread_key_delete`, the threads `rest` being still ahead. -/
  | keyWalk (rest : List T)
  | keyWrite (thr : T) (rest : List T)
  /-- In `pthread_exit`, before the test of `PTHREAD_ATTR_FLAG_DETACHED`. -/
  | exitTest (retval : Word)
  | exitRemove
  | exitFree
  | exitLock (retval : Word)
  /-- Before the decrement in `pthread_cond_broadcast(&thread->join_cond)`. -/
  | exitBroadcast
  | exitWake
  | exitUnlock
  | exitLeave
  | gone
deriving DecidableEq, Repr

structure Sys (T : Type) where
  list : List T
  /-- The thread that holds `gThreadListLock` from one step to the next. -/
  lock : Option T
  desc : T → Desc
  pc : T → Pc T
  crashed : Bool
  stored : T → Option Word
  removed : T → ℕ
  freed : T → ℕ
  joins : T → ℕ
  /-- The stack of the thread, with its TLS area, has been unmapped. -/
  unmapped : T → Bool
  /-- How many writes of `pthread_key_delete` have gone to an unmapped stack. -/
  wildWrites : ℕ

/-- After `__libc_init_common`. -/
def start [DecidableEq T] (main : T) : Sys T where
  list := [main]
  lock := none
  desc := Function.update (fun _ => initThread false false) main mainThread
  pc := Function.update (fun _ => .fresh) main .running
  crashed := false
  stored := fun _ => none
  removed := fun _ => 0
  freed := fun _ => 0
  joins := fun _ => 0
  unmapped := fun _ => false
  wildWrites := 0

/-! ### The steps -/

namespace Sys

variable [DecidableEq T] (s : Sys T)

def goto (t : T) (pc : Pc T) : Sys T := { s with pc := Function.update s.pc t pc }

def setDesc (u : T) (d : Desc) : Sys T := { s with desc := Function.update s.desc u d }

/-- `_pthread_internal_add` and `pthread_create`, for the new thread `u`. -/
def create (u : T) (detached userStack : Bool) : Sys T :=
  ({ s with list := u :: s.list }.setDesc u (initThread detached userStack)).goto u .starting

/-- The descriptor `u` is out of the list. -/
def unlinked (u : T) (list : List T) : Sys T :=
  { s with list := list, removed := Function.update s.removed u (s.removed u + 1) }

/-- The removal of `u` follows a null pointer if `u` is in the list; otherwise it is a second removal. -/
def crash (u : T) : Sys T :=
  { s with
    crashed := true
    removed := if u ∈ s.list then s.removed else Function.update s.removed u (s.removed u + 1) }

/-- `_pthread_internal_free`. -/
def internalFree (u : T) : Sys T :=
  { s with
    desc := Function.update s.desc u { s.desc u with intern := false }
    freed := Function.update s.freed u (s.freed u + 1) }

/-- The end of `pthread_join`, where `count` is in `join_count`. -/
def joinEnd (t u : T) (count : ℤ) : Sys T :=
  let value := (s.desc u).returnValue
  let s' := s.setDesc u { s.desc u with joinCount := count }
  if count ≤ 0 then
    match removeLocked s.list u with
    | some list => ((s'.unlinked u list).internalFree u).goto t (.joined u value)
    | none => s.crash u
  else s'.goto t (.joined u value)

/-- The first part of `pthread_join`, up to the wait for the thread `u`. -/
def pthreadJoin (t u : T) : Sys T :=
  if u ∉ s.list then s
  else if (s.desc u).detached then s
  else if 0 ≤ (s.desc u).joinCount then
    (s.setDesc u { s.desc u with joinCount := (s.desc u).joinCount + 1 }).goto t
      (.joinWait u (s.desc u).joinCond)
  else s.joinEnd t u (s.desc u).joinCount

def pthreadDetach (u : T) : Sys T :=
  if u ∉ s.list then s
  else if (s.desc u).detached then s
  else s.setDesc u { s.desc u with detached := true }

/-- The section of `pthread_exit` under the lock, up to the broadcast. -/
def exitStore (t : T) (retval : Word) : Sys T :=
  let s' := { s with lock := some t, stored := Function.update s.stored t (some retval) }
  if 0 < (s.desc t).joinCount then
    (s'.setDesc t { s.desc t with returnValue := retval }).goto t .exitBroadcast
  else
    (s'.setDesc t { s.desc t with returnValue := retval, joinCount := -1 }).goto t .exitUnlock

/-- `__futex_wake(&cond->value, INT_MAX)` on the `join_cond` of `t`. -/
def wakeJoiners (t : T) : Sys T :=
  { s with pc := fun u => if s.pc u = .joinAsleep t then .joinLock t else s.pc u }

end Sys

/-- What happens next: a thread goes on in its code, or it calls a function, or a sleep ends by itself. -/
inductive Act (T : Type)
  | exec (t : T)
  | create (t thread : T) (detached userStack : Bool)
  | exit (t : T) (retval : Word)
  | join (t thread : T)
  | detach (t thread : T)
  | keyDelete (t : T)
  | spurious (t : T)
deriving DecidableEq, Repr

variable [DecidableEq T]

/-- One step of the thread `t`; `none` where it does not move by itself, or waits for the lock. -/
def exec (s : Sys T) (t : T) : Option (Sys T) :=
  match s.pc t with
  | .fresh => none
  | .starting => some ((s.setDesc t { s.desc t with tls := true }).goto t .running)
  | .running => none
  | .joinWait u oldvalue =>
      if (s.desc u).joinCond = oldvalue then some (s.goto t (.joinAsleep u))
      else some (s.goto t (.joinLock u))
  | .joinAsleep _ => none
  | .joinLock u =>
      if s.lock = none then some (s.joinEnd t u ((s.desc u).joinCount - 1)) else none
  | .joined u _ =>
      some ({ s with joins := Function.update s.joins u (s.joins u + 1) }.goto t .running)
  | .keyWalk [] => some ({ s with lock := none }.goto t .running)
  | .keyWalk (u :: rest) =>
      if (s.desc u).joinCount < 0 ∨ (s.desc u).tls = false then some (s.goto t (.keyWalk rest))
      else some (s.goto t (.keyWrite u rest))
  | .keyWrite u rest =>
      some ({ s with wildWrites := s.wildWrites + (s.unmapped u).toNat }.goto t (.keyWalk rest))
  | .exitTest retval =>
      if (s.desc t).detached then some (s.goto t .exitRemove) else some (s.goto t (.exitLock retval))
  | .exitRemove =>
      if s.lock = none then
        match removeLocked s.list t with
        | some list => some ((s.unlinked t list).goto t .exitFree)
        | none => some (s.crash t)
      else none
  | .exitFree => some ((s.internalFree t).goto t .exitLeave)
  | .exitLock retval => if s.lock = none then some (s.exitStore t retval) else none
  | .exitBroadcast =>
      some ((s.setDesc t { s.desc t with joinCond := (s.desc t).joinCond - 1 }).goto t .exitWake)
  | .exitWake => some ((s.wakeJoiners t).goto t .exitUnlock)
  | .exitUnlock => some ({ s with lock := none }.goto t .exitLeave)
  | .exitLeave =>
      some ({ s with unmapped := Function.update s.unmapped t (!(s.desc t).userStack) }.goto t .gone)
  | .gone => none

/-- One step of the system; `none` if the action is not possible. -/
def step (s : Sys T) (a : Act T) : Option (Sys T) :=
  if s.crashed then none
  else
    match a with
    | .exec t => exec s t
    | .create t u detached userStack =>
        if s.pc t = .running ∧ s.pc u = .fresh ∧ s.lock = none then
          some (s.create u detached userStack)
        else none
    | .exit t retval => if s.pc t = .running then some (s.goto t (.exitTest retval)) else none
    | .join t u => if s.pc t = .running ∧ s.lock = none then some (s.pthreadJoin t u) else none
    | .detach t u => if s.pc t = .running ∧ s.lock = none then some (s.pthreadDetach u) else none
    | .keyDelete t =>
        if s.pc t = .running ∧ s.lock = none then
          some ({ s with lock := some t }.goto t (.keyWalk s.list))
        else none
    | .spurious t =>
        match s.pc t with
        | .joinAsleep u => some (s.goto t (.joinLock u))
        | _ => none

/-! ### What a step can do -/

section

variable {s s' : Sys T} {a : Act T}

/-- The actions, where they are possible, and what they do. -/
inductive Moves (s : Sys T) : Act T → Sys T → Prop
  | exec {t : T} {s' : Sys T} (h : exec s t = some s') : Moves s (.exec t) s'
  | create {t u : T} {detached userStack : Bool} (fresh : s.pc u = .fresh) (unlocked : s.lock = none) :
      Moves s (.create t u detached userStack) (s.create u detached userStack)
  | exit {t : T} {retval : Word} (running : s.pc t = .running) :
      Moves s (.exit t retval) (s.goto t (.exitTest retval))
  | join {t u : T} (running : s.pc t = .running) (unlocked : s.lock = none) :
      Moves s (.join t u) (s.pthreadJoin t u)
  | detach {t u : T} : Moves s (.detach t u) (s.pthreadDetach u)
  | keyDelete {t : T} (running : s.pc t = .running) (unlocked : s.lock = none) :
      Moves s (.keyDelete t) ({ s with lock := some t }.goto t (.keyWalk s.list))
  | spurious {t u : T} (asleep : s.pc t = .joinAsleep u) : Moves s (.spurious t) (s.goto t (.joinLock u))

theorem moves_of_step (h : step s a = some s') : Moves s a s' := by
  unfold step at h
  split at h
  next => cases h
  next =>
    split at h
    next t => exact .exec h
    next t u detached userStack =>
      split at h <;> cases h
      next can => exact .create can.2.1 can.2.2
    next t retval =>
      split at h <;> cases h
      next running => exact .exit running
    next t u =>
      split at h <;> cases h
      next can => exact .join can.1 can.2
    next t u =>
      split at h <;> cases h
      exact .detach
    next t =>
      split at h <;> cases h
      next can => exact .keyDelete can.1 can.2
    next t =>
      split at h
      next u asleep =>
        cases h
        exact .spurious asleep
      next => cases h

/-- `pthread_join` fails, or waits for the thread, or finds a zombie. -/
theorem pthreadJoin_cases (s : Sys T) (t u : T) :
    s.pthreadJoin t u = s ∨
      u ∈ s.list ∧ (s.desc u).detached = false ∧
        (0 ≤ (s.desc u).joinCount ∧
            s.pthreadJoin t u = (s.setDesc u { s.desc u with joinCount := (s.desc u).joinCount + 1 }).goto t
              (.joinWait u (s.desc u).joinCond) ∨
          (s.desc u).joinCount < 0 ∧ s.pthreadJoin t u = s.joinEnd t u (s.desc u).joinCount) := by
  unfold Sys.pthreadJoin
  split
  next => exact .inl rfl
  next listed =>
    rw [not_not] at listed
    split
    next => exact .inl rfl
    next joinable =>
      rw [Bool.not_eq_true] at joinable
      split
      next count => exact .inr ⟨listed, joinable, .inl ⟨count, rfl⟩⟩
      next count => exact .inr ⟨listed, joinable, .inr ⟨Int.not_le.1 count, rfl⟩⟩

theorem pthreadDetach_cases (s : Sys T) (u : T) :
    s.pthreadDetach u = s ∨
      u ∈ s.list ∧ (s.desc u).detached = false ∧
        s.pthreadDetach u = s.setDesc u { s.desc u with detached := true } := by
  unfold Sys.pthreadDetach
  split
  next => exact .inl rfl
  next listed =>
    rw [not_not] at listed
    split
    next => exact .inl rfl
    next joinable =>
      rw [Bool.not_eq_true] at joinable
      exact .inr ⟨listed, joinable, rfl⟩

end

/-! ### Runs -/

/-- The states reached from the start by actions that `ok` allows. -/
inductive Reach (main : T) (ok : Sys T → Act T → Bool) : Sys T → Prop
  | start : Reach main ok (start main)
  | step {s s' : Sys T} {a : Act T} :
      Reach main ok s → ok s a = true → step s a = some s' → Reach main ok s'

/-- Every interleaving. -/
def always (_ : Sys T) (_ : Act T) : Bool := true

/-- The actions, one after the other; `none` if one of them is not possible or not allowed. -/
def Sys.acts (ok : Sys T → Act T → Bool) (s : Sys T) : List (Act T) → Option (Sys T)
  | [] => some s
  | a :: as => if ok s a then (Threads.step s a).bind fun s' => s'.acts ok as else none

theorem Reach.acts {main : T} {ok : Sys T → Act T → Bool} {s s' : Sys T} {as : List (Act T)}
    (h : Reach main ok s) (e : s.acts ok as = some s') : Reach main ok s' := by
  induction as generalizing s with
  | nil =>
      cases e
      exact h
  | cons a as ih =>
      unfold Sys.acts at e
      split at e
      next allowed =>
        obtain ⟨s₁, h₁, e₁⟩ := Option.bind_eq_some_iff.1 e
        exact ih (h.step allowed h₁) e₁
      next => cases e

/-- The state the actions lead to. -/
theorem Reach.getD {main : T} {ok : Sys T → Act T → Bool} {s : Sys T} (h : Reach main ok s)
    (as : List (Act T)) : Reach main ok ((s.acts ok as).getD s) := by
  cases e : s.acts ok as with
  | none => exact h
  | some s' => exact h.acts e

end Bionic.Threads
