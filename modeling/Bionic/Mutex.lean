import Mathlib.Algebra.GroupWithZero.Nat
import Mathlib.Logic.Function.Basic
import Mathlib.Data.Nat.Notation

/-! # The mutexes of `libc/bionic/pthread.c`

`pthread_mutex_lock`, `pthread_mutex_trylock` and `pthread_mutex_unlock` on one
mutex, for any number of threads.  A thread is a program counter `Pc`; each step of
`exec` is one access to the shared memory, that is to `mutex->value` or to the word
of the global `__recursive_lock`.  Every read of a `volatile` word is a step of its
own, so what a thread has read may be out of date when it acts on it.

`_normal_lock` and `_normal_unlock` run on both words: on `mutex->value` for a
NORMAL mutex, on `__recursive_lock` around each update of a recursive or an
errorcheck mutex (a `Job`).  `Step` adds to `exec` what the callers do and what the
kernel does: `__futex_wake` ends the sleep of one thread if one sleeps on that word,
and a sleep may end by itself.

The mutex is the one object of the system, so the `NULL` test of each function
passes. -/

namespace Bionic.Mutex

abbrev Word := BitVec 32

/-! ### The fields of `mutex->value` -/

def MUTEX_TYPE_MASK : Word := 0xc000
def MUTEX_TYPE_NORMAL : Word := 0x0000
def MUTEX_TYPE_RECURSIVE : Word := 0x4000
def MUTEX_TYPE_ERRORCHECK : Word := 0x8000
def MUTEX_COUNTER_SHIFT : Nat := 2
def MUTEX_COUNTER_MASK : Word := 0x3ffc

/-- `MUTEX_OWNER(m)`: bits 31-16. -/
def mutexOwner (value : Word) : Word := (value >>> 16) &&& 0xffff

/-- `MUTEX_COUNTER(m)`: bits 13-2. -/
def mutexCounter (value : Word) : Word := (value >>> 2) &&& 0xfff

/-- The three calls. -/
inductive Op
  | lock
  | trylock
  | unlock
deriving DecidableEq, Repr

/-- What a call returns; `ok` is `0`. -/
inductive Ret
  | ok
  | EPERM
  | EBUSY
  | EDEADLK
deriving DecidableEq, Repr

/-! ### `_normal_lock` and `_normal_unlock` -/

/-- Where a thread stands in `_normal_lock`. -/
inductive LockPhase
  /-- Before `__atomic_cmpxchg(0, 1, …)`. -/
  | cas
  /-- Before `__atomic_swap(2, …)`. -/
  | swap
  | wait
  | asleep
deriving DecidableEq, Repr

/-- Where a thread stands in `_normal_unlock`. -/
inductive UnlockPhase
  /-- Before `__atomic_dec`. -/
  | dec
  | store
  | wake
deriving DecidableEq, Repr

/-- One step of `_normal_lock`: the word it leaves and where it goes on, `none` when
the function returns.  A sleeper does not move by itself. -/
def normalLock (w : Word) : LockPhase → Option (Word × Option LockPhase)
  | .cas => if w = 0 then some (1, none) else some (w, some .swap)
  | .swap => if w = 0 then some (2, none) else some (2, some .wait)
  | .wait => if w = 2 then some (w, some .asleep) else some (w, some .swap)
  | .asleep => none

/-- One step of `_normal_unlock`; its `__futex_wake` is a step of the kernel. -/
def normalUnlock (w : Word) : UnlockPhase → Option (Word × Option UnlockPhase)
  | .dec => if w = 1 then some (w - 1, none) else some (w - 1, some .store)
  | .store => some (0, some .wake)
  | .wake => none

/-! ### The updates made under `__recursive_lock` -/

/-- The critical sections of the three functions. -/
inductive Job
  /-- The owner locks again, from `trylock` when `trying`, else from `lock`. -/
  | relock (trying : Bool)
  /-- One round of the loop of `pthread_mutex_lock`. -/
  | acquire (mtype newLockType : Word)
  /-- The end of `pthread_mutex_trylock`. -/
  | tryAcquire (mtype : Word)
  | release (mtype : Word)
deriving DecidableEq, Repr

/-- What the section stores in `mutex->value`, if anything, and the `oldv` it keeps,
from the `oldv` it has read. -/
def update (tid oldv : Word) : Job → Option Word × Word
  | .relock _ =>
      let counter := (oldv + (1 <<< MUTEX_COUNTER_SHIFT)) &&& MUTEX_COUNTER_MASK
      (some ((oldv &&& ~~~MUTEX_COUNTER_MASK) ||| counter), oldv)
  | .acquire mtype newLockType =>
      if oldv = mtype then (some ((tid <<< 16) ||| mtype ||| newLockType), oldv)
      else if oldv &&& 3 = 1 then (some (oldv ^^^ 3), oldv ^^^ 3)
      else (none, oldv)
  | .tryAcquire mtype =>
      if oldv = mtype then (some ((tid <<< 16) ||| mtype ||| 1), oldv) else (none, oldv)
  | .release mtype =>
      if oldv &&& MUTEX_COUNTER_MASK ≠ 0 then
        (some (oldv - (1 <<< MUTEX_COUNTER_SHIFT)), 0)
      else (some mtype, oldv)

/-! ### Threads -/

/-- The program counter of a thread, with the locals it still needs. -/
inductive Pc
  | idle
  | typeOf (op : Op)
  /-- Before the read of `MUTEX_OWNER(mutex)`. -/
  | owner (op : Op) (mtype : Word)
  | normalLock (p : LockPhase)
  /-- Before the `__atomic_cmpxchg` of `pthread_mutex_trylock`. -/
  | normalTrylock
  | normalUnlock (p : UnlockPhase)
  | enter (job : Job) (p : LockPhase)
  /-- Before `oldv = mutex->value`. -/
  | read (job : Job)
  /-- Before `mutex->value = newv`. -/
  | write (job : Job) (newv oldv : Word)
  | leave (job : Job) (oldv : Word) (p : UnlockPhase)
  /-- Before `__futex_wait(&mutex->value, oldv, 0)`. -/
  | wait (mtype oldv : Word)
  | asleep (mtype : Word)
  | wake
  | done (op : Op) (ret : Ret)
deriving DecidableEq, Repr

/-- Where a thread goes on after the critical section and its `_recursive_unlock()`. -/
def afterJob (oldv : Word) : Job → Pc
  | .relock trying => .done (if trying then .trylock else .lock) .ok
  | .acquire mtype _ => if oldv = mtype then .done .lock .ok else .wait mtype oldv
  | .tryAcquire mtype => if oldv ≠ mtype then .done .trylock .EBUSY else .done .trylock .ok
  | .release _ => if oldv &&& 3 = 2 then .wake else .done .unlock .ok

/-- The shared memory. -/
structure Mem where
  value : Word
  recursiveLock : Word

/-- A thread.  `depth` counts the calls that took effect: it goes up with the store
that takes the mutex or raises its counter, down with the store that undoes it.
`locks` and `unlocks` count the calls that have returned `0`. -/
structure Thread where
  pc : Pc
  depth : ℕ
  locks : ℕ
  unlocks : ℕ

def Thread.goto (th : Thread) (pc : Pc) : Thread := ⟨pc, th.depth, th.locks, th.unlocks⟩

def Thread.took (th : Thread) (pc : Pc) : Thread := ⟨pc, th.depth + 1, th.locks, th.unlocks⟩

def Thread.gave (th : Thread) (pc : Pc) : Thread := ⟨pc, th.depth - 1, th.locks, th.unlocks⟩

/-- The call returns. -/
def Thread.returned (th : Thread) (op : Op) (ret : Ret) : Thread :=
  match op, ret with
  | .unlock, .ok => ⟨.idle, th.depth, th.locks, th.unlocks + 1⟩
  | _, .ok => ⟨.idle, th.depth, th.locks + 1, th.unlocks⟩
  | _, _ => ⟨.idle, th.depth, th.locks, th.unlocks⟩

/-- The thread after the store of a critical section.  `lock` and `trylock` break out, or
return `0`, when `oldv == mtype`. -/
def Thread.wrote (th : Thread) (oldv : Word) (job : Job) : Thread :=
  match job with
  | .relock _ => th.took (.leave job oldv .dec)
  | .acquire mtype _ =>
      if oldv = mtype then th.took (.leave job oldv .dec) else th.goto (.leave job oldv .dec)
  | .tryAcquire mtype =>
      if oldv = mtype then th.took (.leave job oldv .dec) else th.goto (.leave job oldv .dec)
  | .release _ => th.gave (.leave job oldv .dec)

/-- The first step of each function after the type is known. -/
def afterType (mtype : Word) : Op → Pc
  | .lock => if mtype = MUTEX_TYPE_NORMAL then .normalLock .cas else .owner .lock mtype
  | .trylock => if mtype = MUTEX_TYPE_NORMAL then .normalTrylock else .owner .trylock mtype
  | .unlock => if mtype = MUTEX_TYPE_NORMAL then .normalUnlock .dec else .owner .unlock mtype

/-- The branch on `tid == MUTEX_OWNER(mutex)`. -/
def afterOwner (mtype : Word) (own : Bool) : Op → Pc
  | .lock =>
      if own then
        if mtype = MUTEX_TYPE_ERRORCHECK then .done .lock .EDEADLK
        else .enter (.relock false) .cas
      else .enter (.acquire mtype 1) .cas
  | .trylock =>
      if own then
        if mtype = MUTEX_TYPE_ERRORCHECK then .done .trylock .EDEADLK
        else .enter (.relock true) .cas
      else .enter (.tryAcquire mtype) .cas
  | .unlock => if own then .enter (.release mtype) .cas else .done .unlock .EPERM

/-- One step of the thread with kernel id `tid`; `none` where it cannot move by
itself: outside the functions, asleep, or before a call of `__futex_wake`. -/
def exec (tid : Word) (m : Mem) (th : Thread) : Option (Mem × Thread) :=
  match th.pc with
  | .idle => none
  | .typeOf op => some (m, th.goto (afterType (m.value &&& MUTEX_TYPE_MASK) op))
  | .owner op mtype => some (m, th.goto (afterOwner mtype (tid == mutexOwner m.value) op))
  | .normalLock p => (normalLock m.value p).map fun
      | (w, none) => (⟨w, m.recursiveLock⟩, th.took (.done .lock .ok))
      | (w, some p') => (⟨w, m.recursiveLock⟩, th.goto (.normalLock p'))
  | .normalTrylock =>
      if m.value = 0 then some (⟨1, m.recursiveLock⟩, th.took (.done .trylock .ok))
      else some (m, th.goto (.done .trylock .EBUSY))
  | .normalUnlock p => (normalUnlock m.value p).map fun
      | (w, none) => (⟨w, m.recursiveLock⟩, th.gave (.done .unlock .ok))
      | (w, some .wake) => (⟨w, m.recursiveLock⟩, th.gave (.normalUnlock .wake))
      | (w, some p') => (⟨w, m.recursiveLock⟩, th.goto (.normalUnlock p'))
  | .enter job p => (normalLock m.recursiveLock p).map fun
      | (w, none) => (⟨m.value, w⟩, th.goto (.read job))
      | (w, some p') => (⟨m.value, w⟩, th.goto (.enter job p'))
  | .read job =>
      match update tid m.value job with
      | (some newv, oldv) => some (m, th.goto (.write job newv oldv))
      | (none, oldv) => some (m, th.goto (.leave job oldv .dec))
  | .write job newv oldv => some (⟨newv, m.recursiveLock⟩, th.wrote oldv job)
  | .leave job oldv p => (normalUnlock m.recursiveLock p).map fun
      | (w, none) => (⟨m.value, w⟩, th.goto (afterJob oldv job))
      | (w, some p') => (⟨m.value, w⟩, th.goto (.leave job oldv p'))
  | .wait mtype oldv =>
      if m.value = oldv then some (m, th.goto (.asleep mtype))
      else some (m, th.goto (.enter (.acquire mtype 2) .cas))
  | .asleep _ => none
  | .wake => none
  | .done op ret => some (m, th.returned op ret)

/-! ### The kernel's side -/

/-- The two futex words. -/
inductive Addr
  | value
  | recursiveLock
deriving DecidableEq, Repr

/-- The word a thread sleeps on. -/
def Pc.sleepsOn : Pc → Option Addr
  | .normalLock .asleep => some .value
  | .asleep _ => some .value
  | .enter _ .asleep => some .recursiveLock
  | _ => none

/-- Where a sleeper goes on once `__futex_wait` returns. -/
def Pc.woken : Pc → Pc
  | .normalLock .asleep => .normalLock .swap
  | .asleep mtype => .enter (.acquire mtype 2) .cas
  | .enter job .asleep => .enter job .swap
  | pc => pc

/-- The word whose sleepers the thread is about to wake. -/
def Pc.wakes : Pc → Option Addr
  | .normalUnlock .wake => some .value
  | .wake => some .value
  | .leave _ _ .wake => some .recursiveLock
  | _ => none

/-- Where the caller of `__futex_wake` goes on. -/
def Pc.afterWake : Pc → Pc
  | .normalUnlock .wake => .done .unlock .ok
  | .wake => .done .unlock .ok
  | .leave job oldv .wake => afterJob oldv job
  | pc => pc

theorem wakes_of_sleepsOn {a : Addr} {pc : Pc} (h : pc.sleepsOn = some a) : pc.wakes = none := by
  cases pc with
  | enter job p => rfl
  | normalLock p => rfl
  | asleep mtype => rfl
  | _ => simp [Pc.sleepsOn] at h

theorem exec_of_sleepsOn {tid : Word} {m : Mem} {th : Thread} {a : Addr}
    (h : th.pc.sleepsOn = some a) : exec tid m th = none := by
  cases hp : th.pc with
  | normalLock p => cases p <;> simp [hp, Pc.sleepsOn, exec, normalLock] at h ⊢
  | enter job p => cases p <;> simp [hp, Pc.sleepsOn, exec, normalLock] at h ⊢
  | asleep mtype => simp [exec, hp]
  | _ => simp [hp, Pc.sleepsOn] at h

theorem exec_of_wakes {tid : Word} {m : Mem} {th : Thread} {a : Addr}
    (h : th.pc.wakes = some a) : exec tid m th = none := by
  cases hp : th.pc with
  | normalUnlock p => cases p <;> simp [hp, Pc.wakes, exec, normalUnlock] at h ⊢
  | leave job oldv p => cases p <;> simp [hp, Pc.wakes, exec, normalUnlock] at h ⊢
  | wake => simp [exec, hp]
  | _ => simp [hp, Pc.wakes] at h

/-! ### The system -/

/-- The kernel ids of the threads: distinct and not zero. -/
structure KernelIds (T : Type*) where
  tid : T → Word
  injective : Function.Injective tid
  ne_zero : ∀ t, tid t ≠ 0

/-- The mutex and the threads that use it. -/
structure Sys (T : Type*) where
  mem : Mem
  thr : T → Thread

variable {T : Type*} [DecidableEq T]

def Sys.set (s : Sys T) (m : Mem) (t : T) (th : Thread) : Sys T :=
  ⟨m, Function.update s.thr t th⟩

/-- `t` calls `op`. -/
def Sys.call (s : Sys T) (t : T) (op : Op) : Sys T :=
  s.set s.mem t ((s.thr t).goto (.typeOf op))

def Sys.pc (s : Sys T) (t : T) : Pc := (s.thr t).pc

/-- The thread has locked the mutex more often than it has unlocked it. -/
def Sys.Holder (s : Sys T) (t : T) : Prop := 0 < (s.thr t).depth

instance (s : Sys T) (t : T) : Decidable (s.Holder t) :=
  inferInstanceAs (Decidable (0 < (s.thr t).depth))

/-- What the callers keep to: which call which thread may make in which state. -/
abbrev Client (T : Type*) := Sys T → T → Op → Prop

/-- Any thread may make any call. -/
def anyCall : Client T := fun _ _ _ => True

/-- The mutex is unlocked by its holder only. -/
def holderUnlocks : Client T := fun s t op => op = .unlock → s.Holder t

/-- One step, made by the thread `t`. -/
inductive Step (ids : KernelIds T) (client : Client T) (s : Sys T) (t : T) : Sys T → Prop
  | call (op : Op) (idle : s.pc t = .idle) (allowed : client s t op) :
      Step ids client s t (s.call t op)
  | exec (m : Mem) (th : Thread) (h : exec (ids.tid t) s.mem (s.thr t) = some (m, th)) :
      Step ids client s t (s.set m t th)
  | spurious (a : Addr) (h : (s.pc t).sleepsOn = some a) :
      Step ids client s t (s.set s.mem t ((s.thr t).goto (s.pc t).woken))
  | wakeOne (a : Addr) (u : T) (ht : (s.pc t).wakes = some a) (hu : (s.pc u).sleepsOn = some a) :
      Step ids client s t
        ((s.set s.mem t ((s.thr t).goto (s.pc t).afterWake)).set s.mem u
          ((s.thr u).goto (s.pc u).woken))
  | wakeNone (a : Addr) (ht : (s.pc t).wakes = some a) (none : ∀ u, (s.pc u).sleepsOn ≠ some a) :
      Step ids client s t (s.set s.mem t ((s.thr t).goto (s.pc t).afterWake))

/-- The mutex types `pthread_mutex_init` accepts. -/
inductive MutexType
  | normal
  | recursive
  | errorcheck
deriving DecidableEq, Repr

/-- `pthread_mutex_init`: the value it stores. -/
def pthreadMutexInit : MutexType → Word
  | .normal => MUTEX_TYPE_NORMAL
  | .recursive => MUTEX_TYPE_RECURSIVE
  | .errorcheck => MUTEX_TYPE_ERRORCHECK

/-- A fresh mutex, with every thread outside the functions and `__recursive_lock`
as `PTHREAD_MUTEX_INITIALIZER` leaves it. -/
def start (T : Type*) (ty : MutexType) : Sys T :=
  ⟨⟨pthreadMutexInit ty, 0⟩, fun _ => ⟨.idle, 0, 0, 0⟩⟩

/-- The states of the runs from a fresh mutex all of whose states satisfy `ok`. -/
inductive Reach (ids : KernelIds T) (client : Client T) (ok : Sys T → Prop) (ty : MutexType) :
    Sys T → Prop
  | start : Reach ids client ok ty (start T ty)
  | step {s s' : Sys T} {t : T} : Reach ids client ok ty s → Step ids client s t s' → ok s' →
      Reach ids client ok ty s'

/-- The listed threads run, one step each; a thread that cannot move by itself is
passed over. -/
def schedule (ids : KernelIds T) (s : Sys T) : List T → Sys T
  | [] => s
  | t :: ts =>
      match exec (ids.tid t) s.mem (s.thr t) with
      | some (m, th) => schedule ids (s.set m t th) ts
      | none => schedule ids s ts

/-- The states a schedule goes through belong to a run, if they are all `ok`. -/
theorem Reach.schedule {ids : KernelIds T} {client : Client T} {ok : Sys T → Prop}
    {ty : MutexType} {s : Sys T} (h : Reach ids client ok ty s) (ts : List T)
    (hok : ∀ n ≤ ts.length, ok (schedule ids s (ts.take n))) :
    Reach ids client ok ty (schedule ids s ts) := by
  induction ts generalizing s with
  | nil => exact h
  | cons t ts ih =>
      have rest (n : ℕ) (hn : n ≤ ts.length) := hok (n + 1) (Nat.succ_le_succ hn)
      simp only [List.take_succ_cons, Mutex.schedule] at rest
      unfold Mutex.schedule
      split
      next m th e =>
        simp only [e] at rest
        exact ih (h.step (.exec m th e) (rest 0 (Nat.zero_le _))) rest
      next e =>
        simp only [e] at rest
        exact ih h rest

/-- For the numerals of two threads. -/
scoped instance neZero_two : NeZero 2 := ⟨by decide⟩

/-- Two threads with the kernel ids 1 and 2. -/
def twoThreads : KernelIds (Fin 2) where
  tid := fun i => BitVec.ofNat 32 (i.val + 1)
  injective := by unfold Function.Injective; decide
  ne_zero := by decide

end Bionic.Mutex
