import Mathlib.Data.Fintype.Defs
import Mathlib.Data.Finset.Card
import Bionic.Mutex
import Bionic.Semaphore

/-! # Condition variables (`libc/bionic/pthread.c`)

`pthread_cond_wait`, `pthread_cond_timedwait`, `pthread_cond_timeout_np`, `pthread_cond_signal` and
`pthread_cond_broadcast` on one condition variable and the mutex that goes with it, for any finite number
of threads.  A thread has two program counters, one for these functions and one for the calls of
`pthread_mutex_lock` and `pthread_mutex_unlock`, which are those of `Mutex`.

What `__futex_wait` returns for a result of the kernel is decided by a stub in assembly, one for each
architecture. -/

namespace Bionic.Cond

open Mutex (Word KernelIds MutexType)
open Semaphore (Timespec timeLeft)

/-! ### The stubs of `__futex_wait` -/

inductive Arch where
  | arm
  | ppc
deriving DecidableEq, Repr

/-- What the kernel answers to `FUTEX_WAIT`. -/
inductive Answer where
  /-- The sleep was ended by a wake-up call, or by nothing. -/
  | woken
  | EWOULDBLOCK
  | EINTR
  | ETIMEDOUT
  | EINVAL
deriving DecidableEq, Repr

/-- The answer as a number: 0, or an error number with a minus sign. -/
def Answer.code : Answer → ℤ
  | .woken => 0
  | .EWOULDBLOCK => -11
  | .EINTR => -4
  | .ETIMEDOUT => -110
  | .EINVAL => -22

/-- `__set_errno`: the result and the new value of `errno`. -/
def setErrno (n : ℤ) : ℤ × Option ℤ := (-1, some n)

/-- `__set_syscall_errno`. -/
def setSyscallErrno (arch : Arch) (n : ℤ) : ℤ × Option ℤ :=
  let n := if arch = .ppc then -n else n
  if n > -256 then setErrno (-n) else (n, none)

/-- The end of a system call on PowerPC: `r3`, and the summary overflow bit that marks an error. -/
def ppcReturn (code : ℤ) : ℤ × Bool := if code < 0 then (-code, true) else (code, false)

/-- `__futex_wait`: the result and the new value of `errno`, if it sets one. -/
def futexWait (arch : Arch) (answer : Answer) : ℤ × Option ℤ :=
  match arch with
  | .arm => (answer.code, none)
  | .ppc =>
      match ppcReturn answer.code with
      | (r3, false) => (r3, none)
      | (r3, true) => setSyscallErrno .ppc r3

inductive Ret where
  | zero
  | ETIMEDOUT
deriving DecidableEq, Repr

/-- The end of `__pthread_cond_timedwait_relative` and of `pthread_cond_timeout_np`. -/
def statusRet (status : ℤ) : Ret := if status = -110 then .ETIMEDOUT else .zero

/-! ### Threads -/

/-- The calls. -/
inductive Op where
  | signal
  | broadcast
  /-- `pthread_cond_wait`, where the time is null, `pthread_cond_timedwait` and
  `pthread_cond_timedwait_monotonic`. -/
  | timedwait (abstime : Option Timespec)
  | timedwaitRelative (reltime : Option Timespec)
  | timeoutNp (msecs : ℕ)
deriving DecidableEq, Repr

/-- The call needs the mutex. -/
def Op.waits : Op → Bool
  | .signal => false
  | .broadcast => false
  | _ => true

/-- How the wait of a thread went: the answer of the kernel, and the number of times that
`pthread_mutex_lock` had returned 0 to the thread before the last call. -/
structure Wait where
  answer : Answer
  locks : ℕ
deriving DecidableEq, Repr

inductive Pc where
  | idle
  /-- Before `__atomic_dec(&cond->value)`, in `pthread_cond_broadcast` when `all`. -/
  | dec (all : Bool)
  | wake (all : Bool)
  | clock (abstime : Timespec)
  /-- Before `oldvalue = cond->value`. -/
  | read (tsp : Option Timespec)
  | unlock (oldvalue : Word) (tsp : Option Timespec)
  | unlocking (oldvalue : Word) (tsp : Option Timespec)
  /-- Before `__futex_wait(&cond->value, oldvalue, tsp)`. -/
  | wait (oldvalue : Word) (tsp : Option Timespec)
  | asleep (tsp : Option Timespec)
  | lock (answer : Answer)
  | locking (w : Wait)
  /-- Before the `return`; there was no wait if the time had passed already. -/
  | done (w : Option Wait) (ret : Ret)
deriving DecidableEq, Repr

/-- The first step of each function. -/
def Op.entry : Op → Pc
  | .signal => .dec false
  | .broadcast => .dec true
  | .timedwait none => .read none
  | .timedwait (some abstime) => .clock abstime
  | .timedwaitRelative reltime => .read reltime
  | .timeoutNp msecs => .read (some ⟨msecs / 1000, msecs % 1000 * 1000000⟩)

/-- The branch on the clock in `__pthread_cond_timedwait`. -/
def afterClock (abstime now : Timespec) : Pc :=
  match timeLeft abstime now with
  | none => .done none .ETIMEDOUT
  | some ts => .read (some ts)

/-- The kernel refuses this time. -/
def invalidTime : Option Timespec → Bool
  | none => false
  | some ts => ts.tvSec < 0 ∨ ts.tvNsec < 0 ∨ ts.tvNsec ≥ 1000000000

/-- The start of `__futex_wait`: the kernel compares the value and puts the thread to sleep in one step. -/
def enterWait (value oldvalue : Word) (tsp : Option Timespec) : Pc :=
  if invalidTime tsp then .lock .EINVAL
  else if value = oldvalue then .asleep tsp
  else .lock .EWOULDBLOCK

/-- The number of threads that the `__futex_wake` of a signal or a broadcast wakes at most. -/
def wakeCount (all : Bool) : ℕ := if all then 2147483647 else 1

def Pc.sleeps : Pc → Bool
  | .asleep _ => true
  | _ => false

/-! ### The system -/

structure Sys (T : Type*) where
  value : Word
  mutex : Mutex.Sys T
  pc : T → Pc
  /-- How often a signal or a broadcast has updated the value since the thread last read it. -/
  updates : T → ℕ

section

variable {T : Type*} [DecidableEq T]

def Sys.goto (s : Sys T) (t : T) (pc : Pc) : Sys T := { s with pc := Function.update s.pc t pc }

/-- One step of a thread; `none` where it cannot move by itself, or moves in the functions of the mutex. -/
def exec (arch : Arch) (s : Sys T) (t : T) : Option (Sys T) :=
  match s.pc t with
  | .idle => none
  | .dec all =>
      some { s.goto t (.wake all) with value := s.value - 1, updates := fun u => s.updates u + 1 }
  | .wake _ => none
  | .clock _ => none
  | .read tsp => some { s.goto t (.unlock s.value tsp) with updates := Function.update s.updates t 0 }
  | .unlock oldvalue tsp =>
      some { s.goto t (.unlocking oldvalue tsp) with mutex := s.mutex.call t .unlock }
  | .unlocking oldvalue tsp => if s.mutex.pc t = .idle then some (s.goto t (.wait oldvalue tsp)) else none
  | .wait oldvalue tsp => some (s.goto t (enterWait s.value oldvalue tsp))
  | .asleep _ => none
  | .lock answer =>
      some { s.goto t (.locking ⟨answer, (s.mutex.thr t).locks⟩) with mutex := s.mutex.call t .lock }
  | .locking w =>
      if s.mutex.pc t = .idle then
        some (s.goto t (.done (some w) (statusRet (futexWait arch w.answer).1)))
      else none
  | .done _ _ => some (s.goto t .idle)

/-- A thread calls the functions of the mutex outside the functions of the condition variable, and unlocks
the mutex only if it holds it. -/
def client (pc : Pc) : Mutex.Client T := fun m t op => pc = .idle ∧ Mutex.holderUnlocks m t op

variable [Fintype T]

def Sys.sleepers (s : Sys T) : Finset T := Finset.univ.filter fun u => (s.pc u).sleeps = true

/-- One step, made by the thread `t`. -/
inductive Step (arch : Arch) (ids : KernelIds T) (s : Sys T) (t : T) : Sys T → Prop
  /-- `t` calls one of the functions; to wait it must hold the mutex. -/
  | call (op : Op) (idle : s.pc t = .idle) (out : s.mutex.pc t = .idle)
      (held : op.waits = true → s.mutex.Holder t) : Step arch ids s t (s.goto t op.entry)
  | exec (s' : Sys T) (h : exec arch s t = some s') : Step arch ids s t s'
  | mutex (m : Mutex.Sys T) (h : Mutex.Step ids (client (s.pc t)) s.mutex t m) :
      Step arch ids s t { s with mutex := m }
  | clock (abstime now : Timespec) (h : s.pc t = .clock abstime) :
      Step arch ids s t (s.goto t (afterClock abstime now))
  | wake (all : Bool) (woken : Finset T) (h : s.pc t = .wake all) (sub : woken ⊆ s.sleepers)
      (card : woken.card = min (wakeCount all) s.sleepers.card) :
      Step arch ids s t
        { s with pc := fun u => if u = t then .idle else if u ∈ woken then .lock .woken else s.pc u }
  /-- The sleep ends by itself, by a signal handler, or because the time is over. -/
  | ends (tsp : Option Timespec) (answer : Answer) (h : s.pc t = .asleep tsp)
      (he : answer = .woken ∨ answer = .EINTR ∨ (answer = .ETIMEDOUT ∧ tsp.isSome = true)) :
      Step arch ids s t (s.goto t (.lock answer))

/-- A condition variable with the given value and a new mutex. -/
def start (T : Type*) (ty : MutexType) (value : Word) : Sys T :=
  ⟨value, Mutex.start T ty, fun _ => .idle, fun _ => 0⟩

/-- The states of all runs. -/
inductive Reach (arch : Arch) (ids : KernelIds T) (ty : MutexType) (value : Word) : Sys T → Prop
  | start : Reach arch ids ty value (start T ty value)
  | step {s s' : Sys T} {t : T} : Reach arch ids ty value s → Step arch ids s t s' →
      Reach arch ids ty value s'

end

end Bionic.Cond
