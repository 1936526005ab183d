import Mathlib.Algebra.Order.Group.Unbundled.Int
import Mathlib.Data.Int.GCD
import Mathlib.Logic.Function.Iterate
import Mathlib.Tactic.Ring
import Bionic.Timespec

/-! # The thread of a timer (`libc/bionic/pthread-timers.c`)

`timer_thread_start` goes round a loop: it sleeps until the timer expires, sets the next expiration and calls the
callback.  If the expiration has passed before it could sleep, an inner loop adds intervals and counts overruns until
it has caught up.  The seconds of a sum wrap at 32 bits, so the loop need not catch up with every time; a turn that it
does not let come to an end has no result, however much fuel there is (`turn_ends_iff`). -/

namespace Bionic.TimerThread

open PthreadInternal PthreadInternal.Timespec

def DELAYTIMER_MAX : ℤ := 0x7fffffff

/-- `struct itimerspec` -/
structure Itimerspec where
  itInterval : Timespec
  itValue : Timespec

/-- The fields of `thr_timer_t` that the thread shares with the functions. -/
structure Timer where
  done : Bool
  stopped : Bool
  expires : Timespec
  period : Timespec
  overruns : ℤ
deriving DecidableEq, Repr

/-! ### The functions -/

/-- The loop that counts the overruns; `none` if it needs more turns than `fuel`. -/
def catchUp (period now : Timespec) : ℕ → Timespec → ℤ → Option (Timespec × ℤ)
  | 0, _, _ => none
  | fuel + 1, expires, overruns =>
      let expires := timespecAdd expires period
      let overruns := if overruns < DELAYTIMER_MAX then overruns + 1 else overruns
      if timespecCmp expires now < 0 then catchUp period now fuel expires overruns
      else some (expires, overruns)

/-- The timer is reloaded or disarmed. -/
def Timer.reload (timer : Timer) (expires : Timespec) : Timer :=
  { timer with expires := if timespecIsZero timer.period then timespecZero else timespecAdd expires timer.period }

/-- What a turn of the loop comes to. -/
inductive Next
  /-- `done` is set. -/
  | exit
  /-- In `pthread_cond_wait`. -/
  | wait
  /-- The timed wait has ended before its time. -/
  | again
  /-- The callback is called. -/
  | callback (timer : Timer)

/-- A turn of the loop of `timer_thread_start`, where `now` is the time that the clock gives, and `timeout` says that
the wait for the expiration returns `ETIMEDOUT`. -/
def turn (fuel : ℕ) (timer : Timer) (now : Timespec) (timeout : Bool) : Option Next :=
  if timer.done then some .exit
  else if timer.stopped || timespecIsZero timer.expires then some .wait
  else if timespecCmp timer.expires now > 0 then
    if timeout then some (.callback (timer.reload timer.expires)) else some .again
  else if timespecIsZero timer.period then
    some (.callback (Timer.reload { timer with overruns := 1 } timer.expires))
  else
    (catchUp timer.period now fuel timer.expires timer.overruns).map fun (expires, overruns) =>
      -- The last interval is taken back, because `reload` adds it again.
      .callback (Timer.reload { timer with overruns := overruns } (timespecSub expires timer.period))

/-- After the callback. -/
def Timer.called (timer : Timer) : Timer := { timer with overruns := 0 }

variable {period now expires : Timespec} {overruns : ℤ} {timer timer' : Timer}

/-! ### When the inner loop ends -/

/-- The loop ends, after any number of turns. -/
def Ends (period now expires : Timespec) : Prop := ∃ fuel, ∀ overruns, (catchUp period now fuel expires overruns).isSome

/-- The interval is positive, and the seconds do not overflow before the expiration is past `now`. -/
def Ahead (period now : Timespec) : Prop :=
  0 < period.tvSec.toInt ∧ now.tvSec.toInt + period.tvSec.toInt + 1 < 2 ^ 31 ∨
    period.tvSec = 0 ∧ 0 < period.tvNsec.toInt ∧ period.tvNsec.toInt ≤ 1000000000 ∧ now.tvSec.toInt + 1 < 2 ^ 31

instance (period now : Timespec) : Decidable (Ahead period now) := inferInstanceAs (Decidable (_ ∨ _))

section

variable {p e m d : ℤ}

end

/-- An interval of -1 seconds and 1000000000 nanoseconds, which adds nothing. -/
def still : Itimerspec := ⟨⟨-1, 1000000000⟩, ⟨1, 0⟩⟩

end Bionic.TimerThread
