import Mathlib.Data.Set.Card
import Mathlib.Tactic.Linarith
import Bionic.TimerThread

/-! # What a periodic timer counts (`libc/bionic/pthread-timers.c`)

A timer that nobody touches expires for the first time at `first` and then after each interval.  The thread wakes up
at some time after each expiration and calls the callback.  If it has overslept the following expiration, the inner
loop counts one overrun too many, or sets the next expiration to the present time (`late_iff`).  So its account is right
as long as it does not oversleep and the next expiration fits in 32 bits (`accounted_iff`). -/

namespace Bionic.TimerAccount

open PthreadInternal PthreadInternal.Timespec TimerThread

/-! ### Nominal expirations -/

section

variable {first interval time : ℤ} {n : ℕ}

/-- The nominal expirations that have elapsed. -/
def elapsed (first interval time : ℤ) : Set ℕ := {k | first + k * interval ≤ time}

/-- The nominal expirations to come. -/
def upcoming (first interval time : ℤ) : Set ℤ := {x | time < x ∧ ∃ k : ℕ, x = first + k * interval}

/-- The first `n` expirations have elapsed, and no other. -/
def Between (first interval time : ℤ) (n : ℕ) : Prop :=
  time < first + n * interval ∧ ∀ k : ℕ, k < n → first + k * interval ≤ time

theorem add_mul_le (pos : 0 < interval) {j k : ℕ} (h : j ≤ k) : first + j * interval ≤ first + k * interval := by
  have le : (j : ℤ) ≤ k := Int.ofNat_le.2 h
  have := Int.mul_le_mul_of_nonneg_right le (Int.le_of_lt pos)
  omega

/-- The last of the first `n` expirations is enough. -/
theorem between_succ (pos : 0 < interval) (last : first + n * interval ≤ time)
    (next : time < first + (n + 1 : ℕ) * interval) : Between first interval time (n + 1) :=
  ⟨next, fun _ hk => (add_mul_le pos (Nat.le_of_lt_succ hk)).trans last⟩

theorem Between.elapsed_eq (pos : 0 < interval) (h : Between first interval time n) :
    elapsed first interval time = Finset.range n := by
  ext k
  rw [Finset.coe_range, Set.mem_Iio]
  constructor
  · intro le
    by_contra ge
    exact absurd (Int.lt_of_lt_of_le h.1 (add_mul_le pos (Nat.not_lt.1 ge))) (Int.not_lt.2 le)
  · exact h.2 k

theorem Between.ncard (pos : 0 < interval) (h : Between first interval time n) :
    (elapsed first interval time).ncard = n := by
  rw [h.elapsed_eq pos, Set.ncard_coe_finset, Finset.card_range]

theorem Between.isLeast (pos : 0 < interval) (h : Between first interval time n) :
    IsLeast (upcoming first interval time) (first + n * interval) := by
  refine ⟨⟨h.1, n, rfl⟩, ?_⟩
  rintro x ⟨after, k, rfl⟩
  apply add_mul_le pos
  by_contra before
  exact absurd (h.2 k (Nat.not_le.1 before)) (Int.not_le.2 after)

end

/-! ### The thread -/

/-- The thread of a timer, outside its waits. -/
structure State where
  timer : Timer
  /-- The calls of the callback. -/
  delivered : ℕ
  /-- The overruns that `timer_getoverrun` has given in them. -/
  reported : ℤ
  /-- The time of the last event. -/
  time : Timespec

/-- A turn that has called the callback. -/
structure Call where
  before : State
  /-- What `clock_gettime` has given. -/
  now : Timespec
  /-- The time at the callback. -/
  wake : Timespec
  after : State

/-- The times of a turn: without a timed wait the callback is called at once.  A timed wait may end at any time. -/
structure Clock (s : State) (now wake : Timespec) : Prop where
  normal_now : now.Normal
  normal_wake : wake.Normal
  since : s.time.ns ≤ now.ns
  order : now.ns ≤ wake.ns
  awake : ¬ 0 < timespecCmp s.timer.expires now → wake = now

/-- The runs of the thread of a timer that is set to `first` and `period`, with their calls, the last one first. -/
inductive Run (first period : Timespec) : List Call → State → Prop
  | start (time : Timespec) : Run first period [] ⟨⟨false, false, first, period, 0⟩, 0, 0, time⟩
  /-- The wait ends early. -/
  | again {calls : List Call} {s : State} {fuel : ℕ} {now wake : Timespec} {timeout : Bool} :
      Run first period calls s → Clock s now wake → turn fuel s.timer now timeout = some .again →
      Run first period calls { s with time := wake }
  | call {calls : List Call} {s s' : State} {fuel : ℕ} {now wake : Timespec} {timeout : Bool} {timer : Timer} :
      Run first period calls s → Clock s now wake → turn fuel s.timer now timeout = some (.callback timer) →
      s' = ⟨timer.called, s.delivered + 1, s.reported + timer.overruns, wake⟩ →
      Run first period (⟨s, now, wake, s'⟩ :: calls) s'

/-- The calls and the overruns are the expirations that have elapsed, and the next one programmed is the first one to
come. -/
structure Accounted (first period : Timespec) (s : State) : Prop where
  count : s.delivered + s.reported = (elapsed first.ns period.ns s.time.ns).ncard
  next : IsLeast (upcoming first.ns period.ns s.time.ns) s.timer.expires.ns

/-- The thread goes to sleep before the expiration and wakes up between it and the following one, which fits in 32
bits. -/
def OnTime (period : Timespec) (c : Call) : Prop :=
  c.now.ns < c.before.timer.expires.ns ∧ c.before.timer.expires.ns ≤ c.wake.ns ∧
    c.wake.ns < c.before.timer.expires.ns + period.ns ∧ c.before.timer.expires.ns + period.ns < room

/-- The overruns are one more than `DELAYTIMER_MAX`, and the next expiration fits in 32 bits. -/
def Saturated (period : Timespec) (c : Call) : Prop :=
  DELAYTIMER_MAX * period.ns < c.now.ns - c.before.timer.expires.ns ∧
    c.now.ns - c.before.timer.expires.ns < (DELAYTIMER_MAX + 1) * period.ns ∧
    c.before.timer.expires.ns + (DELAYTIMER_MAX + 1) * period.ns < room

/-- The account is right: `n` expirations have been counted, and the next one programmed is the `n`-th. -/
structure Exact (first period : Timespec) (n : ℕ) (s : State) : Prop where
  timer : s.timer = ⟨false, false, s.timer.expires, period, 0⟩
  normal : s.timer.expires.Normal
  expires : s.timer.expires.ns = first.ns + n * period.ns
  count : s.delivered + s.reported = n

variable {first period now wake : Timespec} {s s' : State} {n : ℕ}

/-! ### One turn -/

/-- What the inner loop leaves behind: it has added the least number of intervals, at least one, with which the
expiration is not before the present time; or the seconds of an expiration before that one did not fit. -/
theorem catchUp_spec {fuel : ℕ} {expires expires' : Timespec} {overruns overruns' : ℤ} (hp : period.Normal)
    (pos : 0 < period.ns) (hn : now.Normal) (he : expires.Normal) (le : overruns ≤ DELAYTIMER_MAX)
    (h : catchUp period now fuel expires overruns = some (expires', overruns')) :
    expires'.Normal ∧ now.ns ≤ expires'.ns ∧ ∃ k : ℕ, (k = 0 ∨ expires.ns + k * period.ns < now.ns) ∧
      (expires'.ns = expires.ns + (k + 1 : ℕ) * period.ns ∧
          overruns' = min (overruns + ((k + 1 : ℕ) : ℤ)) DELAYTIMER_MAX ∨
        room ≤ expires.ns + (k + 1 : ℕ) * period.ns) := by
  induction fuel generalizing expires overruns with
  | zero => cases h
  | succ fuel ih =>
      unfold catchUp at h
      dsimp only at h
      have normal := he.add hp
      have bumped : (if overruns < DELAYTIMER_MAX then overruns + 1 else overruns) =
          min (overruns + 1) DELAYTIMER_MAX := by
        split <;> omega
      rw [bumped] at h
      have fits (small : expires.ns + period.ns < room) : (timespecAdd expires period).ns = expires.ns + period.ns := by
        have lower := he.neg_room_le
        exact eq_of_modEq (he.ns_add hp) normal.neg_room_le normal.lt_room (by omega) small
      have one : expires.ns + (0 + 1 : ℕ) * period.ns = expires.ns + period.ns := by
        push_cast
        linarith
      split at h
      next less =>
        rw [normal.cmp_neg_iff hn] at less
        obtain ⟨normal', reached, k, before, result⟩ := ih normal (min_le_right _ _) h
        refine ⟨normal', reached, ?_⟩
        by_cases small : expires.ns + period.ns < room
        · rw [fits small] at less before result
          have shift (i : ℕ) : expires.ns + period.ns + i * period.ns = expires.ns + (i + 1 : ℕ) * period.ns := by
            push_cast
            linarith
          rw [shift] at before
          rw [shift] at result
          refine ⟨k + 1, .inr ?_, result.imp_left fun next => ⟨next.1, ?_⟩⟩
          · rcases before with rfl | before
            · rw [one]
              exact less
            · exact before
          · rw [next.2]
            push_cast
            omega
        · refine ⟨0, .inl rfl, .inr ?_⟩
          rw [one]
          exact Int.not_lt.1 small
      next reached =>
        rw [normal.cmp_neg_iff hn, Int.not_lt] at reached
        cases h
        refine ⟨normal, reached, 0, .inl rfl, ?_⟩
        rw [one]
        by_cases small : expires.ns + period.ns < room
        · exact .inl ⟨fits small, by push_cast; omega⟩
        · exact .inr (Int.not_lt.1 small)

/-- A turn that calls the callback, in a timer that has not been touched. -/
theorem turn_cases {fuel : ℕ} {timeout : Bool} {fired : Timer} (hx : Exact first period n s)
    (nonzero : period ≠ timespecZero) (h : turn fuel s.timer now timeout = some (.callback fired)) :
    (0 < timespecCmp s.timer.expires now ∧ timeout = true ∧
      fired = ⟨false, false, timespecAdd s.timer.expires period, period, 0⟩) ∨
    ¬ 0 < timespecCmp s.timer.expires now ∧ ∃ expires overruns,
      catchUp period now fuel s.timer.expires 0 = some (expires, overruns) ∧
        fired = ⟨false, false, timespecAdd (timespecSub expires period) period, period, overruns⟩ := by
  have nonzero : timespecIsZero period = false := by
    rw [← Bool.not_eq_true, isZero_iff]
    exact nonzero
  have reload (timer : Timer) (e : timer.period = period) (expires : Timespec) :
      timer.reload expires = { timer with expires := timespecAdd expires period } := by
    unfold Timer.reload
    rw [e, nonzero]
    rfl
  rw [hx.timer] at h
  unfold turn at h
  dsimp only at h
  rw [if_neg (by decide)] at h
  split at h
  next => cases h
  split at h
  next early =>
    split at h
    next out =>
      cases h
      exact .inl ⟨early, out, reload _ rfl _⟩
    next => cases h
  next late =>
    rw [if_neg (by rw [nonzero]; decide)] at h
    obtain ⟨⟨expires, overruns⟩, caught, e⟩ := Option.map_eq_some_iff.1 h
    cases e
    exact .inr ⟨late, expires, overruns, caught, reload _ rfl _⟩

/-- The state after a turn that has called the callback. -/
def State.next (s : State) (fired : Timer) (wake : Timespec) : State :=
  ⟨fired.called, s.delivered + 1, s.reported + fired.overruns, wake⟩

/-- An account that counts the expirations between which the time is. -/
theorem accounted_of_between (pos : 0 < period.ns) (count : s.delivered + s.reported = n)
    (expires : s.timer.expires.ns = first.ns + n * period.ns) (h : Between first.ns period.ns s.time.ns n) :
    Accounted first period s := by
  refine ⟨?_, ?_⟩
  · rw [h.ncard pos, count]
  · rw [expires]
    exact h.isLeast pos

/-- A right account counts the expirations between which the time is. -/
theorem Accounted.between (h : Accounted first period s) (pos : 0 < period.ns) :
    ∃ m : ℕ, s.delivered + s.reported = m ∧ s.timer.expires.ns = first.ns + m * period.ns ∧
      Between first.ns period.ns s.time.ns m := by
  obtain ⟨⟨after, m, expires⟩, least⟩ := h.next
  have between : Between first.ns period.ns s.time.ns m := by
    refine ⟨expires ▸ after, fun k lt => ?_⟩
    by_contra later
    have le : s.timer.expires.ns ≤ first.ns + k * period.ns := least ⟨Int.not_le.1 later, k, rfl⟩
    have next : first.ns + (k + 1 : ℕ) * period.ns ≤ first.ns + m * period.ns :=
      add_mul_le pos (Nat.succ_le_of_lt lt)
    rw [expires] at le
    push_cast at next
    linarith
  exact ⟨m, by rw [h.count, between.ncard pos], expires, between⟩

/-- A turn that has slept is on time if and only if the thread wakes up between the expiration and the following one,
and this one fits. -/
theorem slept_iff (hx : Exact first period n s) (hp : period.Normal) (pos : 0 < period.ns) :
    Accounted first period
        (s.next ⟨false, false, timespecAdd s.timer.expires period, period, 0⟩ wake) ↔
      s.timer.expires.ns ≤ wake.ns ∧ wake.ns < s.timer.expires.ns + period.ns ∧
        s.timer.expires.ns + period.ns < room := by
  have normal := hx.normal.add hp
  have lower := hx.normal.neg_room_le
  have nominal : s.timer.expires.ns + period.ns = first.ns + (n + 1 : ℕ) * period.ns := by
    rw [hx.expires]
    push_cast
    linarith
  have count : ((s.delivered + 1 : ℕ) : ℤ) + (s.reported + 0) = (n + 1 : ℕ) := by
    have count := hx.count
    push_cast
    omega
  constructor
  · intro accounted
    obtain ⟨m, total, expires, between⟩ := accounted.between pos
    obtain rfl : m = n + 1 := Int.ofNat_inj.1 (total.symm.trans count)
    have expires : (timespecAdd s.timer.expires period).ns = s.timer.expires.ns + period.ns :=
      expires.trans nominal.symm
    refine ⟨?_, ?_, ?_⟩
    · rw [hx.expires]
      exact between.2 n (Nat.lt_succ_self n)
    · rw [nominal]
      exact between.1
    · rw [← expires]
      exact normal.lt_room
  · rintro ⟨slept, before, small⟩
    have expires : (timespecAdd s.timer.expires period).ns = s.timer.expires.ns + period.ns :=
      eq_of_modEq (hx.normal.ns_add hp) normal.neg_room_le normal.lt_room (by omega) small
    refine accounted_of_between pos count (expires.trans nominal) (between_succ pos ?_ ?_)
    · rw [← hx.expires]
      exact slept
    · rw [← nominal]
      exact before

theorem one_le_max : 1 ≤ DELAYTIMER_MAX := by
  unfold DELAYTIMER_MAX
  norm_num

/-- A turn that comes too late is right only if the overruns have just passed their maximum. -/
theorem late_iff (hx : Exact first period n s) (pos : 0 < period.ns) {k : ℕ} {expires : Timespec}
    (late : s.timer.expires.ns ≤ now.ns)
    (hk : expires.ns = s.timer.expires.ns + (k + 1 : ℕ) * period.ns) (reached : now.ns ≤ expires.ns)
    (small : expires.ns < room) (before : k = 0 ∨ s.timer.expires.ns + k * period.ns < now.ns) :
    Accounted first period (s.next ⟨false, false, expires, period, min (0 + ((k + 1 : ℕ) : ℤ)) DELAYTIMER_MAX⟩ now) ↔
      DELAYTIMER_MAX * period.ns < now.ns - s.timer.expires.ns ∧
        now.ns - s.timer.expires.ns < (DELAYTIMER_MAX + 1) * period.ns ∧
        s.timer.expires.ns + (DELAYTIMER_MAX + 1) * period.ns < room := by
  have some_max := one_le_max
  generalize DELAYTIMER_MAX = max at some_max ⊢
  have nominal : expires.ns = first.ns + (n + k + 1 : ℕ) * period.ns := by
    rw [hk, hx.expires]
    push_cast
    linarith
  have last : first.ns + (n + k : ℕ) * period.ns ≤ now.ns := by
    have start := hx.expires
    push_cast
    rcases before with rfl | before
    · push_cast
      linarith
    · linarith
  have total : ((s.delivered + 1 : ℕ) : ℤ) + (s.reported + min (0 + ((k + 1 : ℕ) : ℤ)) max) =
      n + 1 + min ((k + 1 : ℕ) : ℤ) max := by
    have count := hx.count
    push_cast
    omega
  have more (some : 1 ≤ k) : s.timer.expires.ns + k * period.ns < now.ns := before.resolve_left (by omega)
  have between (after : now.ns < expires.ns) : Between first.ns period.ns now.ns (n + k + 1) :=
    between_succ pos last (by rw [← nominal]; exact after)
  constructor
  · intro accounted
    have after : now.ns < expires.ns := accounted.next.1.1
    have count : (n : ℤ) + 1 + min ((k + 1 : ℕ) : ℤ) max = (n + k + 1 : ℕ) := by
      rw [← total, ← (between after).ncard pos]
      exact accounted.count
    have all : (k : ℤ) = max := by
      push_cast at count
      omega
    have above := more (by omega)
    rw [← all]
    push_cast at hk
    refine ⟨?_, ?_, ?_⟩
    · linarith
    · linarith
    · linarith
  · rintro ⟨lower, upper, -⟩
    have le : max < (k + 1 : ℕ) := by
      refine lt_of_mul_lt_mul_right ?_ (Int.le_of_lt pos)
      linarith
    have above := more (by omega)
    have lt : (k : ℤ) < max + 1 := by
      refine lt_of_mul_lt_mul_right ?_ (Int.le_of_lt pos)
      linarith
    have all : (k : ℤ) = max := by
      push_cast at le
      omega
    have after : now.ns < expires.ns := by
      rw [← all] at upper
      push_cast at hk
      linarith
    refine accounted_of_between pos ?_ nominal (between after)
    apply total.trans
    rw [← all]
    push_cast
    omega

/-- A turn that comes too late is not right if the seconds of an expiration up to the next one do not fit. -/
theorem not_accounted_of_room (hx : Exact first period n s) (pos : 0 < period.ns) {k : ℕ} {expires : Timespec}
    {overruns : ℤ} (normal : expires.Normal) (late : s.timer.expires.ns ≤ now.ns)
    (before : k = 0 ∨ s.timer.expires.ns + k * period.ns < now.ns)
    (large : room ≤ s.timer.expires.ns + (k + 1 : ℕ) * period.ns) :
    ¬ Accounted first period (s.next ⟨false, false, expires, period, overruns⟩ now) := by
  intro accounted
  obtain ⟨m, -, expires_eq, between⟩ := accounted.between pos
  replace expires_eq : expires.ns = first.ns + m * period.ns := expires_eq
  have last : first.ns + (n + k : ℕ) * period.ns ≤ now.ns := by
    have start := hx.expires
    push_cast
    rcases before with rfl | before
    · push_cast
      linarith
    · linarith
  have more : n + k < m := by
    by_contra! less
    have le : first.ns + m * period.ns ≤ first.ns + (n + k : ℕ) * period.ns := add_mul_le pos less
    exact absurd (Int.lt_of_lt_of_le between.1 le) (Int.not_lt.2 last)
  have le : first.ns + (n + k + 1 : ℕ) * period.ns ≤ first.ns + m * period.ns := add_mul_le pos more
  have small := normal.lt_room
  rw [hx.expires] at large
  push_cast at le large
  linarith

theorem not_saturated_of_room (c : Call) (pos : 0 < period.ns) {k : ℕ}
    (before : k = 0 ∨ c.before.timer.expires.ns + k * period.ns < c.now.ns)
    (large : room ≤ c.before.timer.expires.ns + (k + 1 : ℕ) * period.ns) : ¬ Saturated period c := by
  rintro ⟨-, upper, small⟩
  have some_max := one_le_max
  have more : DELAYTIMER_MAX + 1 < (k + 1 : ℕ) := by
    refine lt_of_mul_lt_mul_right ?_ (Int.le_of_lt pos)
    linarith
  have above := before.resolve_left (by rintro rfl; push_cast at more; omega)
  have less : (k : ℤ) < DELAYTIMER_MAX + 1 := by
    refine lt_of_mul_lt_mul_right ?_ (Int.le_of_lt pos)
    linarith
  push_cast at more
  omega

/-! ### Runs -/

/-- The thread has not overslept, or its overruns have just passed their maximum; and the next expiration fits. -/
def Timely (period : Timespec) (c : Call) : Prop :=
  OnTime period c ∨ Saturated period c

/-- A right account of an untouched timer tells the number of expirations that it has counted. -/
theorem Accounted.exact (h : Accounted first period s) (pos : 0 < period.ns)
    (timer : s.timer = ⟨false, false, s.timer.expires, period, 0⟩) (normal : s.timer.expires.Normal) :
    ∃ m, Exact first period m s := by
  obtain ⟨m, count, expires, -⟩ := h.between pos
  exact ⟨m, timer, normal, expires, count⟩

/-- A call whose account was right before. -/
theorem call_iff {fuel : ℕ} {timeout : Bool} {fired : Timer} (hx : Exact first period n s) (hp : period.Normal)
    (pos : 0 < period.ns) (clock : Clock s now wake)
    (h : turn fuel s.timer now timeout = some (.callback fired)) :
    (Accounted first period (s.next fired wake) ↔ Timely period ⟨s, now, wake, s.next fired wake⟩) ∧
      (s.next fired wake).timer = ⟨false, false, (s.next fired wake).timer.expires, period, 0⟩ ∧
      (s.next fired wake).timer.expires.Normal := by
  have nonzero : period ≠ timespecZero := by
    rintro rfl
    exact Int.lt_irrefl 0 pos
  rcases turn_cases hx nonzero h with ⟨early, -, rfl⟩ | ⟨late, expires, overruns, caught, rfl⟩
  · rw [hx.normal.cmp_pos_iff clock.normal_now] at early
    refine ⟨(slept_iff hx hp pos).trans ⟨fun slept => .inl ⟨early, slept⟩, ?_⟩, rfl, hx.normal.add hp⟩
    rintro (onTime | saturated)
    · exact onTime.2
    · have long : DELAYTIMER_MAX * period.ns < now.ns - s.timer.expires.ns := saturated.1
      have nonneg := Int.mul_nonneg (Int.le_trans Int.one_nonneg one_le_max) (Int.le_of_lt pos)
      omega
  · obtain rfl := clock.awake late
    rw [hx.normal.cmp_pos_iff clock.normal_now, Int.not_lt] at late
    obtain ⟨normal, reached, k, before, result⟩ := catchUp_spec hp pos clock.normal_now hx.normal (by decide) caught
    have reloaded : timespecAdd (timespecSub expires period) period = expires := by
      apply ((normal.sub hp).add hp).eq_of_ns normal
      have back := ((normal.sub hp).ns_add hp).trans ((normal.ns_sub hp).add_right period.ns)
      rwa [Int.sub_add_cancel] at back
    have not_onTime (after : State) : ¬ OnTime period ⟨s, wake, wake, after⟩ :=
      fun onTime => absurd onTime.1 (Int.not_lt.2 late)
    rw [reloaded]
    refine ⟨?_, rfl, normal⟩
    rcases result with ⟨hk, count⟩ | large
    · rw [count]
      refine (late_iff hx pos late hk reached normal.lt_room before).trans ⟨.inr, ?_⟩
      rintro (onTime | saturated)
      · exact absurd onTime (not_onTime _)
      · exact saturated
    · refine iff_of_false (not_accounted_of_room hx pos normal late before large) ?_
      rintro (onTime | saturated)
      · exact not_onTime _ onTime
      · exact not_saturated_of_room ⟨s, wake, wake, _⟩ pos before large saturated

/-- In every run of the thread of an armed timer: the account is right at each call of the callback if and only if the
thread never oversleeps and the expirations fit in 32 bits, but for calls with one overrun more than
`DELAYTIMER_MAX`. -/
theorem accounted_iff (first period : Timespec) (normal : first.Normal) (hp : period.Normal) (pos : 0 < period.ns)
    {calls : List Call} (run : Run first period calls s) :
    (∀ c ∈ calls, Accounted first period c.after) ↔ ∀ c ∈ calls, Timely period c := by
  suffices h : ((∀ c ∈ calls, Accounted first period c.after) ↔ ∀ c ∈ calls, Timely period c) ∧
      ((∀ c ∈ calls, Accounted first period c.after) → ∃ n, Exact first period n s) from h.1
  induction run with
  | start time =>
      refine ⟨iff_of_true (fun _ h => nomatch h) (fun _ h => nomatch h), fun _ => ⟨0, rfl, normal, ?_, rfl⟩⟩
      push_cast
      omega
  | again run clock h ih =>
      refine ⟨ih.1, fun all => ?_⟩
      obtain ⟨n, hx⟩ := ih.2 all
      exact ⟨n, hx.timer, hx.normal, hx.expires, hx.count⟩
  | @call calls s s' fuel now wake timeout timer run clock h e ih =>
      obtain rfl : s' = s.next timer wake := e
      constructor
      · constructor
        · intro all
          have earlier := fun c hc => all c (List.mem_cons_of_mem _ hc)
          obtain ⟨n, hx⟩ := ih.2 earlier
          rintro c hc
          rcases List.mem_cons.1 hc with rfl | hc
          · exact (call_iff hx hp pos clock h).1.1 (all _ List.mem_cons_self)
          · exact ih.1.1 earlier c hc
        · intro all
          have earlier := ih.1.2 fun c hc => all c (List.mem_cons_of_mem _ hc)
          obtain ⟨n, hx⟩ := ih.2 earlier
          rintro c hc
          rcases List.mem_cons.1 hc with rfl | hc
          · exact (call_iff hx hp pos clock h).1.2 (all _ List.mem_cons_self)
          · exact earlier c hc
      · intro all
        obtain ⟨n, hx⟩ := ih.2 fun c hc => all c (List.mem_cons_of_mem _ hc)
        obtain ⟨-, same, expires⟩ := call_iff hx hp pos clock h
        exact (all _ List.mem_cons_self).exact pos same expires

/-- A timer that expires after 10 seconds and then each second, set after 5 seconds. -/
def set : State := ⟨⟨false, false, ⟨10, 0⟩, ⟨1, 0⟩, 0⟩, 0, 0, ⟨5, 0⟩⟩

/-- The thread goes to sleep after 6 seconds and wakes up 500 nanoseconds after the expiration. -/
def prompt : Call := ⟨set, ⟨6, 0⟩, ⟨10, 500⟩, ⟨⟨false, false, ⟨11, 0⟩, ⟨1, 0⟩, 0⟩, 1, 0, ⟨10, 500⟩⟩⟩

theorem accounted_prompt : Accounted ⟨10, 0⟩ ⟨1, 0⟩ prompt.after := by
  have clock : Clock set ⟨6, 0⟩ ⟨10, 500⟩ :=
    ⟨by decide, by decide, by decide, by decide, fun h => absurd (by decide) h⟩
  have turned : turn 0 set.timer ⟨6, 0⟩ true = some (.callback ⟨false, false, ⟨11, 0⟩, ⟨1, 0⟩, 0⟩) := rfl
  have run : Run ⟨10, 0⟩ ⟨1, 0⟩ [prompt] prompt.after := .call (.start ⟨5, 0⟩) clock turned rfl
  refine (accounted_iff ⟨10, 0⟩ ⟨1, 0⟩ (by decide) (by decide) (by decide) run).2 (fun c hc => ?_) prompt
    List.mem_cons_self
  rw [List.mem_singleton.1 hc]
  exact .inl ⟨by decide, by decide, by decide, by decide⟩

/-- The thread gets to the expiration half a second too late. -/
def overslept : Call :=
  ⟨set, ⟨10, 500000000⟩, ⟨10, 500000000⟩, ⟨⟨false, false, ⟨11, 0⟩, ⟨1, 0⟩, 0⟩, 1, 1, ⟨10, 500000000⟩⟩⟩

/-- One expiration has elapsed, and the thread counts a call and an overrun. -/
theorem not_accounted_overslept : Run ⟨10, 0⟩ ⟨1, 0⟩ [overslept] overslept.after ∧
    overslept.after.delivered + overslept.after.reported = 2 ∧
    (elapsed (ns ⟨10, 0⟩) (ns ⟨1, 0⟩) overslept.after.time.ns).ncard = 1 ∧ ¬ Accounted ⟨10, 0⟩ ⟨1, 0⟩ overslept.after := by
  have clock : Clock set ⟨10, 500000000⟩ ⟨10, 500000000⟩ :=
    ⟨by decide, by decide, by decide, by decide, fun _ => rfl⟩
  have first : ns ⟨10, 0⟩ = 10000000000 := by decide
  have period : ns ⟨1, 0⟩ = 1000000000 := by decide
  have wake : overslept.after.time.ns = 10500000000 := by decide
  have one : (elapsed (ns ⟨10, 0⟩) (ns ⟨1, 0⟩) overslept.after.time.ns).ncard = 1 := by
    rw [first, period, wake]
    refine Between.ncard (by norm_num) ⟨by norm_num, fun k hk => ?_⟩
    obtain rfl : k = 0 := by omega
    norm_num
  have turned : turn 1 set.timer ⟨10, 500000000⟩ true = some (.callback ⟨false, false, ⟨11, 0⟩, ⟨1, 0⟩, 1⟩) := rfl
  refine ⟨.call (.start ⟨5, 0⟩) clock turned rfl, by decide, one, fun accounted => ?_⟩
  have count := accounted.count
  rw [one] at count
  cases count

end Bionic.TimerAccount
