import Bionic.SemaphoreRun

/-! # Conservation of the units of a semaphore

A `History` is a state of the system together with what its calls did: for each thread how often the call
it is in has changed the count, and the calls that have returned.  `Fits` is the invariant of one thread;
with it the units add up at every point of a run (`Inv.units`).

`sem_trywait` reads the old count as an `int`, so that from a count of 2^31 on it takes a unit and returns
`EAGAIN`.  `TryOk` says that a step does not do that. -/

namespace Bionic.Semaphore

/-! ### Histories -/

/-- A call that has returned: whether it was `sem_post`, what it returned, and how often it incremented
and decremented the count. -/
structure Call where
  post : Bool
  ret : Ret
  incs : ℕ
  decs : ℕ
deriving DecidableEq, Repr

structure History (T : Type*) where
  sys : Sys T
  /-- The thread is in `sem_post`. -/
  posting : T → Bool
  /-- How often the call that a thread is in has incremented the count. -/
  incs : T → ℕ
  decs : T → ℕ
  returned : List Call

/-- Between two calls. -/
def Pc.returns : Pc → Bool
  | .idle => true
  | .done _ => true
  | _ => false

/-- How often a step from `pc` increments the count. -/
def Pc.increments : Pc → ℕ
  | .inc => 1
  | _ => 0

/-- How often a step from `pc` decrements the count. -/
def Pc.decrements (count : Count) : Pc → ℕ
  | .cas _ old => if count = old then 1 else 0
  | _ => 0

/-- The number of changes by the current call after a step from `pc` that makes `k` more. -/
def changesAfter (pc : Pc) (changes k : ℕ) : ℕ := if pc.returns then 0 else changes + k

/-- Whether the thread is in `sem_post` after a step from `pc` to `pc'`. -/
def postingAfter (posting : Bool) (pc' : Pc) : Pc → Bool
  | .idle => pc' = .inc
  | _ => posting

section

variable {T : Type*} [DecidableEq T]

/-- The call that returns when `t` makes a step. -/
def History.finished (h : History T) (t : T) : List Call :=
  match h.sys.pc t with
  | .done ret => [⟨h.posting t, ret, h.incs t, h.decs t⟩]
  | _ => []

/-- The step of `t` leads to `s'`. -/
def History.advance (h : History T) (t : T) (s' : Sys T) : History T where
  sys := s'
  posting := Function.update h.posting t (postingAfter (h.posting t) (s'.pc t) (h.sys.pc t))
  incs := Function.update h.incs t (changesAfter (h.sys.pc t) (h.incs t) (h.sys.pc t).increments)
  decs := Function.update h.decs t
    (changesAfter (h.sys.pc t) (h.decs t) ((h.sys.pc t).decrements h.sys.count))
  returned := h.finished t ++ h.returned

/-- The histories of the runs all of whose steps are made where `ok` allows them. -/
inductive Run (ok : Sys T → T → Prop) (value : Count) : History T → Prop
  | start : Run ok value ⟨start T value, fun _ => false, fun _ => 0, fun _ => 0, []⟩
  | step {h : History T} {t : T} {s' : Sys T} :
      Run ok value h → ok h.sys t → Step h.sys t s' → Run ok value (h.advance t s')

/-- No unit is taken by `sem_trywait` from a count that is negative as an `int`. -/
def TryOk (s : Sys T) (t : T) : Prop :=
  ∀ old, s.pc t = .cas .trywait old → s.count = old → old.toNat < 2 ^ 31

end

/-! ### One thread -/

/-- A call of `sem_post` has incremented the count once; another call has decremented it at most once, and
has done so if and only if it returns 0. -/
def Call.Conserves (c : Call) : Prop :=
  (c.post = true ∧ c.incs = 1 ∧ c.decs = 0) ∨
    (c.post = false ∧ c.incs = 0 ∧ c.decs ≤ 1 ∧ (c.ret = .zero ↔ c.decs = 1))

/-- What a thread at `pc` has done in its call. -/
def Fits (post : Bool) (incs decs : ℕ) : Pc → Prop
  | .idle => incs = 0 ∧ decs = 0
  | .inc => post = true ∧ incs = 0 ∧ decs = 0
  | .wake => post = true ∧ incs = 1 ∧ decs = 0
  | .done ret => Call.Conserves ⟨post, ret, incs, decs⟩
  | .cas _ old => old ≠ 0 ∧ post = false ∧ incs = 0 ∧ decs = 0
  | _ => post = false ∧ incs = 0 ∧ decs = 0

theorem fits_afterDec_zero (c : Caller) : Fits false 0 0 (afterDec 0 c) := by
  cases c with
  | wait => exact ⟨rfl, rfl, rfl⟩
  | timedFirst absTimeout =>
      unfold afterDec
      simp only [ne_eq, not_true_eq_false, if_false]
      split
      · exact Or.inr ⟨rfl, rfl, Nat.zero_le 1, by simp⟩
      · exact ⟨rfl, rfl, rfl⟩
  | timedAgain ts => exact ⟨rfl, rfl, rfl⟩
  | trywait => exact Or.inr ⟨rfl, rfl, Nat.zero_le 1, by simp⟩

/-- After a decrement the call returns 0, unless it is `sem_trywait` and the old count was negative. -/
theorem fits_afterDec {old : Count} {c : Caller} (hne : old ≠ 0) (htry : c = .trywait → old.toNat < 2 ^ 31) :
    Fits false 0 1 (afterDec old c) := by
  have hdone : afterDec old c = .done .zero := by
    cases c with
    | trywait =>
        have hlt := htry rfl
        have hne' : old.toNat ≠ 0 := fun h0 => hne (BitVec.eq_of_toNat_eq h0)
        have hpos : 0 < old.toInt := by
          rw [BitVec.toInt_eq_toNat_of_lt (by omega)]
          omega
        rw [afterDec, if_pos hpos]
    | _ => rw [afterDec, if_pos hne]
  rw [hdone]
  exact Or.inr ⟨rfl, rfl, Nat.le_refl 1, by simp⟩

theorem fits_exec {count count' : Count} {pc pc' : Pc} {post : Bool} {incs decs : ℕ}
    (h : exec count pc = some (count', pc')) (hf : Fits post incs decs pc)
    (htry : ∀ old, pc = .cas .trywait old → count = old → old.toNat < 2 ^ 31) :
    Fits (postingAfter post pc' pc) (changesAfter pc incs pc.increments)
      (changesAfter pc decs (pc.decrements count)) pc' := by
  cases pc with
  | inc =>
      obtain ⟨rfl, rfl, rfl⟩ := hf
      simp only [exec, Option.some.injEq, Prod.mk.injEq] at h
      obtain ⟨-, rfl⟩ := h
      split
      · exact ⟨rfl, rfl, rfl⟩
      · exact Or.inl ⟨rfl, rfl, rfl⟩
  | read c =>
      obtain ⟨rfl, rfl, rfl⟩ := hf
      simp only [exec, Option.some.injEq, Prod.mk.injEq] at h
      obtain ⟨-, rfl⟩ := h
      split
      · next hne => exact ⟨hne, rfl, rfl, rfl⟩
      · next hz =>
        rw [not_not.1 hz]
        exact fits_afterDec_zero c
  | cas c old =>
      obtain ⟨hne, rfl, rfl, rfl⟩ := hf
      simp only [exec] at h
      split at h
      · next same =>
        cases h
        have htaken : changesAfter (.cas c old) 0 ((Pc.cas c old).decrements count) = 1 := by
          simp [changesAfter, Pc.returns, Pc.decrements, same]
        rw [htaken]
        exact fits_afterDec hne fun hc => htry old (by rw [hc]) same
      · next differs =>
        cases h
        have htaken : changesAfter (.cas c old) 0 ((Pc.cas c old).decrements count) = 0 := by
          simp [changesAfter, Pc.returns, Pc.decrements, differs]
        rw [htaken]
        exact ⟨rfl, rfl, rfl⟩
  | wait =>
      obtain ⟨rfl, rfl, rfl⟩ := hf
      simp only [exec, Option.some.injEq, Prod.mk.injEq] at h
      obtain ⟨-, rfl⟩ := h
      split <;> exact ⟨rfl, rfl, rfl⟩
  | timedWait ts =>
      obtain ⟨rfl, rfl, rfl⟩ := hf
      simp only [exec, Option.some.injEq, Prod.mk.injEq] at h
      obtain ⟨-, rfl⟩ := h
      split <;> exact ⟨rfl, rfl, rfl⟩
  | done ret =>
      simp only [exec, Option.some.injEq, Prod.mk.injEq] at h
      obtain ⟨-, rfl⟩ := h
      exact ⟨rfl, rfl⟩
  | _ => simp [exec] at h

theorem Fits.woken {pc : Pc} {post : Bool} {incs decs : ℕ} (h : Fits post incs decs pc)
    (hs : pc.sleeps = true) : Fits post incs decs pc.woken := by
  cases pc with
  | asleep => exact h
  | timedAsleep ts => exact h
  | _ => simp [Pc.sleeps] at hs

/-! ### A step of the system -/

section

variable {T : Type*} [DecidableEq T] {s s' : Sys T} {t u : T} {post : Bool} {incs decs : ℕ}

/-- Another thread stays where it is, or is woken. -/
theorem fits_other (hstep : Step s t s') (hut : u ≠ t) (h : Fits post incs decs (s.pc u)) :
    Fits post incs decs (s'.pc u) := by
  cases hstep with
  | wakeOne v ht hv =>
      by_cases huv : u = v
      · subst huv
        simpa [Sys.wakeUp, Sys.set] using h.woken hv
      · simpa [Sys.wakeUp, Sys.set, huv, hut] using h
  | _ => simpa [Sys.call, Sys.set, hut] using h

theorem fits_self (hstep : Step s t s') (htry : TryOk s t) (h : Fits post incs decs (s.pc t)) :
    Fits (postingAfter post (s'.pc t) (s.pc t)) (changesAfter (s.pc t) incs (s.pc t).increments)
      (changesAfter (s.pc t) decs ((s.pc t).decrements s.count)) (s'.pc t) := by
  cases hstep with
  | call op idle =>
      have hpc : (s.call t op).pc t = op.entry := by simp [Sys.call, Sys.set]
      rw [hpc, idle]
      cases op with
      | post => exact ⟨rfl, rfl, rfl⟩
      | _ => exact ⟨rfl, rfl, rfl⟩
  | exec count pc he =>
      have hpc : (s.set count t pc).pc t = pc := by simp [Sys.set]
      rw [hpc]
      exact fits_exec he h htry
  | clock abs now hc =>
      have hpc : (s.set s.count t (afterClock abs now)).pc t = afterClock abs now := by simp [Sys.set]
      rw [hc] at h
      rw [hpc, hc]
      obtain ⟨rfl, rfl, rfl⟩ := h
      unfold afterClock
      split
      · exact Or.inr ⟨rfl, rfl, Nat.zero_le 1, by simp [changesAfter, Pc.returns, Pc.decrements]⟩
      · exact ⟨rfl, rfl, rfl⟩
  | spurious hs =>
      have hpc : (s.set s.count t (s.pc t).woken).pc t = (s.pc t).woken := by simp [Sys.set]
      rw [hpc]
      cases hp : s.pc t with
      | asleep =>
          rw [hp] at h
          obtain ⟨rfl, rfl, rfl⟩ := h
          exact ⟨rfl, rfl, rfl⟩
      | timedAsleep ts =>
          rw [hp] at h
          obtain ⟨rfl, rfl, rfl⟩ := h
          exact ⟨rfl, rfl, rfl⟩
      | _ => simp [hp, Pc.sleeps] at hs
  | expired ts errno hc he =>
      have hpc : (s.set s.count t (.done (.minusOne errno))).pc t = .done (.minusOne errno) := by
        simp [Sys.set]
      rw [hc] at h
      rw [hpc, hc]
      obtain ⟨rfl, rfl, rfl⟩ := h
      exact Or.inr ⟨rfl, rfl, Nat.zero_le 1, by simp [changesAfter, Pc.returns, Pc.decrements]⟩
  | wakeOne v ht hv =>
      have hvt : t ≠ v := by
        rintro rfl
        simp [ht, Pc.sleeps] at hv
      have hpc : (s.wakeUp t v).pc t = .done .zero := by simp [Sys.wakeUp, Sys.set, hvt]
      rw [ht] at h
      rw [hpc, ht]
      obtain ⟨rfl, rfl, rfl⟩ := h
      exact Or.inl ⟨rfl, rfl, rfl⟩
  | wakeNone ht none =>
      have hpc : (s.set s.count t (.done .zero)).pc t = .done .zero := by simp [Sys.set]
      rw [ht] at h
      rw [hpc, ht]
      obtain ⟨rfl, rfl, rfl⟩ := h
      exact Or.inl ⟨rfl, rfl, rfl⟩

/-- The count changes by what the step does, as long as there is room for one more unit. -/
theorem count_exec {count count' : Count} {pc pc' : Pc} (h : exec count pc = some (count', pc'))
    (hcas : ∀ c old, pc = .cas c old → old ≠ 0) (hroom : count.toNat + pc.increments < 2 ^ 32) :
    count'.toNat + pc.decrements count = count.toNat + pc.increments := by
  cases pc with
  | inc =>
      simp only [exec, Option.some.injEq, Prod.mk.injEq] at h
      obtain ⟨rfl, -⟩ := h
      have hroom : count.toNat + 1 < 2 ^ 32 := hroom
      show (count + 1).toNat + 0 = count.toNat + 1
      rw [BitVec.toNat_add]
      exact Nat.mod_eq_of_lt hroom
  | cas c old =>
      have hne : old.toNat ≠ 0 := fun h0 => hcas c old rfl (BitVec.eq_of_toNat_eq h0)
      simp only [exec] at h
      split at h
      · next same =>
        cases h
        have hlt := old.isLt
        have hsub : (old - 1).toNat = (2 ^ 32 - 1 + old.toNat) % 2 ^ 32 := BitVec.toNat_sub old 1
        rw [Pc.decrements, if_pos same, same]
        show (old - 1).toNat + 1 = old.toNat + 0
        omega
      · next differs =>
        cases h
        rw [Pc.decrements, if_neg differs]
        rfl
  | read c =>
      simp only [exec, Option.some.injEq, Prod.mk.injEq] at h
      rw [← h.1]
      rfl
  | wait =>
      simp only [exec, Option.some.injEq, Prod.mk.injEq] at h
      rw [← h.1]
      rfl
  | timedWait ts =>
      simp only [exec, Option.some.injEq, Prod.mk.injEq] at h
      rw [← h.1]
      rfl
  | done ret =>
      simp only [exec, Option.some.injEq, Prod.mk.injEq] at h
      rw [← h.1]
      rfl
  | _ => simp [exec] at h

theorem count_step (hstep : Step s t s') (hcas : ∀ c old, s.pc t = .cas c old → old ≠ 0)
    (hroom : s.count.toNat + (s.pc t).increments < 2 ^ 32) :
    s'.count.toNat + (s.pc t).decrements s.count = s.count.toNat + (s.pc t).increments := by
  cases hstep with
  | call op idle => simp [idle, Sys.call, Sys.set, Pc.increments, Pc.decrements]
  | exec count pc h => exact count_exec h hcas hroom
  | clock abs now h => simp [h, Sys.set, Pc.increments, Pc.decrements]
  | spurious h =>
      cases hp : s.pc t with
      | asleep => rfl
      | timedAsleep ts => rfl
      | _ => simp [hp, Pc.sleeps] at h
  | expired ts errno h he => simp [h, Sys.set, Pc.increments, Pc.decrements]
  | wakeOne u ht hu => simp [ht, Sys.wakeUp, Sys.set, Pc.increments, Pc.decrements]
  | wakeNone ht none => simp [ht, Sys.set, Pc.increments, Pc.decrements]

end

/-! ### Runs -/

section

variable {T : Type*} [DecidableEq T] [Fintype T] {h : History T} {t : T} {s' : Sys T} {value : Count}

/-- All changes of one kind: those of the calls that have returned and those of the calls under way. -/
def total (kind : Call → ℕ) (returned : List Call) (current : T → ℕ) : ℕ :=
  (returned.map kind).sum + ∑ t, current t

/-- The number of increments so far. -/
def History.posts (h : History T) : ℕ := total Call.incs h.returned h.incs

/-- The number of decrements so far. -/
def History.takes (h : History T) : ℕ := total Call.decs h.returned h.decs

/-- A call takes its changes along when it returns. -/
theorem total_advance (kind : Call → ℕ) (current : T → ℕ) (k : ℕ)
    (hidle : h.sys.pc t = .idle → current t = 0) (hk : (h.sys.pc t).returns = true → k = 0)
    (hkind : ∀ ret, kind ⟨h.posting t, ret, h.incs t, h.decs t⟩ = current t) :
    total kind (h.finished t ++ h.returned)
      (Function.update current t (changesAfter (h.sys.pc t) (current t) k)) =
      total kind h.returned current + k := by
  have hsum := sum_update current t (changesAfter (h.sys.pc t) (current t) k)
  unfold total History.finished
  cases hp : h.sys.pc t with
  | idle =>
      have h0 := hidle hp
      have hk0 := hk (by rw [hp]; rfl)
      simp only [hp, changesAfter, Pc.returns, if_true] at hsum
      simp only [changesAfter, Pc.returns, if_true, List.nil_append]
      omega
  | done ret =>
      have hk0 := hk (by rw [hp]; rfl)
      simp only [hp, changesAfter, Pc.returns, if_true] at hsum
      simp only [changesAfter, Pc.returns, if_true, List.singleton_append, List.map_cons, List.sum_cons,
        hkind]
      omega
  | _ =>
      simp only [hp, changesAfter, Pc.returns, Bool.false_eq_true, if_false] at hsum
      simp only [changesAfter, Pc.returns, Bool.false_eq_true, if_false, List.nil_append]
      omega

/-- What holds at every point of a run. -/
structure Accounted (value : Count) (h : History T) : Prop where
  fits : ∀ t, Fits (h.posting t) (h.incs t) (h.decs t) (h.sys.pc t)
  returned : ∀ c ∈ h.returned, c.Conserves
  units : value.toNat + h.posts < 2 ^ 32 → h.sys.count.toNat + h.takes = value.toNat + h.posts

omit [DecidableEq T] in
theorem accounted_start (value : Count) :
    Accounted value ⟨start T value, fun _ => false, fun _ => 0, fun _ => 0, []⟩ where
  fits _ := ⟨rfl, rfl⟩
  returned := by simp
  units _ := by simp [History.posts, History.takes, total, start]

theorem posts_advance (ha : Accounted value h) (t : T) (s' : Sys T) :
    (h.advance t s').posts = h.posts + (h.sys.pc t).increments := by
  have hf := ha.fits t
  refine total_advance Call.incs h.incs _ (fun hp => ?_) (fun hr => ?_) fun _ => rfl
  · rw [hp] at hf
    exact hf.1
  · cases hp : h.sys.pc t <;> simp [hp, Pc.returns] at hr <;> rfl

theorem takes_advance (ha : Accounted value h) (t : T) (s' : Sys T) :
    (h.advance t s').takes = h.takes + (h.sys.pc t).decrements h.sys.count := by
  have hf := ha.fits t
  refine total_advance Call.decs h.decs _ (fun hp => ?_) (fun hr => ?_) fun _ => rfl
  · rw [hp] at hf
    exact hf.2
  · cases hp : h.sys.pc t <;> simp [hp, Pc.returns] at hr <;> rfl

theorem Accounted.step (ha : Accounted value h) (htry : TryOk h.sys t) (hstep : Step h.sys t s') :
    Accounted value (h.advance t s') := by
  have hcas : ∀ c old, h.sys.pc t = .cas c old → old ≠ 0 := by
    intro c old hp
    have hf := ha.fits t
    rw [hp] at hf
    exact hf.1
  constructor
  · intro u
    by_cases hut : u = t
    · subst hut
      simpa [History.advance] using fits_self hstep htry (ha.fits u)
    · simpa [History.advance, hut] using fits_other hstep hut (ha.fits u)
  · intro c hc
    rcases List.mem_append.1 hc with hc | hc
    · have hf := ha.fits t
      unfold History.finished at hc
      split at hc
      · next ret hp =>
        obtain rfl := List.mem_singleton.1 hc
        rw [hp] at hf
        exact hf
      · exact absurd hc (List.not_mem_nil)
    · exact ha.returned c hc
  · intro hlt
    rw [posts_advance ha] at hlt ⊢
    rw [takes_advance ha]
    have hunits := ha.units (by omega)
    have hcount := count_step hstep hcas (by omega)
    show s'.count.toNat + _ = _
    omega

theorem Accounted.run (hrun : Run TryOk value h) : Accounted value h := by
  induction hrun with
  | start => exact accounted_start value
  | step _ ok hstep ih => exact ih.step ok hstep

/-- The calls of `sem_post` that have returned. -/
def History.completedPosts (h : History T) : ℕ := h.returned.countP (·.post)

/-- The other calls that have returned 0. -/
def History.successfulWaits (h : History T) : ℕ :=
  h.returned.countP fun c => !c.post && decide (c.ret = .zero)

theorem sum_of_conserves {l : List Call} (hl : ∀ c ∈ l, c.Conserves) :
    (l.map Call.incs).sum = l.countP (·.post) ∧
      (l.map Call.decs).sum = l.countP fun c => !c.post && decide (c.ret = .zero) := by
  induction l with
  | nil => exact ⟨rfl, rfl⟩
  | cons c l ih =>
      obtain ⟨hincs, hdecs⟩ := ih fun d hd => hl d (List.mem_cons_of_mem _ hd)
      rw [List.map_cons, List.map_cons, List.sum_cons, List.sum_cons, List.countP_cons, List.countP_cons,
        hincs, hdecs]
      rcases hl c List.mem_cons_self with ⟨hpost, hi, hd⟩ | ⟨hpost, hi, hle, hret⟩
      · simp only [hpost, hi, hd, if_true, Bool.not_true, Bool.false_and, Bool.false_eq_true, if_false]
        omega
      · by_cases hz : c.ret = .zero
        · have hd := hret.1 hz
          simp only [hpost, hi, hd, hz, Bool.not_false, decide_true, Bool.and_self, if_true,
            Bool.false_eq_true, if_false]
          omega
        · have hd : c.decs = 0 := by
            have hne := mt hret.2 hz
            omega
          simp only [hpost, hi, hd, hz, Bool.not_false, decide_false, Bool.and_false, Bool.false_eq_true,
            if_false]
          omega

/-- In every run in which no `sem_trywait` takes a unit from a count of 2^31 or more, and with fewer than
2^32 units in all, a wait returns 0 if and only if it has decremented the count exactly once, and the units
add up whenever no call is under way. -/
theorem units_conserved (hrun : Run TryOk value h) (hlt : value.toNat + h.posts < 2 ^ 32) :
    (∀ c ∈ h.returned, c.post = false → c.decs ≤ 1 ∧ (c.ret = .zero ↔ c.decs = 1)) ∧
    ((∀ t, h.sys.pc t = .idle) →
      h.sys.count.toNat + h.successfulWaits = value.toNat + h.completedPosts) := by
  have ha := Accounted.run hrun
  constructor
  · intro c hc hpost
    rcases ha.returned c hc with ⟨hpost', -⟩ | ⟨-, -, hle, hret⟩
    · rw [hpost] at hpost'
      cases hpost'
    · exact ⟨hle, hret⟩
  · intro hidle
    have hnone : ∀ t, h.incs t = 0 ∧ h.decs t = 0 := fun t => by
      have hf := ha.fits t
      rw [hidle t] at hf
      exact hf
    have hunits := ha.units hlt
    obtain ⟨hincs, hdecs⟩ := sum_of_conserves ha.returned
    have hposts : h.posts = h.completedPosts := by
      simp [History.posts, total, hnone, hincs, History.completedPosts]
    have htakes : h.takes = h.successfulWaits := by
      simp [History.takes, total, hnone, hdecs, History.successfulWaits]
    omega

end

/-! ### `sem_trywait` -/

/-- `t` makes a step of its own. -/
def History.go {T : Type*} [DecidableEq T] (h : History T) (t : T) : History T :=
  match exec h.sys.count (h.sys.pc t) with
  | some (count, pc) => h.advance t (h.sys.set count t pc)
  | none => h

theorem Run.go {T : Type*} [DecidableEq T] {ok : Sys T → T → Prop} {value : Count} {h : History T}
    (hrun : Run ok value h) (t : T) (hok : ok h.sys t) : Run ok value (h.go t) := by
  unfold History.go
  split
  · next count pc he => exact hrun.step hok (.exec count pc he)
  · exact hrun

/-- A thread calls `sem_trywait` on a new semaphore. -/
def tryCalled (value : Count) : History (Fin 1) :=
  let h : History (Fin 1) := ⟨start (Fin 1) value, fun _ => false, fun _ => 0, fun _ => 0, []⟩
  h.advance 0 (h.sys.call 0 .trywait)

/-- And runs until it has returned. -/
def tried (value : Count) : History (Fin 1) := (((tryCalled value).go 0).go 0).go 0

theorem run_tried {ok : Sys (Fin 1) → Fin 1 → Prop} (value : Count)
    (h₀ : ok (start (Fin 1) value) 0) (h₁ : ok (tryCalled value).sys 0)
    (h₂ : ok ((tryCalled value).go 0).sys 0) (h₃ : ok (((tryCalled value).go 0).go 0).sys 0) :
    Run ok value (tried value) := by
  have hcall : Run ok value (tryCalled value) := Run.start.step h₀ (.call .trywait rfl)
  exact ((hcall.go 0 h₁).go 0 h₂).go 0 h₃

theorem units_conserved_tried :
    (tried 5).returned = [⟨false, .zero, 0, 1⟩] ∧
      (tried 5).sys.count.toNat + (tried 5).successfulWaits = 5 + (tried 5).completedPosts := by
  have hrun : Run TryOk 5 (tried 5) := by
    refine run_tried 5 ?_ ?_ ?_ ?_ <;> rintro old - rfl <;> decide
  exact ⟨by decide, (units_conserved hrun (by decide)).2 (by decide)⟩

/-- From 2^31 units `sem_trywait` takes one and returns `EAGAIN`, and one unit is missing afterwards. -/
theorem trywait_takes_unit_and_fails :
    Run (fun _ _ => True) 0x80000000 (tried 0x80000000) ∧
      (tried 0x80000000).returned = [⟨false, .EAGAIN, 0, 1⟩] ∧ (∀ t, (tried 0x80000000).sys.pc t = .idle) ∧
      (tried 0x80000000).sys.count.toNat + (tried 0x80000000).successfulWaits ≠
        0x80000000 + (tried 0x80000000).completedPosts :=
  ⟨run_tried _ trivial trivial trivial trivial, by decide, by decide, by decide⟩

end Bionic.Semaphore
