import Mathlib.Data.Fintype.Card
import Bionic.Cond
import Bionic.MutexCalls

/-! # Runs of a condition variable

What every run keeps (`Inv`): the mutex is in a state of one of its own runs, each thread holds it where its
place in the functions says so, and a waiter that has read the value can tell from it how many signals
there were since, up to 2^32. -/

namespace Bionic.Cond

open Mutex (Word KernelIds MutexType Locking Unlocking Thread holderUnlocks)
open Semaphore (Timespec timeLeft)
open scoped Mutex

variable {T : Type*} [DecidableEq T]
variable {arch : Arch} {ids : KernelIds T} {ty : MutexType} {value : Word} {t : T}

/-! ### A thread and the mutex -/

/-- What a place in the functions says about the thread in the functions of the mutex.  After a wait,
`pthread_mutex_lock` has returned 0 once more. -/
def ThreadOk (ty : MutexType) (th : Thread) : Pc → Prop
  | .idle => True
  | .dec _ => th.pc = .idle
  | .wake _ => th.pc = .idle
  | .clock _ => th.pc = .idle ∧ 0 < th.depth
  | .read _ => th.pc = .idle ∧ 0 < th.depth
  | .unlock _ _ => th.pc = .idle ∧ 0 < th.depth
  | .unlocking _ _ => ty = .errorcheck → Unlocking th ∨ (th.pc = .idle ∧ th.depth = 0)
  | .wait _ _ => th.pc = .idle ∧ (ty = .errorcheck → th.depth = 0)
  | .asleep _ => th.pc = .idle ∧ (ty = .errorcheck → th.depth = 0)
  | .lock _ => th.pc = .idle ∧ (ty = .errorcheck → th.depth = 0)
  | .locking w =>
      Locking w.locks (ty = .errorcheck) th ∨ (th.pc = .idle ∧ th.locks = w.locks + 1 ∧ 0 < th.depth)
  | .done (some w) _ => th.pc = .idle ∧ th.locks = w.locks + 1 ∧ 0 < th.depth
  | .done none _ => th.pc = .idle ∧ 0 < th.depth

/-- The thread is in one of the functions, and not inside a call of the mutex. -/
def Pc.between : Pc → Bool
  | .idle => false
  | .unlocking _ _ => false
  | .locking _ => false
  | _ => true

theorem ThreadOk.out {th : Thread} {pc : Pc} (h : ThreadOk ty th pc) (hb : pc.between = true) :
    th.pc = .idle := by
  cases pc with
  | idle => exact absurd hb Bool.false_ne_true
  | unlocking oldvalue tsp => exact absurd hb Bool.false_ne_true
  | locking w => exact absurd hb Bool.false_ne_true
  | dec all => exact h
  | wake all => exact h
  | done w ret =>
      cases w with
      | none => exact h.1
      | some w => exact h.1
  | _ => exact h.1

/-- The calls of the mutex functions outside the functions of the condition variable. -/
def outside (pc : T → Pc) : Mutex.Client T := fun m t op => pc t = .idle ∧ holderUnlocks m t op

section

variable {pc : T → Pc} {m m' : Mutex.Sys T}

theorem ThreadOk.unlocking (range : ∀ t, (ids.tid t).toNat ≤ 32768)
    (reach : Mutex.Reach ids holderUnlocks (fun _ => True) .errorcheck m)
    (step : Mutex.ThreadStep ids (outside pc) m m' t) (busy : pc t ≠ .idle)
    (h : Unlocking (m.thr t) ∨ ((m.thr t).pc = .idle ∧ (m.thr t).depth = 0)) :
    Unlocking (m'.thr t) ∨ ((m'.thr t).pc = .idle ∧ (m'.thr t).depth = 0) := by
  have inv := Mutex.ErrorcheckInv.reach range reach
  cases h with
  | inr out =>
      rw [step.of_idle out.1 fun op allowed => busy allowed.1]
      exact .inr out
  | inl hu =>
      cases step with
      | same e => rw [e]; exact .inl hu
      | call op allowed e => exact absurd allowed.1 busy
      | run run => exact run.unlocking inv.word (inv.holder_iff t).1 hu
      | woken a ha e => rw [e]; exact .inl (hu.woken ha)
      | woke a ha e => rw [e]; exact .inl (hu.afterWake ha)

theorem ThreadOk.locking {w : Wait} (range : ∀ t, (ids.tid t).toNat ≤ 32768)
    (reach : Mutex.Reach ids holderUnlocks (fun _ => True) ty m)
    (step : Mutex.ThreadStep ids (outside pc) m m' t) (busy : pc t ≠ .idle)
    (h : ThreadOk ty (m.thr t) (.locking w)) : ThreadOk ty (m'.thr t) (.locking w) := by
  cases h with
  | inr out =>
      rw [step.of_idle out.1 fun op allowed => busy allowed.1]
      exact .inr out
  | inl hl =>
      cases step with
      | same e => rw [e]; exact .inl hl
      | call op allowed e => exact absurd allowed.1 busy
      | run run => exact run.locking hl (Mutex.not_deadlock range reach hl)
      | woken a ha e => rw [e]; exact .inl (hl.woken ha)
      | woke a ha e => rw [e]; exact .inl (hl.afterWake ha)

/-- A step of the mutex keeps what the places say. -/
theorem ThreadOk.step (range : ∀ t, (ids.tid t).toNat ≤ 32768)
    (reach : Mutex.Reach ids holderUnlocks (fun _ => True) ty m)
    (step : Mutex.ThreadStep ids (outside pc) m m' t) (h : ThreadOk ty (m.thr t) (pc t)) :
    ThreadOk ty (m'.thr t) (pc t) := by
  cases hp : pc t with
  | idle => trivial
  | unlocking oldvalue tsp =>
      rw [hp] at h
      intro hty
      subst hty
      exact ThreadOk.unlocking range reach step (by rw [hp]; simp) (h rfl)
  | locking w =>
      rw [hp] at h
      exact ThreadOk.locking range reach step (by rw [hp]; simp) h
  | _ =>
      have busy : pc t ≠ .idle := by rw [hp]; simp
      have out : (m.thr t).pc = .idle := h.out (by rw [hp]; rfl)
      rw [step.of_idle out fun op allowed => busy allowed.1, ← hp]
      exact h

end

/-! ### The invariant -/

/-- What a place says about the value and the result. -/
def PcOk (arch : Arch) (value : Word) (updates : ℕ) : Pc → Prop
  | .unlock oldvalue _ => value = oldvalue - BitVec.ofNat 32 updates
  | .unlocking oldvalue _ => value = oldvalue - BitVec.ofNat 32 updates
  | .wait oldvalue _ => value = oldvalue - BitVec.ofNat 32 updates
  | .done (some w) ret => ret = statusRet (futexWait arch w.answer).1
  | _ => True

theorem dec_eq {v oldvalue : Word} {n : ℕ} (h : v = oldvalue - BitVec.ofNat 32 n) :
    v - 1 = oldvalue - BitVec.ofNat 32 (n + 1) := by
  rw [h, BitVec.ofNat_add, BitVec.sub_sub]
  rfl

/-- A signal updates the value. -/
theorem PcOk.dec {pc : Pc} {v : Word} {n : ℕ} (h : PcOk arch v n pc) :
    PcOk arch (v - 1) (n + 1) pc := by
  cases pc with
  | unlock oldvalue tsp => exact dec_eq h
  | unlocking oldvalue tsp => exact dec_eq h
  | wait oldvalue tsp => exact dec_eq h
  | done w ret =>
      cases w with
      | none => trivial
      | some w => exact h
  | _ => trivial

structure Inv (arch : Arch) (ids : KernelIds T) (ty : MutexType) (s : Sys T) : Prop where
  mutex : Mutex.Reach ids holderUnlocks (fun _ => True) ty s.mutex
  threads : ∀ t, ThreadOk ty (s.mutex.thr t) (s.pc t)
  places : ∀ t, PcOk arch s.value (s.updates t) (s.pc t)

variable {s s' : Sys T}

@[simp] theorem goto_pc_self (s : Sys T) (t : T) (pc : Pc) : (s.goto t pc).pc t = pc := by
  simp [Sys.goto]

theorem goto_pc_of_ne (s : Sys T) {t u : T} (pc : Pc) (h : u ≠ t) : (s.goto t pc).pc u = s.pc u := by
  simp [Sys.goto, Function.update_of_ne h]

/-- A property of all threads and their places, after one thread has moved. -/
theorem forall_goto {P : T → Pc → Prop} {pc : Pc} (ht : P t pc) (hne : ∀ u, u ≠ t → P u (s.pc u)) :
    ∀ u, P u ((s.goto t pc).pc u) := by
  intro u
  by_cases hu : u = t
  · subst hu; rw [goto_pc_self]; exact ht
  · rw [goto_pc_of_ne s pc hu]; exact hne u hu

theorem Inv.goto {pc : Pc} (hi : Inv arch ids ty s) (hth : ThreadOk ty (s.mutex.thr t) pc)
    (hpc : PcOk arch s.value (s.updates t) pc) : Inv arch ids ty (s.goto t pc) where
  mutex := hi.mutex
  threads := forall_goto hth fun u _ => hi.threads u
  places := forall_goto hpc fun u _ => hi.places u

/-- A call of one of the functions of the mutex. -/
theorem Inv.call {pc : Pc} {op : Mutex.Op} (hi : Inv arch ids ty s) (out : s.mutex.pc t = .idle)
    (allowed : holderUnlocks s.mutex t op)
    (hth : ThreadOk ty ((s.mutex.thr t).goto (.typeOf op)) pc)
    (hpc : PcOk arch s.value (s.updates t) pc) :
    Inv arch ids ty { s.goto t pc with mutex := s.mutex.call t op } where
  mutex := hi.mutex.step (.call op out allowed) trivial
  threads := by
    refine @forall_goto _ _ t s (fun u => ThreadOk ty ((s.mutex.call t op).thr u)) pc ?_ fun u hu => ?_
    · unfold Mutex.Sys.call
      rw [Mutex.set_thr_self]
      exact hth
    · unfold Mutex.Sys.call
      rw [Mutex.set_thr_of_ne _ _ _ hu]
      exact hi.threads u
  places := forall_goto hpc fun u _ => hi.places u

theorem threadOk_entry {th : Thread} {op : Op} (out : th.pc = .idle)
    (held : op.waits = true → 0 < th.depth) : ThreadOk ty th op.entry := by
  cases op with
  | signal => exact out
  | broadcast => exact out
  | timedwait abstime =>
      cases abstime with
      | none => exact ⟨out, held rfl⟩
      | some abstime => exact ⟨out, held rfl⟩
  | timedwaitRelative reltime => exact ⟨out, held rfl⟩
  | timeoutNp msecs => exact ⟨out, held rfl⟩

theorem pcOk_entry (v : Word) (n : ℕ) (op : Op) : PcOk arch v n op.entry := by
  cases op with
  | timedwait abstime => cases abstime <;> trivial
  | _ => trivial

theorem enterWait_cases (v oldvalue : Word) (tsp : Option Timespec) :
    (enterWait v oldvalue tsp = .asleep tsp ∧ v = oldvalue) ∨
      (∃ answer, enterWait v oldvalue tsp = .lock answer) := by
  unfold enterWait
  split
  · exact .inr ⟨_, rfl⟩
  · split
    next h => exact .inl ⟨rfl, h⟩
    next => exact .inr ⟨_, rfl⟩

/-- `__atomic_dec(&cond->value)`. -/
theorem Inv.dec {all : Bool} (hi : Inv arch ids ty s) (hp : s.pc t = .dec all) :
    Inv arch ids ty
      { s.goto t (.wake all) with value := s.value - 1, updates := fun u => s.updates u + 1 } := by
  have ht := hi.threads t
  rw [hp] at ht
  have moved := @Inv.goto _ _ arch ids ty t s (.wake all) hi ht trivial
  exact ⟨moved.mutex, moved.threads, fun u => (moved.places u).dec⟩

/-- `oldvalue = cond->value`. -/
theorem Inv.read {tsp : Option Timespec} (hi : Inv arch ids ty s) (hp : s.pc t = .read tsp) :
    Inv arch ids ty
      { s.goto t (.unlock s.value tsp) with updates := Function.update s.updates t 0 } where
  mutex := hi.mutex
  threads := by
    have ht := hi.threads t
    rw [hp] at ht
    exact @forall_goto _ _ t s (fun u => ThreadOk ty (s.mutex.thr u)) _ ht fun u _ => hi.threads u
  places := by
    refine @forall_goto _ _ t s (fun u => PcOk arch s.value (Function.update s.updates t 0 u)) _ ?_
      fun u hu => ?_
    · rw [Function.update_self]
      simp [PcOk]
    · rw [Function.update_of_ne hu]
      exact hi.places u

theorem Inv.exec (range : ∀ t, (ids.tid t).toNat ≤ 32768) (hi : Inv arch ids ty s)
    (h : exec arch s t = some s') : Inv arch ids ty s' := by
  have ht := hi.threads t
  have hv := hi.places t
  unfold Cond.exec at h
  cases hp : s.pc t with
  | idle => simp [hp] at h
  | wake all => simp [hp] at h
  | clock abstime => simp [hp] at h
  | asleep tsp => simp [hp] at h
  | dec all =>
      simp only [hp, Option.some.injEq] at h
      rw [← h]
      exact hi.dec hp
  | read tsp =>
      simp only [hp, Option.some.injEq] at h
      rw [← h]
      exact hi.read hp
  | unlock oldvalue tsp =>
      simp only [hp, Option.some.injEq] at h
      rw [hp] at ht hv
      rw [← h]
      refine hi.call ht.1 (fun _ => ht.2) ?_ hv
      intro hty
      subst hty
      have once := (Mutex.ErrorcheckInv.reach range hi.mutex).once t
      exact .inl (.before rfl (Nat.le_antisymm once ht.2))
  | unlocking oldvalue tsp =>
      simp only [hp] at h
      split at h
      next out =>
        simp only [Option.some.injEq] at h
        rw [hp] at ht hv
        rw [← h]
        refine hi.goto ⟨out, fun hty => ?_⟩ hv
        cases ht hty with
        | inl hu => exact absurd out hu.not_idle
        | inr free => exact free.2
      next => simp at h
  | wait oldvalue tsp =>
      simp only [hp, Option.some.injEq] at h
      rw [hp] at ht
      rw [← h]
      cases enterWait_cases s.value oldvalue tsp with
      | inl sleep => rw [sleep.1]; exact hi.goto ht trivial
      | inr fails =>
          obtain ⟨answer, e⟩ := fails
          rw [e]
          exact hi.goto ht trivial
  | lock answer =>
      simp only [hp, Option.some.injEq] at h
      rw [hp] at ht
      rw [← h]
      refine hi.call ht.1 (fun e => by cases e) (.inl ⟨rfl, rfl, ?_, ?_⟩) trivial
      · intro h1; simp [Mutex.Thread.goto, Mutex.Pc.owed] at h1
      · intro hty _; exact ht.2 hty
  | locking w =>
      simp only [hp] at h
      split at h
      next out =>
        simp only [Option.some.injEq] at h
        rw [hp] at ht
        rw [← h]
        refine hi.goto ?_ rfl
        cases ht with
        | inl hl => exact absurd out hl.not_idle
        | inr held => exact held
      next => simp at h
  | done w ret =>
      simp only [hp, Option.some.injEq] at h
      rw [← h]
      exact hi.goto trivial trivial

/-- A step of a thread in the functions of the mutex. -/
theorem Inv.mutexStep {m : Mutex.Sys T} (range : ∀ t, (ids.tid t).toNat ≤ 32768)
    (hi : Inv arch ids ty s) (h : Mutex.Step ids (client (s.pc t)) s.mutex t m) :
    Inv arch ids ty { s with mutex := m } where
  mutex := hi.mutex.step (h.mono fun _ allowed => allowed.2) trivial
  threads := by
    intro u
    have step : Mutex.Step ids (outside s.pc) s.mutex t m := h.mono fun _ allowed => allowed
    exact ThreadOk.step range hi.mutex (step.thread u) (hi.threads u)
  places := hi.places

variable [Fintype T]

omit [DecidableEq T] in
theorem mem_sleepers {u : T} : u ∈ s.sleepers ↔ (s.pc u).sleeps = true := by
  simp [Sys.sleepers]

theorem asleep_of_sleeps {pc : Pc} (h : pc.sleeps = true) : ∃ tsp, pc = .asleep tsp := by
  cases pc with
  | asleep tsp => exact ⟨tsp, rfl⟩
  | _ => exact absurd h Bool.false_ne_true

/-- `__futex_wake`. -/
theorem Inv.wake {woken : Finset T} (hi : Inv arch ids ty s) (sub : woken ⊆ s.sleepers) :
    Inv arch ids ty
      { s with pc := fun u => if u = t then .idle else if u ∈ woken then .lock .woken else s.pc u } where
  mutex := hi.mutex
  threads := by
    intro u
    dsimp only
    split
    next => trivial
    next =>
      split
      next hu =>
        obtain ⟨tsp, e⟩ := asleep_of_sleeps (mem_sleepers.1 (sub hu))
        have ht := hi.threads u
        rw [e] at ht
        exact ht
      next => exact hi.threads u
  places := by
    intro u
    dsimp only
    split
    next => trivial
    next =>
      split
      next => trivial
      next => exact hi.places u

theorem Inv.step (range : ∀ t, (ids.tid t).toNat ≤ 32768) (hi : Inv arch ids ty s)
    (h : Step arch ids s t s') : Inv arch ids ty s' := by
  have ht := hi.threads t
  cases h with
  | call op idle out held => exact hi.goto (threadOk_entry out held) (pcOk_entry _ _ op)
  | exec s' h => exact hi.exec range h
  | mutex m h => exact hi.mutexStep range h
  | clock abstime now h =>
      rw [h] at ht
      unfold afterClock
      split
      next => exact hi.goto ht trivial
      next => exact hi.goto ht trivial
  | wake all woken h sub card => exact hi.wake sub
  | ends tsp answer h he =>
      rw [h] at ht
      exact hi.goto ht trivial

theorem Inv.reach (range : ∀ t, (ids.tid t).toNat ≤ 32768) (h : Reach arch ids ty value s) :
    Inv arch ids ty s := by
  induction h with
  | start => exact ⟨.start, fun _ => trivial, fun _ => trivial⟩
  | step _ step ih => exact ih.step range step

/-! ### Schedules -/

/-- The thread makes one step, if it can move by itself. -/
def Sys.go (arch : Arch) (ids : KernelIds T) (s : Sys T) (t : T) : Sys T :=
  match exec arch s t with
  | some s' => s'
  | none =>
      match Mutex.exec (ids.tid t) s.mutex.mem (s.mutex.thr t) with
      | some (m, th) => { s with mutex := s.mutex.set m t th }
      | none => s

def Sys.schedule (arch : Arch) (ids : KernelIds T) (s : Sys T) (ts : List T) : Sys T :=
  ts.foldl (Sys.go arch ids) s

theorem Reach.go (h : Reach arch ids ty value s) (t : T) : Reach arch ids ty value (s.go arch ids t) := by
  unfold Sys.go
  split
  next s' e => exact h.step (.exec s' e)
  next =>
    split
    next m th e => exact h.step (.mutex _ (.exec m th e))
    next => exact h

theorem Reach.schedule (h : Reach arch ids ty value s) (ts : List T) :
    Reach arch ids ty value (s.schedule arch ids ts) := by
  induction ts generalizing s with
  | nil => exact h
  | cons t ts ih => exact ih (h.go t)

/-- The thread 0 has locked the mutex. -/
def locked (arch : Arch) : Sys (Fin 2) :=
  let s := start (Fin 2) .normal 0#32
  Sys.schedule arch Mutex.twoThreads { s with mutex := s.mutex.call 0 .lock } [0, 0, 0]

theorem reach_locked (arch : Arch) : Reach arch Mutex.twoThreads .normal 0#32 (locked arch) := by
  apply Reach.schedule
  exact Reach.start.step (.mutex _ (.call .lock rfl ⟨rfl, fun e => by cases e⟩))

/-- It calls `pthread_cond_timeout_np`, and runs up to the call of `__futex_wait`. -/
def waiting (arch : Arch) : Sys (Fin 2) :=
  ((locked arch).goto 0 (Op.timeoutNp 5).entry).schedule arch Mutex.twoThreads [0, 0, 0, 0, 0, 0]

theorem reach_waiting (arch : Arch) : Reach arch Mutex.twoThreads .normal 0#32 (waiting arch) := by
  apply Reach.schedule
  cases arch with
  | arm => exact (reach_locked .arm).step (.call _ (by decide) (by decide) (by decide))
  | ppc => exact (reach_locked .ppc).step (.call _ (by decide) (by decide) (by decide))

/-- It is asleep. -/
def sleeping (arch : Arch) : Sys (Fin 2) := (waiting arch).schedule arch Mutex.twoThreads [0]

theorem reach_sleeping (arch : Arch) : Reach arch Mutex.twoThreads .normal 0#32 (sleeping arch) :=
  (reach_waiting arch).schedule [0]

/-- The thread 1 calls `op` and updates the value. -/
def updating (arch : Arch) (s : Sys (Fin 2)) (op : Op) : Sys (Fin 2) :=
  (s.goto 1 op.entry).schedule arch Mutex.twoThreads [1]

/-! ### Waiters -/

omit [Fintype T] in
/-- A thread between two calls of the mutex does not move in its functions. -/
theorem Inv.not_mutexStep {m : Mutex.Sys T} (hi : Inv arch ids ty s) (hb : (s.pc t).between = true) :
    ¬ Mutex.Step ids (client (s.pc t)) s.mutex t m := by
  intro h
  have out := (hi.threads t).out hb
  have out' : s.mutex.pc t = .idle := out
  cases h with
  | call op idle allowed =>
      have idle : s.pc t = .idle := allowed.1
      rw [idle] at hb
      exact absurd hb Bool.false_ne_true
  | exec m th h => exact (Mutex.run_of_exec h).not_idle out
  | spurious a h => rw [out'] at h; cases h
  | wakeOne a u ht hu => rw [out'] at ht; cases ht
  | wakeNone a ht none => rw [out'] at ht; cases ht

omit [DecidableEq T] in
/-- The kernel ids bound the number of threads. -/
theorem card_sleepers_le (range : ∀ t, (ids.tid t).toNat ≤ 32768) (s : Sys T) :
    s.sleepers.card ≤ wakeCount true := by
  have h : s.sleepers.card ≤ (Finset.range 32769).card := by
    apply Finset.card_le_card_of_injOn (fun t => (ids.tid t).toNat)
    · intro t _
      simpa using Nat.lt_succ_of_le (range t)
    · intro t _ u _ e
      exact ids.injective (BitVec.eq_of_toNat_eq e)
  rw [Finset.card_range] at h
  exact h.trans (by decide)

omit [Fintype T] in
/-- Fewer than 2^32 signals do not lead back to the value that the waiter has read. -/
theorem Inv.value_ne {oldvalue : Word} {tsp : Option Timespec} (hi : Inv arch ids ty s)
    (hp : s.pc t = .wait oldvalue tsp) (pos : 0 < s.updates t) (lt : s.updates t < 2 ^ 32) :
    s.value ≠ oldvalue := by
  have hv := hi.places t
  rw [hp] at hv
  have e : s.value = oldvalue - BitVec.ofNat 32 (s.updates t) := hv
  intro same
  rw [same] at e
  have n := congrArg BitVec.toNat e
  rw [BitVec.toNat_sub, BitVec.toNat_ofNat, Nat.mod_eq_of_lt lt] at n
  omega

/-- The step of a thread that calls `__futex_wait`. -/
theorem Inv.step_wait {oldvalue : Word} {tsp : Option Timespec} (hi : Inv arch ids ty s)
    (hp : s.pc t = .wait oldvalue tsp) (h : Step arch ids s t s') :
    s'.pc t = enterWait s.value oldvalue tsp := by
  cases h with
  | call op idle out held => rw [hp] at idle; cases idle
  | exec s' h =>
      simp only [Cond.exec, hp, Option.some.injEq] at h
      rw [← h, goto_pc_self]
  | mutex m h => exact absurd h (hi.not_mutexStep (by rw [hp]; rfl))
  | clock abstime now h => rw [hp] at h; cases h
  | wake all woken h sub card => rw [hp] at h; cases h
  | ends tsp answer h he => rw [hp] at h; cases h

/-- The step of a broadcast that calls `__futex_wake`. -/
theorem Inv.step_wake {u : T} (range : ∀ t, (ids.tid t).toNat ≤ 32768) (hi : Inv arch ids ty s)
    (hp : s.pc u = .wake true) (h : Step arch ids s u s') (ht : (s.pc t).sleeps = true) :
    s'.pc t = .lock .woken := by
  cases h with
  | call op idle out held => rw [hp] at idle; cases idle
  | exec s' h => simp [Cond.exec, hp] at h
  | mutex m h => exact absurd h (hi.not_mutexStep (by rw [hp]; rfl))
  | clock abstime now h => rw [hp] at h; cases h
  | wake all woken h sub card =>
      rw [hp] at h
      cases h
      have whole : woken = s.sleepers := by
        apply Finset.eq_of_subset_of_card_le sub
        rw [card, Nat.min_eq_right (card_sleepers_le range s)]
      have htu : t ≠ u := by
        rintro rfl
        rw [hp] at ht
        exact absurd ht Bool.false_ne_true
      dsimp only
      rw [if_neg htu, if_pos (whole ▸ mem_sleepers.2 ht)]
  | ends tsp answer h he => rw [hp] at h; cases h

/-- For every interleaving of the functions: a waiter that has read the value, and finds on entering
`__futex_wait` that there were between 1 and 2^32 - 1 signals since, does not go to sleep; the wake-up call of a
broadcast wakes every waiter that is asleep; and a waiter that returns holds the mutex, because
`pthread_mutex_lock` returned 0 after the wait. -/
theorem cond_wait_signal (range : ∀ t, (ids.tid t).toNat ≤ 32768) (h : Reach arch ids ty value s) :
    (∀ t oldvalue tsp, s.pc t = .wait oldvalue tsp → 0 < s.updates t → s.updates t < 2 ^ 32 →
        ∀ s', Step arch ids s t s' → ∃ answer, s'.pc t = .lock answer) ∧
      (∀ u, s.pc u = .wake true → ∀ s', Step arch ids s u s' →
        ∀ t, (s.pc t).sleeps = true → s'.pc t = .lock .woken) ∧
      (∀ t w ret, s.pc t = .done (some w) ret →
        s.mutex.Holder t ∧ (s.mutex.thr t).locks = w.locks + 1) ∧
      (∀ t ret, s.pc t = .done none ret → s.mutex.Holder t) := by
  have inv := Inv.reach range h
  refine ⟨fun t oldvalue tsp hp pos lt s' step => ?_, fun u hp s' step t ht => ?_,
    fun t w ret hp => ?_, fun t ret hp => ?_⟩
  · have changed := inv.value_ne hp pos lt
    have e := inv.step_wait hp step
    cases enterWait_cases s.value oldvalue tsp with
    | inl sleep => exact absurd sleep.2 changed
    | inr fails =>
        obtain ⟨answer, fails⟩ := fails
        exact ⟨answer, by rw [e, fails]⟩
  · exact inv.step_wake range hp step ht
  · have ht := inv.threads t
    rw [hp] at ht
    exact ⟨ht.2.2, ht.2.1⟩
  · have ht := inv.threads t
    rw [hp] at ht
    exact ht.2

/-- A signal comes between the two looks at the value; a broadcast wakes a sleeper. -/
theorem cond_wait_signal_two_threads :
    ((updating .ppc (waiting .ppc) .signal).updates 0 = 1 ∧
        ∀ s', Step .ppc Mutex.twoThreads (updating .ppc (waiting .ppc) .signal) 0 s' →
          ∃ answer, s'.pc 0 = .lock answer) ∧
      ((sleeping .ppc).pc 0).sleeps = true ∧
        ∀ s', Step .ppc Mutex.twoThreads (updating .ppc (sleeping .ppc) .broadcast) 1 s' →
          s'.pc 0 = .lock .woken := by
  have range : ∀ t, (Mutex.twoThreads.tid t).toNat ≤ 32768 := by decide
  have signalled : Reach .ppc Mutex.twoThreads .normal 0#32 (updating .ppc (waiting .ppc) .signal) :=
    ((reach_waiting .ppc).step
      (.call (t := 1) .signal (by decide) (by decide) (by decide))).schedule _
  have broadcasting :
      Reach .ppc Mutex.twoThreads .normal 0#32 (updating .ppc (sleeping .ppc) .broadcast) :=
    ((reach_sleeping .ppc).step
      (.call (t := 1) .broadcast (by decide) (by decide) (by decide))).schedule _
  refine ⟨⟨by decide, ?_⟩, by decide, ?_⟩
  · exact (cond_wait_signal range signalled).1 0 0#32 (some ⟨0, 5000000⟩) (by decide)
      (by decide) (by decide)
  · intro s' step
    exact (cond_wait_signal range broadcasting).2.1 1 (by decide) s' step 0 (by decide)

/-! ### Time-outs -/

theorem statusRet_timeout : statusRet (futexWait arch .ETIMEDOUT).1 = .ETIMEDOUT ↔ arch = .arm := by
  cases arch <;> decide

/-- When the kernel has ended the wait with `-ETIMEDOUT`, the function returns `ETIMEDOUT` on ARM only. -/
theorem cond_timeout_reported {w : Wait} {ret : Ret} (range : ∀ t, (ids.tid t).toNat ≤ 32768)
    (h : Reach arch ids ty value s) (hp : s.pc t = .done (some w) ret) (he : w.answer = .ETIMEDOUT) :
    (ret = .ETIMEDOUT ∧ s.mutex.Holder t ∧ (s.mutex.thr t).locks = w.locks + 1) ↔ arch = .arm := by
  have inv := Inv.reach range h
  have ht := inv.threads t
  have hv := inv.places t
  rw [hp] at ht hv
  have e : ret = statusRet (futexWait arch w.answer).1 := hv
  rw [he] at e
  rw [e, statusRet_timeout]
  exact ⟨fun both => both.1, fun harm => ⟨harm, ht.2.2, ht.2.1⟩⟩

/-- The time is over, and the thread 0 locks the mutex again. -/
def timedOut (arch : Arch) : Sys (Fin 2) :=
  ((sleeping arch).goto 0 (.lock .ETIMEDOUT)).schedule arch Mutex.twoThreads [0, 0, 0, 0, 0]

theorem reach_timedOut (arch : Arch) : Reach arch Mutex.twoThreads .normal 0#32 (timedOut arch) := by
  apply Reach.schedule
  refine (reach_sleeping arch).step (.ends (some ⟨0, 5000000⟩) .ETIMEDOUT ?_ (.inr (.inr ⟨rfl, rfl⟩)))
  cases arch <;> decide

theorem cond_timeout_reported_arm :
    (timedOut .arm).pc 0 = .done (some ⟨.ETIMEDOUT, 1⟩) .ETIMEDOUT ∧
      (timedOut .arm).mutex.Holder 0 := by
  have hp : (timedOut .arm).pc 0 = .done (some ⟨.ETIMEDOUT, 1⟩) .ETIMEDOUT := by decide
  exact ⟨hp, ((cond_timeout_reported (by decide) (reach_timedOut .arm) hp rfl).2 rfl).2.1⟩

/-- On PowerPC the time-out of a `pthread_cond_timeout_np` is reported as a wake-up. -/
theorem cond_timeout_lost_on_ppc :
    ¬ ∀ (arch : Arch) (s : Sys (Fin 2)) (t : Fin 2) (w : Wait) (ret : Ret),
        Reach arch Mutex.twoThreads .normal 0#32 s → s.pc t = .done (some w) ret →
          w.answer = .ETIMEDOUT → ret = .ETIMEDOUT ∧ s.mutex.Holder t := by
  intro reported
  have hp : (timedOut .ppc).pc 0 = .done (some ⟨.ETIMEDOUT, 1⟩) .zero := by decide
  exact absurd (reported .ppc _ 0 _ _ (reach_timedOut .ppc) hp rfl).1 (by decide)

end Bionic.Cond
