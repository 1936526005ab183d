import Bionic.MutexRecursive

/-! # No wake-up call is lost

A thread that waits for a mutex sleeps on a word in state 2.  The word leaves that
state only when its owner frees the mutex, and then the owner has a `__futex_wake`
ahead; the thread it wakes puts the state back to 2, whether it gets the mutex or
not.  `Watched` is the invariant for recursive and errorcheck mutexes, where the
retry itself runs under `__recursive_lock`; for NORMAL mutexes and for
`__recursive_lock` it is part of `FutexLock.Inv`. -/

namespace Bionic.Mutex

variable {T : Type*} [DecidableEq T]
variable {ids : KernelIds T} {client : Client T} {s s' : Sys T} {t : T} {ty : MutexType}

/-! ### Who sees to the sleepers -/

/-- The thread has a `__futex_wake` on `mutex->value` ahead. -/
def Pc.wakesValue : Pc → Prop
  | .normalUnlock .wake => True
  | .leave (.release _) oldv _ => oldv &&& 3 = 2
  | .wake => True
  | _ => False

/-- The round of the loop is not the first: `new_lock_type` is 2. -/
def Job.again : Job → Prop
  | .acquire _ newLockType => newLockType = 2
  | _ => False

/-- The thread is in `pthread_mutex_lock`, not asleep on `mutex->value`, and goes
through its loop once more before it sleeps or returns; whatever it finds, it leaves
the mutex marked as contended. -/
def Pc.retries : Pc → Prop
  | .normalLock .swap => True
  | .enter job _ => job.again
  | .read job => job.again
  | .write job _ _ => job.again
  | _ => False

/-- Every sleeper is seen to, by the state of the word or by a thread. -/
def Watched (s : Sys T) : Prop :=
  ∀ u, (s.pc u).sleepsOn = some .value →
    (fields s.mem.value).state = 2 ∨ ∃ t, (s.pc t).wakesValue ∨ (s.pc t).retries

theorem sleepsOn_value {tid v : Word} {pc : Pc} (hp : PcOk ty tid v pc)
    (h : pc.sleepsOn = some .value) : ∃ mtype, pc = .asleep mtype := by
  cases pc with
  | normalLock p => exact hp.elim
  | enter job p => cases p <;> simp [Pc.sleepsOn] at h
  | asleep mtype => exact ⟨mtype, rfl⟩
  | _ => simp [Pc.sleepsOn] at h

theorem afterJob_wakesValue {oldv : Word} {job : Job} {p : UnlockPhase}
    (h : (Pc.leave job oldv p).wakesValue) : (afterJob oldv job).wakesValue := by
  cases job with
  | release mtype =>
      have h2 : oldv &&& 3 = 2 := h
      simp only [afterJob, if_pos h2]
      trivial
  | _ => exact h.elim

/-- A thread that sees to the sleepers does so until the word is in state 2. -/
theorem Run.responsible {tid : Word} {m m' : Mem} {th th' : Thread} (h : Run tid m th m' th')
    (ok : WordOk ty m.value) (hp : PcOk ty tid m.value th.pc)
    (hr : th.pc.wakesValue ∨ th.pc.retries) :
    (fields m'.value).state = 2 ∨ th'.pc.wakesValue ∨ th'.pc.retries := by
  cases h with
  | enterMore job p p' w pc h => rw [pc] at hr; exact .inr hr
  | enterDone job p w pc h => rw [pc] at hr; exact .inr hr
  | readStore job newv oldv pc h => rw [pc] at hr; exact .inr hr
  | readSkip job oldv pc h =>
      rw [pc] at hr hp
      cases (held_of_skip hp.1 ok h).2 with
      | inl contended => exact .inl contended.choose_spec.2
      | inr busy => rw [busy.1] at hr; simp [Pc.wakesValue, Pc.retries, Job.again] at hr
  | write job newv oldv pc =>
      rw [pc] at hr hp
      cases hp.2 with
      | relock trying _ own f => simp [Pc.wakesValue, Pc.retries, Job.again] at hr
      | take _ k _ hv hk hj f =>
          cases hj with
          | inl hj =>
              rw [hj] at hr
              have hk2 : k = 2 := by simpa [Pc.wakesValue, Pc.retries, Job.again] using hr
              exact .inl (by rw [f, hk2]; rfl)
          | inr hj => rw [hj.1] at hr; simp [Pc.wakesValue, Pc.retries, Job.again] at hr
      | promote k _ h1 f => exact .inl (by rw [f])
      | lower _ own hc f => simp [Pc.wakesValue, Pc.retries, Job.again] at hr
      | free own hc => simp [Pc.wakesValue, Pc.retries, Job.again] at hr
  | leaveMore job oldv p p' w pc h =>
      rw [pc] at hr
      cases job with
      | release mtype => exact .inr hr
      | _ => simp [Pc.wakesValue, Pc.retries] at hr
  | leaveDone job oldv p w pc h =>
      rw [pc] at hr
      cases hr with
      | inl hr => exact .inr (.inl (afterJob_wakesValue hr))
      | inr hr => exact hr.elim
  | typeOf op pc => rw [pc] at hr; simp [Pc.wakesValue, Pc.retries] at hr
  | owner op mtype pc => rw [pc] at hr; simp [Pc.wakesValue, Pc.retries] at hr
  | waitSleep mtype oldv pc h => rw [pc] at hr; simp [Pc.wakesValue, Pc.retries] at hr
  | waitAgain mtype oldv pc h => rw [pc] at hr; simp [Pc.wakesValue, Pc.retries] at hr
  | done op ret pc => rw [pc] at hr; simp [Pc.wakesValue, Pc.retries] at hr
  | lockMore p p' w pc h => rw [pc] at hp; exact hp.elim
  | lockDone p w pc h => rw [pc] at hp; exact hp.elim
  | tryDone pc h => rw [pc] at hp; exact hp.elim
  | tryBusy pc h => rw [pc] at hp; exact hp.elim
  | unlockDone p w pc h => rw [pc] at hp; exact hp.elim
  | unlockMore p w pc h => rw [pc] at hp; exact hp.elim
  | unlockStored p w pc h => rw [pc] at hp; exact hp.elim

/-- A word in state 2 leaves it only by the store that frees the mutex, and then its
owner has a wake-up call ahead. -/
theorem Run.contended {tid : Word} {m m' : Mem} {th th' : Thread} (h : Run tid m th m' th')
    (hp : PcOk ty tid m.value th.pc) (h2 : (fields m.value).state = 2) :
    (fields m'.value).state = 2 ∨ th'.pc.wakesValue ∨ th'.pc.retries := by
  cases h.value_cases hp with
  | inl same => rw [same.1]; exact .inl h2
  | inr store =>
      obtain ⟨job, newv, oldv, pc, stored, e, rfl⟩ := store
      rw [e, wrote_pc]
      cases stored with
      | relock trying _ own f => exact .inl (by rw [f]; exact h2)
      | take _ k _ hv hk hj f => rw [hv, fields_init] at h2; simp at h2
      | promote k _ h1 f => exact .inl (by rw [f])
      | lower _ own hc f => exact .inl (by rw [f]; exact h2)
      | free own hc => exact .inr (.inl ((state_eq_iff _ 2 (by decide)).mpr h2))

/-- A thread falls asleep only on a word in state 2. -/
theorem Run.sleeps {tid : Word} {m m' : Mem} {th th' : Thread} (h : Run tid m th m' th')
    (hp : PcOk ty tid m.value th.pc) (hs : th'.pc.sleepsOn = some .value) :
    (fields m'.value).state = 2 := by
  cases h with
  | waitSleep mtype oldv pc h => rw [pc] at hp; rw [h]; exact hp.2
  | typeOf op pc =>
      cases op <;> simp only [goto_pc, afterType] at hs <;> split at hs <;> simp [Pc.sleepsOn] at hs
  | owner op mtype pc =>
      cases op <;> simp only [goto_pc, afterOwner] at hs <;> repeat (split at hs)
      all_goals simp [Pc.sleepsOn] at hs
  | enterMore job p p' w pc h => cases p' <;> simp [Pc.sleepsOn] at hs
  | leaveDone job oldv p w pc h =>
      cases job <;> simp only [goto_pc, afterJob] at hs <;> (try split at hs) <;>
        simp [Pc.sleepsOn] at hs
  | write job newv oldv pc => rw [wrote_pc] at hs; simp [Pc.sleepsOn] at hs
  | done op ret pc => rw [returned_pc] at hs; simp [Pc.sleepsOn] at hs
  | lockMore p p' w pc h => rw [pc] at hp; exact hp.elim
  | _ => simp [Pc.sleepsOn] at hs

omit [DecidableEq T] in
theorem watched_start (ty : MutexType) : Watched (start T ty) := by
  intro u hu
  simp [start, Sys.pc, Pc.sleepsOn] at hu

/-- A step in which one thread goes on, other than the return of a wake-up call on
`mutex->value`. -/
theorem Watched.set (hw : Watched s) {m : Mem} {th : Thread}
    (responsible : (s.pc t).wakesValue ∨ (s.pc t).retries →
      (fields m.value).state = 2 ∨ th.pc.wakesValue ∨ th.pc.retries)
    (contended : (fields s.mem.value).state = 2 →
      (fields m.value).state = 2 ∨ th.pc.wakesValue ∨ th.pc.retries)
    (sleeper : th.pc.sleepsOn = some .value → (fields m.value).state = 2) :
    Watched (s.set m t th) := by
  refine FutexLock.watched_move (fun u => (s.pc u).sleepsOn = some .value) _
    (fun u => (s.pc u).wakesValue ∨ (s.pc u).retries) _ t ?_ ?_ ?_ ?_ hw
  · intro u hut
    rw [set_pc_of_ne s m th hut]
    exact ⟨id, id⟩
  · rw [set_pc_self]; exact responsible
  · rw [set_pc_self]; exact contended
  · rw [set_pc_self]
    exact fun h => .inl (sleeper h)

/-- A step that leaves the word alone. -/
theorem Watched.goto (hw : Watched s) (pc : Pc)
    (responsible : (s.pc t).wakesValue ∨ (s.pc t).retries → pc.wakesValue ∨ pc.retries)
    (awake : pc.sleepsOn = none) : Watched (s.set s.mem t ((s.thr t).goto pc)) := by
  apply hw.set (fun h => .inr (responsible h)) .inl
  intro h
  rw [goto_pc, awake] at h
  contradiction

theorem woken_awake {pc : Pc} {a : Addr} (h : pc.sleepsOn = some a) : pc.woken.sleepsOn = none := by
  cases pc with
  | normalLock p => cases p <;> rfl
  | enter job p => cases p <;> rfl
  | asleep mtype => rfl
  | _ => simp [Pc.sleepsOn] at h

theorem afterJob_awake (oldv : Word) (job : Job) : (afterJob oldv job).sleepsOn = none := by
  cases job <;> unfold afterJob <;> dsimp only <;> (try split) <;> rfl

theorem woken_responsible {pc : Pc} {a : Addr} (h : pc.sleepsOn = some a)
    (hr : pc.wakesValue ∨ pc.retries) : pc.woken.wakesValue ∨ pc.woken.retries := by
  cases pc with
  | normalLock p => cases p <;> simp [Pc.sleepsOn, Pc.woken, Pc.retries] at h ⊢
  | enter job p =>
      cases p with
      | asleep => exact hr
      | _ => simp [Pc.sleepsOn] at h
  | asleep mtype => exact .inr rfl
  | _ => simp [Pc.sleepsOn] at h

theorem afterWake_awake {pc : Pc} {a : Addr} (h : pc.wakes = some a) :
    pc.afterWake.sleepsOn = none := by
  cases pc with
  | normalUnlock p => cases p <;> rfl
  | wake => rfl
  | leave job oldv p =>
      cases p with
      | wake => exact afterJob_awake oldv job
      | _ => rfl
  | _ => simp [Pc.wakes] at h

theorem afterWake_responsible {pc : Pc} (h : pc.wakes = some .recursiveLock)
    (hr : pc.wakesValue ∨ pc.retries) : pc.afterWake.wakesValue ∨ pc.afterWake.retries := by
  obtain ⟨job, oldv, rfl⟩ := wakes_recursive h
  cases hr with
  | inl hr => exact .inl (afterJob_wakesValue hr)
  | inr hr => exact hr.elim

theorem Watched.step (hi : RecursiveInv ids ty s) (hw : Watched s)
    (h : Step ids client s t s') : Watched s' := by
  cases h with
  | call op idle allowed =>
      apply hw.goto _ _ rfl
      intro hr
      rw [idle] at hr
      simp [Pc.wakesValue, Pc.retries] at hr
  | exec m th h =>
      have run := run_of_exec h
      exact hw.set (run.responsible hi.word (hi.pcs t)) (run.contended (hi.pcs t))
        (run.sleeps (hi.pcs t))
  | spurious a h => exact hw.goto _ (woken_responsible h) (woken_awake h)
  | wakeNone a ht none =>
      cases a with
      | value =>
          intro u hu
          by_cases hut : u = t
          · subst hut
            rw [set_pc_self, goto_pc, afterWake_awake ht] at hu
            contradiction
          · rw [set_pc_of_ne _ _ _ hut] at hu
            exact absurd hu (none u)
      | recursiveLock => exact hw.goto _ (afterWake_responsible ht) (afterWake_awake ht)
  | wakeOne a u ht hu =>
      have hut := ne_of_wakes ht hu
      cases a with
      | value =>
          intro v _
          obtain ⟨mtype, pc⟩ := sleepsOn_value (hi.pcs u) hu
          refine .inr ⟨u, .inr ?_⟩
          rw [set_pc_self, goto_pc, pc]
          exact rfl
      | recursiveLock =>
          have first := hw.goto _ (afterWake_responsible ht) (afterWake_awake ht)
          have second := first.goto (t := u) (s.pc u).woken
            (by rw [set_pc_of_ne _ _ _ hut]; exact woken_responsible hu) (woken_awake hu)
          rw [set_mem, set_thr_of_ne _ _ _ hut] at second
          exact second

theorem Watched.reach {ok : Sys T → Prop} (hty : ty ≠ .normal)
    (h : Reach ids client ok ty s) : Watched s := by
  induction h with
  | start => exact watched_start ty
  | step reach step _ ih => exact ih.step (RecursiveInv.reach hty reach) step

/-! ### The two words -/

/-- Somebody sleeps on the free mutex, no `__futex_wake` on it is ahead and nobody is
about to try again. -/
def Lost (ty : MutexType) (s : Sys T) : Prop :=
  s.mem.value = pthreadMutexInit ty ∧ (∃ u, (s.pc u).sleepsOn = some .value) ∧
    (∀ t, ¬ (s.pc t).wakesValue) ∧ ∀ t, ¬ (s.pc t).retries

/-- The same for `__recursive_lock`, on which a thread that tries again may sleep. -/
def LostRecursive (s : Sys T) : Prop :=
  s.mem.recursiveLock = 0 ∧ (∃ u, (s.pc u).sleepsOn = some .recursiveLock) ∧
    (∀ t, (s.pc t).wakes ≠ some .recursiveLock) ∧ ∀ t job, s.pc t ≠ .enter job .swap

omit [DecidableEq T] in
theorem recursive_not_lost (hi : FutexLock.Inv (recursiveView s)) : ¬ LostRecursive s := by
  intro h
  obtain ⟨free, ⟨u, hu⟩, wakes, swaps⟩ := h
  obtain ⟨t, ht⟩ := hi.not_lost free (u := u) ((sleepsOn_recursive_iff _).mp hu)
  have hw := wakes t
  have hs := swaps t
  have ht : (s.pc t).recursivePhase = .swap ∨ (s.pc t).recursivePhase = .wake := ht
  cases hp : s.pc t with
  | enter job p =>
      cases p with
      | swap => exact hs job hp
      | _ => simp [hp, Pc.recursivePhase, LockPhase.phase] at ht
  | leave job oldv p =>
      cases p with
      | wake => rw [hp] at hw; exact hw rfl
      | _ => simp [hp, Pc.recursivePhase, UnlockPhase.phase] at ht
  | _ => simp [hp, Pc.recursivePhase] at ht

/-- Along every run of a mutex of any type that only its holders unlock: no free mutex
has a sleeper that nobody sees to, and neither has `__recursive_lock`. -/
theorem no_lost_wakeup (h : Reach ids holderUnlocks (fun _ => True) ty s) :
    ¬ Lost ty s ∧ ¬ LostRecursive s := by
  by_cases hty : ty = .normal
  · subst hty
    have hi := NormalInv.reach h
    refine ⟨?_, recursive_not_lost (recursive_inv_reach h)⟩
    intro lost
    obtain ⟨free, ⟨u, hu⟩, wakes, retries⟩ := lost
    obtain ⟨t, ht⟩ := hi.not_lost free (normal_sleepsOn (hi.plain u) hu).2
    cases ht with
    | inl swap => exact retries t (by rw [swap]; trivial)
    | inr wake => exact wakes t (by rw [wake]; trivial)
  · have hi := RecursiveInv.reach hty h
    refine ⟨?_, recursive_not_lost hi.lock⟩
    intro lost
    obtain ⟨free, ⟨u, hu⟩, wakes, retries⟩ := lost
    cases Watched.reach hty h u hu with
    | inl h2 => rw [free, fields_init] at h2; simp at h2
    | inr seen =>
        obtain ⟨t, ht⟩ := seen
        exact ht.elim (wakes t) (retries t)

/-- Thread 1 sleeps on a recursive mutex that thread 0 has just freed: it has the
wake-up call ahead. -/
def recursiveFreed : Sys (Fin 2) :=
  let held := schedule twoThreads ((start (Fin 2) .recursive).call 0 .lock) [0, 0, 0, 0, 0, 0, 0]
  let contended := schedule twoThreads (held.call 1 .lock) [1, 1, 1, 1, 1, 1, 1]
  schedule twoThreads (contended.call 0 .unlock) [0, 0, 0, 0, 0]

theorem no_lost_wakeup_freed :
    (recursiveFreed.mem.value = pthreadMutexInit .recursive ∧
      (recursiveFreed.pc 1).sleepsOn = some .value) ∧ ¬ Lost .recursive recursiveFreed := by
  have reach : Reach twoThreads holderUnlocks (fun _ => True) .recursive recursiveFreed := by
    refine Reach.schedule ?_ _ fun _ _ => trivial
    apply Reach.step (t := 0) _ (.call .unlock (by decide) (fun _ => by decide)) trivial
    refine Reach.schedule ?_ _ fun _ _ => trivial
    apply Reach.step (t := 1) _ (.call .lock (by decide) (by simp [holderUnlocks])) trivial
    refine Reach.schedule ?_ _ fun _ _ => trivial
    exact Reach.start.step (.call .lock (by decide) (by simp [holderUnlocks])) trivial
  exact ⟨⟨by decide, by decide⟩, (no_lost_wakeup reach).1⟩

end Bionic.Mutex
