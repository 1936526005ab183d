import Bionic.MutexHolder
import Bionic.MutexNormal

/-! # Calls of the mutex functions by other functions

A function that unlocks a mutex and later locks it again relies on the two calls as a whole.  `Locking` and
`Unlocking` follow a thread through such a call, and `Run.locking` and `Run.unlocking` say in what state it
returns.  An errorcheck mutex is special, because its lock fails where the caller has not given the mutex
up; `ErrorcheckInv` says that nobody holds it twice. -/

namespace Bionic.Mutex

variable {T : Type*} [DecidableEq T]
variable {ids : KernelIds T} {client : Client T} {s s' : Sys T} {t : T} {ty : MutexType}

/-! ### The errorcheck mutex -/

/-- The critical section that a thread is in. -/
def Pc.job : Pc → Option Job
  | .enter job _ => some job
  | .read job => some job
  | .write job _ _ => some job
  | .leave job _ _ => some job
  | _ => none

/-- The thread does not raise the counter. -/
def Pc.OnlyOnce (pc : Pc) : Prop := ∀ trying, pc.job ≠ some (.relock trying)

theorem onlyOnce_of_job {pc : Pc} (h : pc.job = none) : pc.OnlyOnce := by
  intro trying
  rw [h]
  simp

theorem job_afterType (mtype : Word) (op : Op) : (afterType mtype op).job = none := by
  cases op <;> unfold afterType <;> dsimp only <;> split <;> rfl

theorem job_afterJob (oldv : Word) (job : Job) : (afterJob oldv job).job = none := by
  cases job <;> unfold afterJob <;> dsimp only <;> first | rfl | (split <;> rfl)

theorem onlyOnce_afterOwner (own : Bool) (op : Op) :
    (afterOwner MUTEX_TYPE_ERRORCHECK own op).OnlyOnce := by
  intro trying
  cases op <;> cases own <;> simp [afterOwner, Pc.job]

theorem Run.onlyOnce {tid : Word} {m m' : Mem} {th th' : Thread} (h : Run tid m th m' th')
    (hp : PcOk .errorcheck tid m.value th.pc) (ho : th.pc.OnlyOnce) : th'.pc.OnlyOnce := by
  cases h with
  | typeOf op pc => exact onlyOnce_of_job (job_afterType _ op)
  | owner op mtype pc =>
      rw [pc] at hp
      have hm : mtype = pthreadMutexInit .errorcheck := hp
      rw [hm]
      exact onlyOnce_afterOwner _ op
  | enterMore job p p' w pc h => rw [pc] at ho; exact ho
  | enterDone job p w pc h => rw [pc] at ho; exact ho
  | readStore job newv oldv pc h => rw [pc] at ho; exact ho
  | readSkip job oldv pc h => rw [pc] at ho; exact ho
  | write job newv oldv pc =>
      rw [pc] at ho
      rw [wrote_pc]
      exact ho
  | leaveMore job oldv p p' w pc h => rw [pc] at ho; exact ho
  | leaveDone job oldv p w pc h => exact onlyOnce_of_job (job_afterJob oldv job)
  | waitAgain mtype oldv pc h => intro trying; simp [Pc.job]
  | done op ret pc => rw [returned_pc]; exact onlyOnce_of_job rfl
  | _ => exact onlyOnce_of_job rfl

theorem onlyOnce_woken {pc : Pc} {a : Addr} (h : pc.sleepsOn = some a) (ho : pc.OnlyOnce) :
    pc.woken.OnlyOnce := by
  cases pc with
  | normalLock p => cases p <;> exact onlyOnce_of_job rfl
  | enter job p => cases p <;> exact ho
  | asleep mtype => intro trying; simp [Pc.woken, Pc.job]
  | _ => simp [Pc.sleepsOn] at h

theorem onlyOnce_afterWake {pc : Pc} {a : Addr} (h : pc.wakes = some a) : pc.afterWake.OnlyOnce := by
  cases pc with
  | normalUnlock p => cases p <;> exact onlyOnce_of_job rfl
  | wake => exact onlyOnce_of_job rfl
  | leave job oldv p =>
      cases p with
      | wake => exact onlyOnce_of_job (job_afterJob oldv job)
      | _ => simp [Pc.wakes] at h
  | _ => simp [Pc.wakes] at h

theorem onlyOnce_set (ho : ∀ u, (s.pc u).OnlyOnce) (m : Mem) {th : Thread} (ht : th.pc.OnlyOnce) :
    ∀ u, ((s.set m t th).pc u).OnlyOnce := by
  intro u
  by_cases hut : u = t
  · subst hut; rw [set_pc_self]; exact ht
  · rw [set_pc_of_ne s m th hut]; exact ho u

theorem onlyOnce_step (hp : ∀ u, PcOk .errorcheck (ids.tid u) s.mem.value (s.pc u))
    (ho : ∀ u, (s.pc u).OnlyOnce) (h : Step ids client s t s') : ∀ u, (s'.pc u).OnlyOnce := by
  cases h with
  | call op idle allowed => exact onlyOnce_set ho _ (onlyOnce_of_job rfl)
  | exec m th h => exact onlyOnce_set ho _ ((run_of_exec h).onlyOnce (hp t) (ho t))
  | spurious a h => exact onlyOnce_set ho _ (onlyOnce_woken h (ho t))
  | wakeNone a ht none => exact onlyOnce_set ho _ (onlyOnce_afterWake ht)
  | wakeOne a u ht hu =>
      exact onlyOnce_set (onlyOnce_set ho _ (onlyOnce_afterWake ht)) _ (onlyOnce_woken hu (ho u))

/-- The invariant of an errorcheck mutex: nobody holds it twice. -/
structure ErrorcheckInv (ids : KernelIds T) (s : Sys T) : Prop extends HolderInv ids .errorcheck s where
  once : ∀ t, (s.thr t).depth ≤ 1
  onlyOnce : ∀ t, (s.pc t).OnlyOnce

theorem ErrorcheckInv.once_step (hi : ErrorcheckInv ids s) (h : Step ids client s t s') :
    ∀ u, (s'.thr u).depth ≤ 1 := by
  cases h.depth_cases with
  | inl same =>
      intro u
      have hu := congrFun same.2 u
      unfold Sys.depth at hu
      rw [hu]
      exact hi.once u
  | inr run =>
      obtain ⟨m, th, run, rfl⟩ := run
      have self : th.depth ≤ 1 := by
        cases run.value_cases (hi.pcs t) with
        | inl same => rw [same.2]; exact hi.once t
        | inr store =>
            obtain ⟨job, newv, oldv, pc, stored, -, rfl⟩ := store
            have once := hi.once t
            cases stored with
            | relock trying _ own f =>
                refine absurd ?_ (hi.onlyOnce t trying)
                show (s.thr t).pc.job = _
                rw [pc]
                rfl
            | take _ k _ hv hk hj f =>
                have free := hi.account.resolve_right fun held => held.1 hv
                have zero : (s.thr t).depth = 0 := free.2 t
                cases hj with
                | inl hj => rw [hj]; simp [Thread.wrote, zero]
                | inr hj => rw [hj.1]; simp [Thread.wrote, zero]
            | promote k _ h1 f =>
                unfold Thread.wrote
                dsimp only
                split
                next heq =>
                  have hstate : (fields (pthreadMutexInit .errorcheck)).state = 2 := by rw [← heq, f]
                  simp [fields_init] at hstate
                next => exact once
            | lower _ own hc f => show (s.thr t).depth - 1 ≤ 1; omega
            | free own hc => show (s.thr t).depth - 1 ≤ 1; omega
      intro u
      by_cases hu : u = t
      · rw [hu, set_thr_self]; exact self
      · rw [set_thr_of_ne _ _ _ hu]; exact hi.once u

theorem ErrorcheckInv.reach {ok : Sys T → Prop} (range : ∀ t, (ids.tid t).toNat ≤ 32768)
    (h : Reach ids client ok .errorcheck s) : ErrorcheckInv ids s := by
  induction h with
  | start =>
      refine ⟨⟨recursiveInv_start ids _, accounted_start ids _, fun t => ?_⟩, fun t => ?_, fun t => ?_⟩
      · simp [start, Thread.Counted, Pc.owed]
      · exact Nat.zero_le 1
      · exact onlyOnce_of_job rfl
  | step _ step _ ih =>
      have once := ih.once_step step
      have shallow : Shallow _ := fun u => Nat.le_trans (once u) (by decide)
      exact ⟨⟨ih.toRecursiveInv.step (by decide) step,
        ih.account.step range ih.toRecursiveInv step shallow, counted_step ih.counted step ih.gives⟩,
        once, onlyOnce_step ih.pcs ih.onlyOnce step⟩

/-! ### A call of `pthread_mutex_lock` -/

/-- The critical sections of `pthread_mutex_lock`. -/
def Job.locks : Job → Bool
  | .relock trying => !trying
  | .acquire _ _ => true
  | _ => false

/-- Inside `pthread_mutex_lock`, unless it has failed. -/
def Pc.inLock : Pc → Bool
  | .typeOf .lock => true
  | .owner .lock _ => true
  | .normalLock _ => true
  | .enter job _ => job.locks
  | .read job => job.locks
  | .write job _ _ => job.locks
  | .leave job _ _ => job.locks
  | .wait _ _ => true
  | .asleep _ => true
  | .done .lock .ok => true
  | _ => false

/-- A thread in a call of `pthread_mutex_lock`, to which `n` of them have returned 0 before.  If `fresh`, the
thread did not hold the mutex before the call. -/
structure Locking (n : ℕ) (fresh : Prop) (th : Thread) : Prop where
  pc : th.pc.inLock = true
  locks : th.locks = n
  taken : th.pc.owed = 1 → 0 < th.depth
  free : fresh → th.pc.owed = 0 → th.depth = 0

section

variable {tid : Word} {m m' : Mem} {th th' : Thread} {n : ℕ} {fresh : Prop}

theorem Locking.goto {pc : Pc} (h : Locking n fresh th) (hin : pc.inLock = true)
    (howed : pc.owed = th.pc.owed) : Locking n fresh (th.goto pc) where
  pc := hin
  locks := h.locks
  taken := fun h1 => h.taken (howed.symm.trans h1)
  free := fun hf h0 => h.free hf (howed.symm.trans h0)

theorem Locking.took {pc : Pc} (h : Locking n fresh th) (hin : pc.inLock = true)
    (howed : pc.owed = 1) : Locking n fresh (th.took pc) where
  pc := hin
  locks := h.locks
  taken := fun _ => Nat.succ_pos _
  free := fun _ h0 => absurd (howed.symm.trans h0) (by decide)

theorem Locking.not_idle (h : Locking n fresh th) : th.pc ≠ .idle := by
  intro idle
  have hin := h.pc
  rw [idle] at hin
  exact absurd hin Bool.false_ne_true

theorem inLock_afterType (mtype : Word) : (afterType mtype .lock).inLock = true := by
  unfold afterType
  dsimp only
  split <;> rfl

theorem inLock_afterJob {oldv : Word} {job : Job} (h : job.locks = true) :
    (afterJob oldv job).inLock = true := by
  cases job with
  | relock trying =>
      cases trying with
      | false => rfl
      | true => simp [Job.locks] at h
  | acquire mtype k =>
      unfold afterJob
      dsimp only
      split <;> rfl
  | _ => simp [Job.locks] at h

/-- A step inside `pthread_mutex_lock`: it stays inside, or returns 0 and holds the mutex.  It fails only
where an errorcheck mutex names the thread as its owner. -/
theorem Run.locking (h : Run tid m th m' th') (hl : Locking n fresh th)
    (hne : tid = mutexOwner m.value → th.pc ≠ .owner .lock MUTEX_TYPE_ERRORCHECK) :
    Locking n fresh th' ∨ (th'.pc = .idle ∧ th'.locks = n + 1 ∧ 0 < th'.depth) := by
  have hin := hl.pc
  cases h with
  | typeOf op pc =>
      rw [pc] at hin
      cases op with
      | lock => exact .inl (hl.goto (inLock_afterType _) (by rw [owed_afterType, pc]; rfl))
      | _ => exact absurd hin Bool.false_ne_true
  | owner op mtype pc =>
      rw [pc] at hin
      cases op with
      | lock =>
          refine .inl (hl.goto ?_ (by rw [owed_afterOwner, pc]; rfl))
          cases hown : tid == mutexOwner m.value with
          | false => rfl
          | true =>
              have hm : mtype ≠ MUTEX_TYPE_ERRORCHECK := by
                rintro rfl
                exact hne (by simpa using hown) pc
              simp only [afterOwner, if_true, if_neg hm]
              rfl
      | _ => exact absurd hin Bool.false_ne_true
  | lockMore p p' w pc h => exact .inl (hl.goto rfl (by rw [pc]; rfl))
  | lockDone p w pc h => exact .inl (hl.took rfl rfl)
  | enterMore job p p' w pc h => rw [pc] at hin; exact .inl (hl.goto hin (by rw [pc]; rfl))
  | enterDone job p w pc h => rw [pc] at hin; exact .inl (hl.goto hin (by rw [pc]; rfl))
  | readStore job newv oldv pc h => rw [pc] at hin; exact .inl (hl.goto hin (by rw [pc]; rfl))
  | readSkip job oldv pc h =>
      rw [pc] at hin
      exact .inl (hl.goto hin (by rw [pc, owed_skip _ h]; rfl))
  | write job newv oldv pc =>
      rw [pc] at hin
      cases job with
      | relock trying => exact .inl (hl.took hin rfl)
      | acquire mtype k =>
          unfold Thread.wrote
          dsimp only
          split
          next hv => exact .inl (hl.took hin (by simp [Pc.owed, hv]))
          next hv => exact .inl (hl.goto hin (by rw [pc]; simp [Pc.owed, hv]))
      | _ => exact absurd hin Bool.false_ne_true
  | leaveMore job oldv p p' w pc h =>
      rw [pc] at hin
      exact .inl (hl.goto hin (by rw [pc]; exact owed_leave job oldv p' p))
  | leaveDone job oldv p w pc h =>
      rw [pc] at hin
      exact .inl (hl.goto (inLock_afterJob hin) (by rw [pc]; exact owed_afterJob job oldv p))
  | waitSleep mtype oldv pc h => exact .inl (hl.goto rfl (by rw [pc]; rfl))
  | waitAgain mtype oldv pc h => exact .inl (hl.goto rfl (by rw [pc]; rfl))
  | done op ret pc =>
      have taken := hl.taken
      rw [pc] at hin taken
      cases op with
      | lock =>
          cases ret with
          | ok => exact .inr ⟨rfl, by rw [← hl.locks]; rfl, taken rfl⟩
          | _ => exact absurd hin Bool.false_ne_true
      | _ => exact absurd hin Bool.false_ne_true
  | _ => rw [‹th.pc = _›] at hin; exact absurd hin Bool.false_ne_true

theorem Locking.woken {a : Addr} (hl : Locking n fresh th) (h : th.pc.sleepsOn = some a) :
    Locking n fresh (th.goto th.pc.woken) := by
  refine hl.goto ?_ (owed_woken h)
  have hin := hl.pc
  cases hp : th.pc with
  | normalLock p => cases p <;> rfl
  | enter job p =>
      rw [hp] at hin
      cases p <;> exact hin
  | asleep mtype => rfl
  | _ => simp [hp, Pc.sleepsOn] at h

theorem Locking.afterWake {a : Addr} (hl : Locking n fresh th) (h : th.pc.wakes = some a) :
    Locking n fresh (th.goto th.pc.afterWake) := by
  refine hl.goto ?_ (owed_afterWake h)
  have hin := hl.pc
  cases hp : th.pc with
  | leave job oldv p =>
      rw [hp] at hin
      cases p with
      | wake => exact inLock_afterJob hin
      | _ => simp [hp, Pc.wakes] at h
  | normalUnlock p => rw [hp] at hin; exact absurd hin Bool.false_ne_true
  | wake => rw [hp] at hin; exact absurd hin Bool.false_ne_true
  | _ => simp [hp, Pc.wakes] at h

/-! ### A call of `pthread_mutex_unlock` on an errorcheck mutex -/

/-- Inside `pthread_mutex_unlock`, before the store that frees the mutex. -/
def Pc.beforeRelease : Pc → Bool
  | .typeOf .unlock => true
  | .owner .unlock _ => true
  | .enter (.release _) _ => true
  | .read (.release _) => true
  | .write (.release _) _ _ => true
  | _ => false

/-- Inside `pthread_mutex_unlock`, after that store. -/
def Pc.afterRelease : Pc → Bool
  | .leave (.release _) _ _ => true
  | .wake => true
  | .done .unlock .ok => true
  | _ => false

/-- A holder of an errorcheck mutex in a call of `pthread_mutex_unlock`. -/
inductive Unlocking (th : Thread) : Prop
  | before (pc : th.pc.beforeRelease = true) (depth : th.depth = 1)
  | after (pc : th.pc.afterRelease = true) (depth : th.depth = 0)

theorem Unlocking.not_idle (h : Unlocking th) : th.pc ≠ .idle := by
  intro idle
  cases h with
  | before hpc hd => rw [idle] at hpc; exact absurd hpc Bool.false_ne_true
  | after hpc hd => rw [idle] at hpc; exact absurd hpc Bool.false_ne_true

theorem update_release (tid oldv mtype : Word) : ∃ newv o, update tid oldv (.release mtype) = (some newv, o) := by
  unfold update
  dsimp only
  split
  · exact ⟨_, _, rfl⟩
  · exact ⟨_, _, rfl⟩

theorem afterRelease_afterJob (oldv mtype : Word) : (afterJob oldv (.release mtype)).afterRelease = true := by
  unfold afterJob
  dsimp only
  split <;> rfl

theorem Run.unlocking_before (h : Run tid m th m' th') (word : WordOk .errorcheck m.value)
    (own : tid = mutexOwner m.value) (hpc : th.pc.beforeRelease = true) (hd : th.depth = 1) :
    Unlocking th' := by
  cases h with
  | typeOf op pc =>
      rw [pc] at hpc
      cases op with
      | unlock =>
          rw [afterType_of_ne (by decide) word]
          exact .before rfl hd
      | _ => exact absurd hpc Bool.false_ne_true
  | owner op mtype pc =>
      rw [pc] at hpc
      cases op with
      | unlock =>
          have hown : (tid == mutexOwner m.value) = true := by simpa using own
          rw [hown]
          exact .before rfl hd
      | _ => exact absurd hpc Bool.false_ne_true
  | enterMore job p p' w pc h =>
      rw [pc] at hpc
      cases job with
      | release mtype => exact .before rfl hd
      | _ => exact absurd hpc Bool.false_ne_true
  | enterDone job p w pc h =>
      rw [pc] at hpc
      cases job with
      | release mtype => exact .before rfl hd
      | _ => exact absurd hpc Bool.false_ne_true
  | readStore job newv oldv pc h =>
      rw [pc] at hpc
      cases job with
      | release mtype => exact .before rfl hd
      | _ => exact absurd hpc Bool.false_ne_true
  | readSkip job oldv pc h =>
      rw [pc] at hpc
      cases job with
      | release mtype =>
          obtain ⟨newv, o, hup⟩ := update_release tid m.value mtype
          rw [hup] at h
          cases h
      | _ => exact absurd hpc Bool.false_ne_true
  | write job newv oldv pc =>
      rw [pc] at hpc
      cases job with
      | release mtype => exact .after rfl (by show th.depth - 1 = 0; omega)
      | _ => exact absurd hpc Bool.false_ne_true
  | _ => rw [‹th.pc = _›] at hpc; exact absurd hpc Bool.false_ne_true

theorem Run.unlocking_after (h : Run tid m th m' th') (hpc : th.pc.afterRelease = true)
    (hd : th.depth = 0) : Unlocking th' ∨ (th'.pc = .idle ∧ th'.depth = 0) := by
  cases h with
  | leaveMore job oldv p p' w pc h =>
      rw [pc] at hpc
      cases job with
      | release mtype => exact .inl (.after rfl hd)
      | _ => exact absurd hpc Bool.false_ne_true
  | leaveDone job oldv p w pc h =>
      rw [pc] at hpc
      cases job with
      | release mtype => exact .inl (.after (afterRelease_afterJob oldv mtype) hd)
      | _ => exact absurd hpc Bool.false_ne_true
  | done op ret pc => exact .inr ⟨returned_pc th op ret, by rw [returned_depth]; exact hd⟩
  | _ => rw [‹th.pc = _›] at hpc; exact absurd hpc Bool.false_ne_true

/-- A step of a holder inside `pthread_mutex_unlock`: it stays inside, or returns without the mutex. -/
theorem Run.unlocking (h : Run tid m th m' th') (word : WordOk .errorcheck m.value)
    (own : 0 < th.depth → tid = mutexOwner m.value) (hu : Unlocking th) :
    Unlocking th' ∨ (th'.pc = .idle ∧ th'.depth = 0) := by
  cases hu with
  | before hpc hd => exact .inl (h.unlocking_before word (own (by omega)) hpc hd)
  | after hpc hd => exact h.unlocking_after hpc hd

theorem Unlocking.woken {a : Addr} (hu : Unlocking th) (h : th.pc.sleepsOn = some a) :
    Unlocking (th.goto th.pc.woken) := by
  cases hu with
  | before hpc hd =>
      refine .before ?_ hd
      cases hp : th.pc with
      | enter job p =>
          rw [hp] at hpc
          cases job with
          | release mtype => cases p <;> rfl
          | _ => exact absurd hpc Bool.false_ne_true
      | normalLock p => rw [hp] at hpc; exact absurd hpc Bool.false_ne_true
      | asleep mtype => rw [hp] at hpc; exact absurd hpc Bool.false_ne_true
      | _ => simp [hp, Pc.sleepsOn] at h
  | after hpc hd =>
      cases hp : th.pc with
      | enter job p => rw [hp] at hpc; exact absurd hpc Bool.false_ne_true
      | normalLock p => rw [hp] at hpc; exact absurd hpc Bool.false_ne_true
      | asleep mtype => rw [hp] at hpc; exact absurd hpc Bool.false_ne_true
      | _ => simp [hp, Pc.sleepsOn] at h

theorem Unlocking.afterWake {a : Addr} (hu : Unlocking th) (h : th.pc.wakes = some a) :
    Unlocking (th.goto th.pc.afterWake) := by
  cases hu with
  | before hpc hd =>
      cases hp : th.pc with
      | normalUnlock p => rw [hp] at hpc; exact absurd hpc Bool.false_ne_true
      | leave job oldv p => rw [hp] at hpc; exact absurd hpc Bool.false_ne_true
      | wake => rw [hp] at hpc; exact absurd hpc Bool.false_ne_true
      | _ => simp [hp, Pc.wakes] at h
  | after hpc hd =>
      refine .after ?_ hd
      cases hp : th.pc with
      | leave job oldv p =>
          rw [hp] at hpc
          cases p with
          | wake =>
              cases job with
              | release mtype => exact afterRelease_afterJob oldv mtype
              | _ => exact absurd hpc Bool.false_ne_true
          | _ => simp [hp, Pc.wakes] at h
      | wake => rfl
      | normalUnlock p => rw [hp] at hpc; exact absurd hpc Bool.false_ne_true
      | _ => simp [hp, Pc.wakes] at h

end

/-! ### One thread in a step of the system -/

/-- What a step of the system does to the thread `t`. -/
inductive ThreadStep (ids : KernelIds T) (client : Client T) (s s' : Sys T) (t : T) : Prop
  | same (h : s'.thr t = s.thr t)
  | call (op : Op) (allowed : client s t op) (h : s'.thr t = (s.thr t).goto (.typeOf op))
  | run (h : Run (ids.tid t) s.mem (s.thr t) s'.mem (s'.thr t))
  | woken (a : Addr) (h : (s.thr t).pc.sleepsOn = some a)
      (e : s'.thr t = (s.thr t).goto (s.thr t).pc.woken)
  | woke (a : Addr) (h : (s.thr t).pc.wakes = some a)
      (e : s'.thr t = (s.thr t).goto (s.thr t).pc.afterWake)

theorem Step.thread {u : T} (h : Step ids client s u s') (t : T) : ThreadStep ids client s s' t := by
  cases h with
  | call op idle allowed =>
      by_cases htu : t = u
      · subst htu
        exact .call op allowed (set_thr_self _ _ _ _)
      · exact .same (set_thr_of_ne _ _ _ htu)
  | exec m th h =>
      by_cases htu : t = u
      · subst htu
        refine .run ?_
        rw [set_thr_self, set_mem]
        exact run_of_exec h
      · exact .same (set_thr_of_ne _ _ _ htu)
  | spurious a h =>
      by_cases htu : t = u
      · subst htu
        exact .woken a h (set_thr_self _ _ _ _)
      · exact .same (set_thr_of_ne _ _ _ htu)
  | wakeNone a ht none =>
      by_cases htu : t = u
      · subst htu
        exact .woke a ht (set_thr_self _ _ _ _)
      · exact .same (set_thr_of_ne _ _ _ htu)
  | wakeOne a v hu hv =>
      have hvu := ne_of_wakes hu hv
      by_cases htv : t = v
      · subst htv
        exact .woken a hv (set_thr_self _ _ _ _)
      · by_cases htu : t = u
        · subst htu
          refine .woke a hu ?_
          rw [set_thr_of_ne _ _ _ htv, set_thr_self]
          rfl
        · refine .same ?_
          rw [set_thr_of_ne _ _ _ htv, set_thr_of_ne _ _ _ htu]

theorem Run.not_idle {tid : Word} {m m' : Mem} {th th' : Thread} (h : Run tid m th m' th') :
    th.pc ≠ .idle := by
  intro idle
  cases h <;> simp_all

omit [DecidableEq T] in
/-- A thread outside the functions of the mutex only moves by a call. -/
theorem ThreadStep.of_idle (h : ThreadStep ids client s s' t) (idle : (s.thr t).pc = .idle)
    (never : ∀ op, ¬ client s t op) : s'.thr t = s.thr t := by
  cases h with
  | same h => exact h
  | call op allowed h => exact absurd allowed (never op)
  | run h => exact absurd idle h.not_idle
  | woken a h e => rw [idle] at h; cases h
  | woke a h e => rw [idle] at h; cases h

theorem Step.mono {client' : Client T} (h : Step ids client s t s')
    (sub : ∀ op, client s t op → client' s t op) : Step ids client' s t s' := by
  cases h with
  | call op idle allowed => exact .call op idle (sub op allowed)
  | exec m th h => exact .exec m th h
  | spurious a h => exact .spurious a h
  | wakeOne a u ht hu => exact .wakeOne a u ht hu
  | wakeNone a ht none => exact .wakeNone a ht none

/-- A thread in a call of `pthread_mutex_lock` that did not hold an errorcheck mutex before is not taken for
its owner. -/
theorem not_deadlock {n : ℕ} {ok : Sys T → Prop} (range : ∀ t, (ids.tid t).toNat ≤ 32768)
    (reach : Reach ids holderUnlocks ok ty s) (hl : Locking n (ty = .errorcheck) (s.thr t)) :
    ids.tid t = mutexOwner s.mem.value → (s.thr t).pc ≠ .owner .lock MUTEX_TYPE_ERRORCHECK := by
  intro own pc
  cases ty with
  | normal =>
      have plain := (NormalInv.reach reach).plain t
      unfold Sys.pc at plain
      rw [pc] at plain
      exact plain
  | recursive =>
      have hpc := (RecursiveInv.reach (by decide) reach).pcs t
      unfold Sys.pc at hpc
      rw [pc] at hpc
      have hm : MUTEX_TYPE_ERRORCHECK = pthreadMutexInit .recursive := hpc
      exact absurd hm (by decide)
  | errorcheck =>
      have holder := ((ErrorcheckInv.reach range reach).holder_iff t).2 own
      have free := hl.free rfl (by rw [pc]; rfl)
      unfold Sys.Holder at holder
      omega

end Bionic.Mutex
