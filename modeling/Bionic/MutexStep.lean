import Mathlib.Data.Int.Notation
import Bionic.Mutex

/-! # What a step of a mutex can do

`Run` lists the cases of `exec` (`run_of_exec`), so that each invariant is a case
analysis on it.  A step of the system is one move of a thread alone (`Alone`) or a
wake-up call, which moves two threads (`Step.alone`).

`owed` is the effect that a call has had and not yet returned; `Counted` relates
`depth` to the calls that have returned. -/

namespace Bionic.Mutex

/-! ### What a call owes -/

/-- The effect on `depth` of the call in progress, as far as it has been had. -/
def Pc.owed : Pc → ℤ
  | .normalUnlock .wake => -1
  | .leave (.relock _) _ _ => 1
  | .leave (.acquire mtype _) oldv _ => if oldv = mtype then 1 else 0
  | .leave (.tryAcquire mtype) oldv _ => if oldv = mtype then 1 else 0
  | .leave (.release _) _ _ => -1
  | .wake => -1
  | .done .unlock .ok => -1
  | .done _ .ok => 1
  | _ => 0

/-- `depth` is the number of locks less the number of unlocks, the call in progress
included. -/
def Thread.Counted (th : Thread) : Prop := (th.depth : ℤ) = th.locks - th.unlocks + th.pc.owed

/-- The thread is about to give the mutex up, or to lower its counter. -/
def Pc.gives : Pc → Bool
  | .normalUnlock .dec => true
  | .normalUnlock .store => true
  | .write (.release _) _ _ => true
  | _ => false

theorem owed_afterType (mtype : Word) (op : Op) : (afterType mtype op).owed = 0 := by
  cases op <;> unfold afterType <;> dsimp only <;> split <;> rfl

theorem owed_afterOwner (mtype : Word) (own : Bool) (op : Op) :
    (afterOwner mtype own op).owed = 0 := by
  cases op <;> unfold afterOwner <;> dsimp only <;> (repeat split) <;> rfl

theorem owed_leave (job : Job) (oldv : Word) (p p' : UnlockPhase) :
    (Pc.leave job oldv p).owed = (Pc.leave job oldv p').owed := by
  cases job <;> rfl

theorem owed_afterJob (job : Job) (oldv : Word) (p : UnlockPhase) :
    (afterJob oldv job).owed = (Pc.leave job oldv p).owed := by
  cases job with
  | relock trying => cases trying <;> rfl
  | acquire mtype k => by_cases h : oldv = mtype <;> simp [afterJob, Pc.owed, h]
  | tryAcquire mtype => by_cases h : oldv = mtype <;> simp [afterJob, Pc.owed, h]
  | release mtype => unfold afterJob; dsimp only; split <;> rfl

/-- A critical section that stores nothing takes nothing. -/
theorem owed_skip {tid v oldv : Word} {job : Job} (p : UnlockPhase)
    (h : update tid v job = (none, oldv)) : (Pc.leave job oldv p).owed = 0 := by
  cases job with
  | relock trying => simp [update] at h
  | acquire mtype k =>
      simp only [update] at h
      split at h
      next hv => simp at h
      next hv =>
        split at h
        · simp at h
        · cases h; simp [Pc.owed, hv]
  | tryAcquire mtype =>
      simp only [update] at h
      split at h
      next hv => simp at h
      next hv => cases h; simp [Pc.owed, hv]
  | release mtype =>
      simp only [update] at h
      split at h <;> simp at h

theorem normalUnlock_gives {w w' : Word} {p : UnlockPhase} {o : Option UnlockPhase}
    (h : normalUnlock w p = some (w', o)) : (Pc.normalUnlock p).gives = true := by
  cases p with
  | wake => simp [normalUnlock] at h
  | _ => rfl

theorem owed_of_gives {pc : Pc} (h : pc.gives = true) : pc.owed = 0 := by
  cases pc with
  | normalUnlock p => cases p <;> first | rfl | simp [Pc.gives] at h
  | write job newv oldv => rfl
  | _ => simp [Pc.gives] at h

/-! ### The cases of `exec` -/

/-- What one step of `exec` can do. -/
inductive Run (tid : Word) (m : Mem) (th : Thread) : Mem → Thread → Prop
  | typeOf (op : Op) (pc : th.pc = .typeOf op) :
      Run tid m th m (th.goto (afterType (m.value &&& MUTEX_TYPE_MASK) op))
  | owner (op : Op) (mtype : Word) (pc : th.pc = .owner op mtype) :
      Run tid m th m (th.goto (afterOwner mtype (tid == mutexOwner m.value) op))
  | lockMore (p p' : LockPhase) (w : Word) (pc : th.pc = .normalLock p)
      (h : normalLock m.value p = some (w, some p')) :
      Run tid m th ⟨w, m.recursiveLock⟩ (th.goto (.normalLock p'))
  | lockDone (p : LockPhase) (w : Word) (pc : th.pc = .normalLock p)
      (h : normalLock m.value p = some (w, none)) :
      Run tid m th ⟨w, m.recursiveLock⟩ (th.took (.done .lock .ok))
  | tryDone (pc : th.pc = .normalTrylock) (h : m.value = 0) :
      Run tid m th ⟨1, m.recursiveLock⟩ (th.took (.done .trylock .ok))
  | tryBusy (pc : th.pc = .normalTrylock) (h : m.value ≠ 0) :
      Run tid m th m (th.goto (.done .trylock .EBUSY))
  | unlockDone (p : UnlockPhase) (w : Word) (pc : th.pc = .normalUnlock p)
      (h : normalUnlock m.value p = some (w, none)) :
      Run tid m th ⟨w, m.recursiveLock⟩ (th.gave (.done .unlock .ok))
  | unlockMore (p : UnlockPhase) (w : Word) (pc : th.pc = .normalUnlock p)
      (h : normalUnlock m.value p = some (w, some .store)) :
      Run tid m th ⟨w, m.recursiveLock⟩ (th.goto (.normalUnlock .store))
  | unlockStored (p : UnlockPhase) (w : Word) (pc : th.pc = .normalUnlock p)
      (h : normalUnlock m.value p = some (w, some .wake)) :
      Run tid m th ⟨w, m.recursiveLock⟩ (th.gave (.normalUnlock .wake))
  | enterMore (job : Job) (p p' : LockPhase) (w : Word) (pc : th.pc = .enter job p)
      (h : normalLock m.recursiveLock p = some (w, some p')) :
      Run tid m th ⟨m.value, w⟩ (th.goto (.enter job p'))
  | enterDone (job : Job) (p : LockPhase) (w : Word) (pc : th.pc = .enter job p)
      (h : normalLock m.recursiveLock p = some (w, none)) :
      Run tid m th ⟨m.value, w⟩ (th.goto (.read job))
  | readStore (job : Job) (newv oldv : Word) (pc : th.pc = .read job)
      (h : update tid m.value job = (some newv, oldv)) :
      Run tid m th m (th.goto (.write job newv oldv))
  | readSkip (job : Job) (oldv : Word) (pc : th.pc = .read job)
      (h : update tid m.value job = (none, oldv)) :
      Run tid m th m (th.goto (.leave job oldv .dec))
  | write (job : Job) (newv oldv : Word) (pc : th.pc = .write job newv oldv) :
      Run tid m th ⟨newv, m.recursiveLock⟩ (th.wrote oldv job)
  | leaveMore (job : Job) (oldv : Word) (p p' : UnlockPhase) (w : Word)
      (pc : th.pc = .leave job oldv p) (h : normalUnlock m.recursiveLock p = some (w, some p')) :
      Run tid m th ⟨m.value, w⟩ (th.goto (.leave job oldv p'))
  | leaveDone (job : Job) (oldv : Word) (p : UnlockPhase) (w : Word)
      (pc : th.pc = .leave job oldv p) (h : normalUnlock m.recursiveLock p = some (w, none)) :
      Run tid m th ⟨m.value, w⟩ (th.goto (afterJob oldv job))
  | waitSleep (mtype oldv : Word) (pc : th.pc = .wait mtype oldv) (h : m.value = oldv) :
      Run tid m th m (th.goto (.asleep mtype))
  | waitAgain (mtype oldv : Word) (pc : th.pc = .wait mtype oldv) (h : m.value ≠ oldv) :
      Run tid m th m (th.goto (.enter (.acquire mtype 2) .cas))
  | done (op : Op) (ret : Ret) (pc : th.pc = .done op ret) :
      Run tid m th m (th.returned op ret)

theorem normalUnlock_ne_dec {w w' : Word} {p : UnlockPhase} :
    normalUnlock w p ≠ some (w', some .dec) := by
  intro h
  cases p with
  | dec => simp only [normalUnlock] at h; split at h <;> simp at h
  | store => simp [normalUnlock] at h
  | wake => simp [normalUnlock] at h

theorem run_of_exec {tid : Word} {m m' : Mem} {th th' : Thread}
    (h : exec tid m th = some (m', th')) : Run tid m th m' th' := by
  unfold exec at h
  split at h
  case h_1 => simp at h
  case h_2 op pc => cases h; exact .typeOf op pc
  case h_3 op mtype pc => cases h; exact .owner op mtype pc
  case h_4 p pc =>
      obtain ⟨⟨w, o⟩, hl, he⟩ := Option.map_eq_some_iff.mp h
      cases o with
      | none => cases he; exact .lockDone p w pc hl
      | some p' => cases he; exact .lockMore p p' w pc hl
  case h_5 pc =>
      split at h
      · cases h; exact .tryDone pc ‹_›
      · cases h; exact .tryBusy pc ‹_›
  case h_6 p pc =>
      obtain ⟨⟨w, o⟩, hl, he⟩ := Option.map_eq_some_iff.mp h
      cases o with
      | none => cases he; exact .unlockDone p w pc hl
      | some p' =>
          cases p' with
          | dec => exact absurd hl normalUnlock_ne_dec
          | store => cases he; exact .unlockMore p w pc hl
          | wake => cases he; exact .unlockStored p w pc hl
  case h_7 job p pc =>
      obtain ⟨⟨w, o⟩, hl, he⟩ := Option.map_eq_some_iff.mp h
      cases o with
      | none => cases he; exact .enterDone job p w pc hl
      | some p' => cases he; exact .enterMore job p p' w pc hl
  case h_8 job pc =>
      split at h
      · cases h; exact .readStore job _ _ pc ‹_›
      · cases h; exact .readSkip job _ pc ‹_›
  case h_9 job newv oldv pc => cases h; exact .write job newv oldv pc
  case h_10 job oldv p pc =>
      obtain ⟨⟨w, o⟩, hl, he⟩ := Option.map_eq_some_iff.mp h
      cases o with
      | none => cases he; exact .leaveDone job oldv p w pc hl
      | some p' => cases he; exact .leaveMore job oldv p p' w pc hl
  case h_11 mtype oldv pc =>
      split at h
      · cases h; exact .waitSleep mtype oldv pc ‹_›
      · cases h; exact .waitAgain mtype oldv pc ‹_›
  case h_12 => simp at h
  case h_13 => simp at h
  case h_14 op ret pc => cases h; exact .done op ret pc

/-! ### One thread moves alone -/

variable {T : Type*} [DecidableEq T]

@[simp] theorem set_mem (s : Sys T) (m : Mem) (t : T) (th : Thread) : (s.set m t th).mem = m := rfl

@[simp] theorem set_thr_self (s : Sys T) (m : Mem) (t : T) (th : Thread) :
    (s.set m t th).thr t = th := by
  simp [Sys.set]

theorem set_thr_of_ne (s : Sys T) (m : Mem) {t u : T} (th : Thread) (h : u ≠ t) :
    (s.set m t th).thr u = s.thr u := by
  simp [Sys.set, h]

@[simp] theorem set_pc_self (s : Sys T) (m : Mem) (t : T) (th : Thread) :
    (s.set m t th).pc t = th.pc := by
  simp [Sys.pc]

theorem set_pc_of_ne (s : Sys T) (m : Mem) {t u : T} (th : Thread) (h : u ≠ t) :
    (s.set m t th).pc u = s.pc u := by
  rw [Sys.pc, set_thr_of_ne s m th h, Sys.pc]

@[simp] theorem goto_pc (th : Thread) (pc : Pc) : (th.goto pc).pc = pc := rfl
@[simp] theorem took_pc (th : Thread) (pc : Pc) : (th.took pc).pc = pc := rfl
@[simp] theorem gave_pc (th : Thread) (pc : Pc) : (th.gave pc).pc = pc := rfl
@[simp] theorem goto_depth (th : Thread) (pc : Pc) : (th.goto pc).depth = th.depth := rfl
@[simp] theorem took_depth (th : Thread) (pc : Pc) : (th.took pc).depth = th.depth + 1 := rfl
@[simp] theorem gave_depth (th : Thread) (pc : Pc) : (th.gave pc).depth = th.depth - 1 := rfl

@[simp] theorem returned_pc (th : Thread) (op : Op) (ret : Ret) :
    (th.returned op ret).pc = .idle := by
  cases op <;> cases ret <;> rfl

@[simp] theorem returned_depth (th : Thread) (op : Op) (ret : Ret) :
    (th.returned op ret).depth = th.depth := by
  cases op <;> cases ret <;> rfl

@[simp] theorem wrote_pc (th : Thread) (oldv : Word) (job : Job) :
    (th.wrote oldv job).pc = .leave job oldv .dec := by
  cases job with
  | acquire mtype k => unfold Thread.wrote; dsimp only; split <;> rfl
  | tryAcquire mtype => unfold Thread.wrote; dsimp only; split <;> rfl
  | _ => rfl

/-- A step in which only the thread `t` changes. -/
inductive Alone (ids : KernelIds T) (client : Client T) (s : Sys T) (t : T) : Sys T → Prop
  | call (op : Op) (idle : s.pc t = .idle) (allowed : client s t op) :
      Alone ids client s t (s.set s.mem t ((s.thr t).goto (.typeOf op)))
  | run (m : Mem) (th : Thread) (h : Run (ids.tid t) s.mem (s.thr t) m th) :
      Alone ids client s t (s.set m t th)
  /-- Its `__futex_wait` returns. -/
  | woken (a : Addr) (h : (s.pc t).sleepsOn = some a) :
      Alone ids client s t (s.set s.mem t ((s.thr t).goto (s.pc t).woken))
  /-- Its `__futex_wake` returns. -/
  | woke (a : Addr) (h : (s.pc t).wakes = some a) :
      Alone ids client s t (s.set s.mem t ((s.thr t).goto (s.pc t).afterWake))

variable {ids : KernelIds T} {client : Client T} {s s' : Sys T} {t : T}

omit [DecidableEq T] in
/-- A thread that calls `__futex_wake` and the thread it wakes are two threads. -/
theorem ne_of_wakes {a b : Addr} {u : T} (ht : (s.pc t).wakes = some a)
    (hu : (s.pc u).sleepsOn = some b) : u ≠ t := by
  intro h
  rw [h] at hu
  rw [wakes_of_sleepsOn hu] at ht
  contradiction

/-- A wake-up call is two moves: the caller goes on, then the sleeper. -/
theorem Step.alone (h : Step ids client s t s') :
    Alone ids client s t s' ∨
      ∃ s₁ u a, Alone ids client s t s₁ ∧ Alone ids client s₁ u s' ∧
        (s₁.pc u).sleepsOn = some a := by
  cases h with
  | call op idle allowed => exact .inl (.call op idle allowed)
  | exec m th h => exact .inl (.run m th (run_of_exec h))
  | spurious a h => exact .inl (.woken a h)
  | wakeNone a ht none => exact .inl (.woke a ht)
  | wakeOne a u ht hu =>
      have hut := ne_of_wakes ht hu
      have e := set_pc_of_ne s s.mem ((s.thr t).goto (s.pc t).afterWake) hut
      have move : Alone ids client _ u _ := .woken a (e.symm ▸ hu)
      rw [set_mem, set_thr_of_ne _ _ _ hut, e] at move
      exact .inr ⟨_, u, a, .woke a ht, move, e.symm ▸ hu⟩

/-! ### Calls that have returned -/

theorem Thread.Counted.goto {th : Thread} {pc : Pc} (h : th.Counted) (e : pc.owed = th.pc.owed) :
    (th.goto pc).Counted := by
  unfold Counted at h ⊢
  rw [goto_pc, e]
  exact h

theorem Thread.Counted.took {th : Thread} {pc : Pc} (h : th.Counted) (e : th.pc.owed = 0)
    (e' : pc.owed = 1) : (th.took pc).Counted := by
  unfold Counted at h ⊢
  rw [took_pc, e', took_depth]
  rw [e] at h
  change ((th.depth + 1 : ℕ) : ℤ) = th.locks - th.unlocks + 1
  omega

theorem Thread.Counted.gave {th : Thread} {pc : Pc} (h : th.Counted) (hg : 0 < th.depth)
    (e : th.pc.owed = 0) (e' : pc.owed = -1) : (th.gave pc).Counted := by
  unfold Counted at h ⊢
  rw [gave_pc, e', gave_depth]
  rw [e] at h
  change ((th.depth - 1 : ℕ) : ℤ) = th.locks - th.unlocks + -1
  omega

theorem Thread.Counted.wrote {th : Thread} {job : Job} {newv oldv : Word} (h : th.Counted)
    (pc : th.pc = .write job newv oldv) (hg : th.pc.gives = true → 0 < th.depth) :
    (th.wrote oldv job).Counted := by
  have e : th.pc.owed = 0 := by rw [pc]; rfl
  cases job with
  | relock trying => exact h.took e rfl
  | acquire mtype k =>
      unfold Thread.wrote
      dsimp only
      split
      next hv => exact h.took e (by simp [Pc.owed, hv])
      next hv => exact h.goto (by rw [e]; simp [Pc.owed, hv])
  | tryAcquire mtype =>
      unfold Thread.wrote
      dsimp only
      split
      next hv => exact h.took e (by simp [Pc.owed, hv])
      next hv => exact h.goto (by rw [e]; simp [Pc.owed, hv])
  | release mtype => exact h.gave (hg (by rw [pc]; rfl)) e rfl

theorem Thread.Counted.returned {th : Thread} {op : Op} {ret : Ret} (h : th.Counted)
    (pc : th.pc = .done op ret) : (th.returned op ret).Counted := by
  unfold Counted at h ⊢
  rw [returned_pc, returned_depth]
  rw [pc] at h
  cases op <;> cases ret <;> simp only [Thread.returned, Pc.owed] at h ⊢ <;> omega

/-- A step of `exec` keeps the count, if whoever gives the mutex up has it. -/
theorem Run.counted {tid : Word} {m m' : Mem} {th th' : Thread} (h : Run tid m th m' th')
    (hc : th.Counted) (hg : th.pc.gives = true → 0 < th.depth) : th'.Counted := by
  cases h with
  | typeOf op pc => exact hc.goto (by rw [owed_afterType, pc]; rfl)
  | owner op mtype pc => exact hc.goto (by rw [owed_afterOwner, pc]; rfl)
  | lockMore p p' w pc h => exact hc.goto (by rw [pc]; rfl)
  | lockDone p w pc h => exact hc.took (by rw [pc]; rfl) rfl
  | tryDone pc h => exact hc.took (by rw [pc]; rfl) rfl
  | tryBusy pc h => exact hc.goto (by rw [pc]; rfl)
  | unlockDone p w pc h =>
      have g : th.pc.gives = true := by rw [pc]; exact normalUnlock_gives h
      exact hc.gave (hg g) (owed_of_gives g) rfl
  | unlockMore p w pc h =>
      have g : th.pc.gives = true := by rw [pc]; exact normalUnlock_gives h
      exact hc.goto (by rw [owed_of_gives g]; rfl)
  | unlockStored p w pc h =>
      have g : th.pc.gives = true := by rw [pc]; exact normalUnlock_gives h
      exact hc.gave (hg g) (owed_of_gives g) rfl
  | enterMore job p p' w pc h => exact hc.goto (by rw [pc]; rfl)
  | enterDone job p w pc h => exact hc.goto (by rw [pc]; rfl)
  | readStore job newv oldv pc h => exact hc.goto (by rw [pc]; rfl)
  | readSkip job oldv pc h => exact hc.goto (by rw [pc, owed_skip _ h]; rfl)
  | write job newv oldv pc => exact hc.wrote pc hg
  | leaveMore job oldv p p' w pc h => exact hc.goto (by rw [pc]; exact owed_leave job oldv p' p)
  | leaveDone job oldv p w pc h => exact hc.goto (by rw [pc]; exact owed_afterJob job oldv p)
  | waitSleep mtype oldv pc h => exact hc.goto (by rw [pc]; rfl)
  | waitAgain mtype oldv pc h => exact hc.goto (by rw [pc]; rfl)
  | done op ret pc => exact hc.returned pc

theorem owed_woken {a : Addr} {pc : Pc} (h : pc.sleepsOn = some a) : pc.woken.owed = pc.owed := by
  cases pc with
  | normalLock p => cases p <;> rfl
  | enter job p => cases p <;> rfl
  | asleep mtype => rfl
  | _ => simp [Pc.sleepsOn] at h

theorem owed_afterWake {a : Addr} {pc : Pc} (h : pc.wakes = some a) :
    pc.afterWake.owed = pc.owed := by
  cases pc with
  | normalUnlock p =>
      cases p with
      | wake => rfl
      | _ => simp [Pc.wakes] at h
  | wake => rfl
  | leave job oldv p =>
      cases p with
      | wake => exact owed_afterJob job oldv .wake
      | _ => simp [Pc.wakes] at h
  | _ => simp [Pc.wakes] at h

omit [DecidableEq T] in
/-- Outside the functions a thread is a holder when more locks than unlocks returned. -/
theorem Thread.Counted.holder_iff (h : (s.thr t).Counted) (idle : s.pc t = .idle) :
    s.Holder t ↔ (s.thr t).unlocks < (s.thr t).locks := by
  have e : (s.thr t).pc.owed = 0 := by
    unfold Sys.pc at idle
    rw [idle]
    rfl
  unfold Thread.Counted at h
  unfold Sys.Holder
  rw [e] at h
  omega

theorem counted_alone (hc : ∀ u, (s.thr u).Counted) (h : Alone ids client s t s')
    (hg : (s.pc t).gives = true → 0 < (s.thr t).depth) : ∀ u, (s'.thr u).Counted := by
  have set (m : Mem) (th : Thread) (ht : th.Counted) (u : T) : ((s.set m t th).thr u).Counted := by
    by_cases hut : u = t
    · subst hut
      rw [set_thr_self]
      exact ht
    · rw [set_thr_of_ne s m th hut]
      exact hc u
  cases h with
  | call op idle allowed => exact set _ _ ((hc t).goto (by unfold Sys.pc at idle; rw [idle]; rfl))
  | run m th h => exact set _ _ (h.counted (hc t) hg)
  | woken a h => exact set _ _ ((hc t).goto (owed_woken h))
  | woke a h => exact set _ _ ((hc t).goto (owed_afterWake h))

theorem gives_of_sleepsOn {a : Addr} {pc : Pc} (h : pc.sleepsOn = some a) : pc.gives = false := by
  cases pc with
  | enter job p => rfl
  | normalLock p => rfl
  | asleep mtype => rfl
  | _ => simp [Pc.sleepsOn] at h

theorem counted_step (hc : ∀ u, (s.thr u).Counted) (h : Step ids client s t s')
    (hg : (s.pc t).gives = true → 0 < (s.thr t).depth) : ∀ u, (s'.thr u).Counted := by
  cases h.alone with
  | inl one => exact counted_alone hc one hg
  | inr two =>
      obtain ⟨s₁, u, a, one, two, hu⟩ := two
      refine counted_alone (counted_alone hc one hg) two fun g => ?_
      rw [gives_of_sleepsOn hu] at g
      contradiction

end Bionic.Mutex
