import Bionic.FutexLock
import Bionic.MutexStep

/-! # `__recursive_lock`

`_normal_lock` and `_normal_unlock` follow the protocol of the three-state futex lock
(`normalLock_more`, `normalLock_done`, `normalUnlock_more`, `normalUnlock_done`).
Every update of a recursive or an errorcheck mutex runs between them on the global
`__recursive_lock`: `recursiveView` reads the state of that lock off the program
counters and keeps `FutexLock.Inv` (`recursive_inv_step`), whatever the type of the
mutex is and whatever its callers do. -/

namespace Bionic.Mutex

open FutexLock (Phase View Move)

variable {T : Type*} [DecidableEq T]
variable {ids : KernelIds T} {client : Client T} {s s' : Sys T} {t : T}

/-! ### The futex lock behind `_normal_lock` and `_normal_unlock` -/

def LockPhase.phase : LockPhase → Phase
  | .cas => .cas
  | .swap => .swap
  | .wait => .wait
  | .asleep => .asleep

def UnlockPhase.phase : UnlockPhase → Phase
  | .dec => .dec
  | .store => .store
  | .wake => .wake

theorem normalLock_more {w w' : Word} {p p' : LockPhase} (o : Bool)
    (h : normalLock w p = some (w', some p')) : Move ⟨w, o, p.phase⟩ ⟨w', o, p'.phase⟩ := by
  cases p with
  | cas =>
      simp only [normalLock] at h
      split at h
      · simp at h
      · cases h; exact .casBusy ‹_›
  | swap =>
      simp only [normalLock] at h
      split at h
      · simp at h
      · cases h; exact .swapBusy ‹_›
  | wait =>
      simp only [normalLock] at h
      split at h
      next hw => cases h; subst hw; exact .sleep
      next hw => cases h; exact .again hw
  | asleep => simp [normalLock] at h

theorem normalLock_done {w w' : Word} {p : LockPhase} (o : Bool)
    (h : normalLock w p = some (w', none)) : Move ⟨w, o, p.phase⟩ ⟨w', true, .out⟩ := by
  cases p with
  | cas =>
      simp only [normalLock] at h
      split at h
      next hw => cases h; subst hw; exact .casTaken
      next hw => simp at h
  | swap =>
      simp only [normalLock] at h
      split at h
      next hw => cases h; subst hw; exact .swapTaken
      next hw => simp at h
  | wait =>
      simp only [normalLock] at h
      split at h <;> simp at h
  | asleep => simp [normalLock] at h

theorem normalUnlock_done {w w' : Word} {p : UnlockPhase} (o : Bool)
    (h : normalUnlock w p = some (w', none)) : Move ⟨w, o, p.phase⟩ ⟨w', false, .out⟩ := by
  cases p with
  | dec =>
      simp only [normalUnlock] at h
      split at h
      next hw => cases h; subst hw; exact .decLast
      next hw => simp at h
  | store => simp [normalUnlock] at h
  | wake => simp [normalUnlock] at h

/-- The owner loses the lock with the store of `0`, before the wake-up call. -/
def UnlockPhase.owns : UnlockPhase → Bool
  | .wake => false
  | _ => true

theorem normalUnlock_more {w w' : Word} {p p' : UnlockPhase}
    (h : normalUnlock w p = some (w', some p')) :
    Move ⟨w, p.owns, p.phase⟩ ⟨w', p'.owns, p'.phase⟩ := by
  cases p with
  | dec =>
      simp only [normalUnlock] at h
      split at h
      next hw => simp at h
      next hw => cases h; exact .decMore hw
  | store =>
      simp only [normalUnlock] at h
      cases h
      exact .store
  | wake => simp [normalUnlock] at h

/-! ### `__recursive_lock` -/

/-- The phase of a thread in the protocol of `__recursive_lock`. -/
def Pc.recursivePhase : Pc → Phase
  | .enter _ p => p.phase
  | .leave _ _ p => p.phase
  | _ => .out

/-- The thread owns `__recursive_lock`. -/
def Pc.critical : Pc → Bool
  | .read _ => true
  | .write _ _ _ => true
  | .leave _ _ p => p.owns
  | _ => false

/-- What `__recursive_lock` and the threads in it look like. -/
def recursiveView (s : Sys T) : FutexLock.State T :=
  ⟨s.mem.recursiveLock, fun t => (s.pc t).critical, fun t => (s.pc t).recursivePhase⟩

/-- A program counter outside the code of `__recursive_lock`. -/
def Pc.Outside (pc : Pc) : Prop := pc.critical = false ∧ pc.recursivePhase = .out

theorem afterJob_outside (oldv : Word) (job : Job) : (afterJob oldv job).Outside := by
  cases job <;> unfold afterJob <;> dsimp only <;> (try split) <;> exact ⟨rfl, rfl⟩

theorem afterType_outside (mtype : Word) (op : Op) : (afterType mtype op).Outside := by
  cases op <;> unfold afterType <;> dsimp only <;> split <;> exact ⟨rfl, rfl⟩

/-- After the look at the owner a thread is outside, or it enters. -/
theorem afterOwner_cases (mtype : Word) (own : Bool) (op : Op) :
    (afterOwner mtype own op).Outside ∨ ∃ job, afterOwner mtype own op = .enter job .cas := by
  cases op <;> cases own <;> simp only [afterOwner, Bool.false_eq_true, if_true, if_false]
  · exact .inr ⟨_, rfl⟩
  · split
    · exact .inl ⟨rfl, rfl⟩
    · exact .inr ⟨_, rfl⟩
  · exact .inr ⟨_, rfl⟩
  · split
    · exact .inl ⟨rfl, rfl⟩
    · exact .inr ⟨_, rfl⟩
  · exact .inl ⟨rfl, rfl⟩
  · exact .inr ⟨_, rfl⟩

theorem Pc.Outside.stay {pc pc' : Pc} (h : pc.Outside) (h' : pc'.Outside) (w : Word) :
    Move ⟨w, pc.critical, pc.recursivePhase⟩ ⟨w, pc'.critical, pc'.recursivePhase⟩ := by
  rw [h.1, h.2, h'.1, h'.2]
  exact .stay

/-- Each step of `exec` is a move of the protocol. -/
theorem Run.recursive_move {tid : Word} {m m' : Mem} {th th' : Thread}
    (h : Run tid m th m' th') :
    Move ⟨m.recursiveLock, th.pc.critical, th.pc.recursivePhase⟩
      ⟨m'.recursiveLock, th'.pc.critical, th'.pc.recursivePhase⟩ := by
  cases h with
  | typeOf op pc =>
      rw [pc]
      exact Pc.Outside.stay ⟨rfl, rfl⟩ (afterType_outside _ op) _
  | owner op mtype pc =>
      rw [pc, goto_pc]
      cases afterOwner_cases mtype (tid == mutexOwner m.value) op with
      | inl out => exact Pc.Outside.stay ⟨rfl, rfl⟩ out _
      | inr enter =>
          obtain ⟨job, e⟩ := enter
          rw [e]
          exact .lock
  | lockMore p p' w pc h => rw [pc]; exact .stay
  | lockDone p w pc h => rw [pc]; exact .stay
  | tryDone pc h => rw [pc]; exact .stay
  | tryBusy pc h => rw [pc]; exact .stay
  | unlockDone p w pc h => rw [pc]; exact .stay
  | unlockMore p w pc h => rw [pc]; exact .stay
  | unlockStored p w pc h => rw [pc]; exact .stay
  | enterMore job p p' w pc h => rw [pc]; exact normalLock_more false h
  | enterDone job p w pc h => rw [pc]; exact normalLock_done false h
  | readStore job newv oldv pc h => rw [pc]; exact .stay
  | readSkip job oldv pc h => rw [pc]; exact .unlock
  | write job newv oldv pc => rw [pc, wrote_pc]; exact .unlock
  | leaveMore job oldv p p' w pc h => rw [pc]; exact normalUnlock_more h
  | leaveDone job oldv p w pc h =>
      rw [pc, goto_pc, (afterJob_outside oldv job).1, (afterJob_outside oldv job).2]
      exact normalUnlock_done _ h
  | waitSleep mtype oldv pc h => rw [pc]; exact .stay
  | waitAgain mtype oldv pc h => rw [pc]; exact .lock
  | done op ret pc => rw [pc, returned_pc]; exact .stay

theorem woken_move {a : Addr} {pc : Pc} (h : pc.sleepsOn = some a) (w : Word) :
    Move ⟨w, pc.critical, pc.recursivePhase⟩
      ⟨w, pc.woken.critical, pc.woken.recursivePhase⟩ := by
  cases pc with
  | normalLock p =>
      cases p with
      | asleep => exact .stay
      | _ => simp [Pc.sleepsOn] at h
  | enter job p =>
      cases p with
      | asleep => exact .spurious
      | _ => simp [Pc.sleepsOn] at h
  | asleep mtype => exact .lock
  | _ => simp [Pc.sleepsOn] at h

theorem woke_move {pc : Pc} (h : pc.wakes = some .value) (w : Word) :
    Move ⟨w, pc.critical, pc.recursivePhase⟩
      ⟨w, pc.afterWake.critical, pc.afterWake.recursivePhase⟩ := by
  cases pc with
  | normalUnlock p =>
      cases p with
      | wake => exact .stay
      | _ => simp [Pc.wakes] at h
  | wake => exact .stay
  | leave job oldv p => cases p <;> simp [Pc.wakes] at h
  | _ => simp [Pc.wakes] at h

theorem recursive_agreeOff (s : Sys T) (m : Mem) (t : T) (th : Thread) :
    FutexLock.AgreeOff (recursiveView s) (recursiveView (s.set m t th)) (· = t) := by
  intro u hu
  simp only [recursiveView, set_pc_of_ne s m th hu, and_self]

/-- A thread that moves alone keeps the invariant, unless it leaves the wake-up call of
`_recursive_unlock()`. -/
theorem recursive_inv_alone (hi : FutexLock.Inv (recursiveView s)) (h : Alone ids client s t s')
    (hw : (s.pc t).wakes ≠ some .recursiveLock) : FutexLock.Inv (recursiveView s') := by
  have view (m : Mem) (th : Thread) : (recursiveView (s.set m t th)).view t =
      ⟨m.recursiveLock, th.pc.critical, th.pc.recursivePhase⟩ := by
    simp only [FutexLock.State.view, recursiveView, set_pc_self, set_mem]
  cases h with
  | call op idle allowed =>
      apply hi.move (t := t) _ (recursive_agreeOff s _ t _)
      rw [view]
      exact Pc.Outside.stay (by rw [idle]; exact ⟨rfl, rfl⟩) ⟨rfl, rfl⟩ _
  | run m th h =>
      apply hi.move (t := t) _ (recursive_agreeOff s _ t _)
      rw [view]
      exact h.recursive_move
  | woken a h =>
      apply hi.move (t := t) _ (recursive_agreeOff s _ t _)
      rw [view]
      exact woken_move h _
  | woke a h =>
      cases a with
      | recursiveLock => exact absurd h hw
      | value =>
          apply hi.move (t := t) _ (recursive_agreeOff s _ t _)
          rw [view]
          exact woke_move h _

/-- The threads in the queue of `__recursive_lock`. -/
theorem sleepsOn_recursive_iff (pc : Pc) :
    pc.sleepsOn = some .recursiveLock ↔ pc.recursivePhase = .asleep := by
  cases pc with
  | normalLock p => cases p <;> simp [Pc.sleepsOn, Pc.recursivePhase]
  | enter job p => cases p <;> simp [Pc.sleepsOn, Pc.recursivePhase, LockPhase.phase]
  | leave job oldv p => cases p <;> simp [Pc.sleepsOn, Pc.recursivePhase, UnlockPhase.phase]
  | _ => simp [Pc.sleepsOn, Pc.recursivePhase]

theorem wakes_recursive {pc : Pc} (h : pc.wakes = some .recursiveLock) :
    ∃ job oldv, pc = .leave job oldv .wake := by
  cases pc with
  | normalUnlock p => cases p <;> simp [Pc.wakes] at h
  | leave job oldv p =>
      cases p with
      | wake => exact ⟨job, oldv, rfl⟩
      | _ => simp [Pc.wakes] at h
  | _ => simp [Pc.wakes] at h

theorem woken_recursive {pc : Pc} (h : pc.sleepsOn = some .recursiveLock) :
    pc.critical = false ∧ pc.woken.critical = false ∧ pc.woken.recursivePhase = .swap := by
  cases pc with
  | normalLock p => cases p <;> simp [Pc.sleepsOn] at h
  | enter job p =>
      cases p with
      | asleep => exact ⟨rfl, rfl, rfl⟩
      | _ => simp [Pc.sleepsOn] at h
  | _ => simp [Pc.sleepsOn] at h

/-- `__recursive_lock` keeps its invariant along every step of every mutex. -/
theorem recursive_inv_step (hi : FutexLock.Inv (recursiveView s)) (h : Step ids client s t s') :
    FutexLock.Inv (recursiveView s') := by
  by_cases hw : (s.pc t).wakes = some .recursiveLock
  · obtain ⟨job, oldv, pc⟩ := wakes_recursive hw
    have out := afterJob_outside oldv job
    cases h with
    | call op idle allowed => rw [idle] at pc; contradiction
    | exec m th h =>
        unfold Sys.pc at pc
        simp [exec, pc, normalUnlock] at h
    | spurious a h => rw [pc] at h; simp [Pc.sleepsOn] at h
    | wakeOne a u ht hu =>
        obtain rfl : a = .recursiveLock := by rw [ht] at hw; simpa using hw
        have hut := ne_of_wakes ht hu
        have hwok := woken_recursive hu
        have owns_u : (recursiveView s).owns u = false := hwok.1
        have owns_t : (recursiveView s).owns t = false := by
          simp only [recursiveView, pc]; rfl
        apply hi.step
        refine .wakeOne t u ?_ ((sleepsOn_recursive_iff _).mp hu) rfl ?_ ?_ ?_ ?_
        · simp only [recursiveView, pc]; rfl
        · funext v
          by_cases hvu : v = u
          · subst hvu
            rw [owns_u]
            simp only [recursiveView, set_pc_self, goto_pc]
            exact hwok.2.1
          · by_cases hvt : v = t
            · subst hvt
              rw [owns_t]
              simp only [recursiveView, set_pc_of_ne _ _ _ hvu, set_pc_self, goto_pc, pc]
              exact out.1
            · simp only [recursiveView, set_pc_of_ne _ _ _ hvu, set_pc_of_ne _ _ _ hvt]
        · simp only [recursiveView, set_pc_of_ne _ _ _ hut.symm, set_pc_self, goto_pc, pc]
          exact out.2
        · simp only [recursiveView, set_pc_self, goto_pc]
          exact hwok.2.2
        · intro v hv
          rw [not_or] at hv
          simp only [recursiveView, set_pc_of_ne _ _ _ hv.1, set_pc_of_ne _ _ _ hv.2, and_self]
    | wakeNone a ht none =>
        obtain rfl : a = .recursiveLock := by rw [ht] at hw; simpa using hw
        apply hi.step
        refine .wakeNone t ?_ ?_ rfl ?_ ?_ (recursive_agreeOff s _ t _)
        · simp only [recursiveView, pc]; rfl
        · exact fun u hu => none u ((sleepsOn_recursive_iff _).mpr hu)
        · funext v
          by_cases hvt : v = t
          · subst hvt
            simp only [recursiveView, set_pc_self, goto_pc, pc]
            exact out.1
          · simp only [recursiveView, set_pc_of_ne _ _ _ hvt]
        · simp only [recursiveView, set_pc_self, goto_pc, pc]
          exact out.2
  · cases h.alone with
    | inl one => exact recursive_inv_alone hi one hw
    | inr two =>
        obtain ⟨s₁, u, a, one, two, hu⟩ := two
        apply recursive_inv_alone (recursive_inv_alone hi one hw) two
        simp [wakes_of_sleepsOn hu]

omit [DecidableEq T] in
theorem recursive_inv_start (ty : MutexType) : FutexLock.Inv (recursiveView (start T ty)) :=
  FutexLock.inv_init

theorem recursive_inv_reach {ok : Sys T → Prop} {ty : MutexType}
    (h : Reach ids client ok ty s) : FutexLock.Inv (recursiveView s) := by
  induction h with
  | start => exact recursive_inv_start ty
  | step _ step _ ih => exact recursive_inv_step ih step

end Bionic.Mutex
