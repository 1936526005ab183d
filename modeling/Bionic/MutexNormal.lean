import Bionic.RecursiveLock
import Bionic.MutexWord

/-! # NORMAL mutexes

On a NORMAL mutex the three functions are the three-state futex lock on
`mutex->value` itself: `normalView` reads its state off the system, with the holders
as the owners of the lock, and as long as only the holder unlocks every step is a
step of the protocol (`NormalInv.step`).  Mutual exclusion and the range of the word
are then the protocol's own (`normal_mutex_exclusion`), and so is the wake-up of its
sleepers (`normal_not_lost`). -/

namespace Bionic.Mutex

open FutexLock (Phase View Move)

variable {T : Type*} [DecidableEq T]
variable {ids : KernelIds T} {s s' : Sys T} {t : T}

/-! ### The protocol on `mutex->value` -/

/-- The phase of a thread in the protocol on `mutex->value`. -/
def Pc.normalPhase : Pc → Phase
  | .normalLock p => p.phase
  | .normalTrylock => .attempt
  | .normalUnlock p => p.phase
  | _ => .out

/-- The program counters of the branch `mtype == MUTEX_TYPE_NORMAL`. -/
def Pc.Plain : Pc → Prop
  | .idle | .typeOf _ | .normalLock _ | .normalTrylock | .normalUnlock _ | .done _ _ => True
  | _ => False

def normalView (s : Sys T) : FutexLock.State T :=
  ⟨s.mem.value, fun t => decide (0 < (s.thr t).depth), fun t => (s.pc t).normalPhase⟩

/-- What holds of one thread besides the protocol. -/
structure NormalThread (m : Mem) (th : Thread) : Prop where
  word : m.value = 0 ∨ m.value = 1 ∨ m.value = 2
  plain : th.pc.Plain
  depth_le : th.depth ≤ 1
  free : m.value = 0 → th.depth = 0
  unlocking : th.pc.normalPhase = .dec ∨ th.pc.normalPhase = .store → 0 < th.depth
  asked : th.pc = .typeOf .unlock → 0 < th.depth

/-- What a step of `exec` keeps of one thread. -/
structure NormalStep (m : Mem) (th : Thread) (m' : Mem) (th' : Thread) : Prop where
  move : Move ⟨m.value, decide (0 < th.depth), th.pc.normalPhase⟩
    ⟨m'.value, decide (0 < th'.depth), th'.pc.normalPhase⟩
  plain : th'.pc.Plain
  depth_le : th'.depth ≤ 1
  asked : th'.pc ≠ .typeOf .unlock

theorem afterType_normal (op : Op) :
    afterType MUTEX_TYPE_NORMAL op =
      match op with
      | .lock => .normalLock .cas
      | .trylock => .normalTrylock
      | .unlock => .normalUnlock .dec := by
  cases op <;> rfl

theorem NormalThread.mtype {m : Mem} {th : Thread} (hn : NormalThread m th) :
    m.value &&& MUTEX_TYPE_MASK = MUTEX_TYPE_NORMAL := by
  cases hn.word with
  | inl h => rw [h]; rfl
  | inr h =>
      cases h with
      | inl h => rw [h]; rfl
      | inr h => rw [h]; rfl

/-- `_normal_lock` returns only to a thread that found the word `0`. -/
theorem normalLock_free {w w' : Word} {p : LockPhase} (h : normalLock w p = some (w', none)) :
    w = 0 := by
  cases p with
  | cas =>
      simp only [normalLock] at h
      split at h
      next hw => exact hw
      next hw => simp at h
  | swap =>
      simp only [normalLock] at h
      split at h
      next hw => exact hw
      next hw => simp at h
  | wait =>
      simp only [normalLock] at h
      split at h <;> simp at h
  | asleep => simp [normalLock] at h

theorem normalUnlock_phase {w w' : Word} {p : UnlockPhase} {o : Option UnlockPhase}
    (h : normalUnlock w p = some (w', o)) : p.phase = .dec ∨ p.phase = .store := by
  cases p with
  | dec => exact .inl rfl
  | store => exact .inr rfl
  | wake => simp [normalUnlock] at h

theorem normalUnlock_owns {w w' : Word} {p : UnlockPhase} {o : Option UnlockPhase}
    (h : normalUnlock w p = some (w', o)) : p.owns = true := by
  cases p with
  | wake => simp [normalUnlock] at h
  | _ => rfl

theorem Run.normal {tid : Word} {m m' : Mem} {th th' : Thread} (h : Run tid m th m' th')
    (hn : NormalThread m th) : NormalStep m th m' th' := by
  have giving (p : UnlockPhase) (w : Word) (o : Option UnlockPhase)
      (pc : th.pc = .normalUnlock p) (h : normalUnlock m.value p = some (w, o)) :
      th.depth = 1 := by
    have := hn.unlocking (by rw [pc]; exact normalUnlock_phase h)
    have := hn.depth_le
    omega
  have outside (pc : Pc) (e : th.pc = pc) : ¬ pc.Plain → False := fun h => h (e ▸ hn.plain)
  cases h with
  | typeOf op pc =>
      rw [hn.mtype, afterType_normal]
      cases op with
      | lock => exact ⟨by rw [pc]; exact .lock, trivial, hn.depth_le, by simp⟩
      | trylock => exact ⟨by rw [pc]; exact .tryLock, trivial, hn.depth_le, by simp⟩
      | unlock =>
          refine ⟨?_, trivial, hn.depth_le, by simp⟩
          rw [pc, goto_depth, decide_eq_true (hn.asked pc)]
          exact .unlock
  | lockMore p p' w pc h =>
      exact ⟨by rw [pc]; exact normalLock_more _ h, trivial, hn.depth_le, by simp⟩
  | lockDone p w pc h =>
      have h0 := hn.free (normalLock_free h)
      refine ⟨?_, trivial, by rw [took_depth, h0], by simp⟩
      rw [pc, took_depth, decide_eq_true (Nat.succ_pos th.depth)]
      exact normalLock_done _ h
  | tryDone pc h =>
      have h0 := hn.free h
      refine ⟨?_, trivial, by rw [took_depth, h0], by simp⟩
      rw [pc, took_depth, decide_eq_true (Nat.succ_pos th.depth), h]
      exact .attemptTaken
  | tryBusy pc h =>
      exact ⟨by rw [pc]; exact .attemptBusy h, trivial, hn.depth_le, by simp⟩
  | unlockDone p w pc h =>
      have h1 := giving p w none pc h
      refine ⟨?_, trivial, by rw [gave_depth, h1]; decide, by simp⟩
      rw [pc, gave_depth, h1]
      exact normalUnlock_done _ h
  | unlockMore p w pc h =>
      have h1 := giving p w _ pc h
      have ho := normalUnlock_owns h
      have move := normalUnlock_more h
      rw [ho] at move
      exact ⟨by rw [pc, goto_depth, h1]; exact move, trivial, hn.depth_le, by simp⟩
  | unlockStored p w pc h =>
      have h1 := giving p w _ pc h
      have ho := normalUnlock_owns h
      have move := normalUnlock_more h
      rw [ho] at move
      refine ⟨?_, trivial, by rw [gave_depth, h1]; decide, by simp⟩
      rw [pc, gave_depth, h1]
      exact move
  | done op ret pc =>
      refine ⟨?_, by rw [returned_pc]; trivial, by rw [returned_depth]; exact hn.depth_le, by simp⟩
      rw [pc, returned_depth, returned_pc]
      exact .stay
  | owner op mtype pc => exact (outside _ pc id).elim
  | enterMore job p p' w pc h => exact (outside _ pc id).elim
  | enterDone job p w pc h => exact (outside _ pc id).elim
  | readStore job newv oldv pc h => exact (outside _ pc id).elim
  | readSkip job oldv pc h => exact (outside _ pc id).elim
  | write job newv oldv pc => exact (outside _ pc id).elim
  | leaveMore job oldv p p' w pc h => exact (outside _ pc id).elim
  | leaveDone job oldv p w pc h => exact (outside _ pc id).elim
  | waitSleep mtype oldv pc h => exact (outside _ pc id).elim
  | waitAgain mtype oldv pc h => exact (outside _ pc id).elim

/-! ### The invariant of the system -/

/-- What holds of each thread by itself. -/
structure NormalThreads (s : Sys T) : Prop where
  plain : ∀ t, (s.pc t).Plain
  depth_le : ∀ t, (s.thr t).depth ≤ 1
  asked : ∀ t, s.pc t = .typeOf .unlock → 0 < (s.thr t).depth
  counted : ∀ t, (s.thr t).Counted

/-- The invariant of a NORMAL mutex. -/
structure NormalInv (s : Sys T) : Prop extends NormalThreads s where
  lock : FutexLock.Inv (normalView s)

omit [DecidableEq T] in
theorem normalInv_start : NormalInv (start T .normal) where
  lock := FutexLock.inv_init
  plain := fun _ => trivial
  depth_le := fun _ => Nat.zero_le 1
  asked := by simp [start, Sys.pc]
  counted := by simp [start, Thread.Counted, Pc.owed]

omit [DecidableEq T] in
theorem NormalInv.unlocking (hi : NormalInv s)
    (h : (s.pc t).normalPhase = .dec ∨ (s.pc t).normalPhase = .store) : 0 < (s.thr t).depth :=
  of_decide_eq_true (hi.lock.unlocking t h)

omit [DecidableEq T] in
theorem NormalInv.thread (hi : NormalInv s) (t : T) : NormalThread s.mem (s.thr t) where
  word := hi.lock.word_cases
  plain := hi.plain t
  depth_le := hi.depth_le t
  free := by
    intro h0
    have := of_decide_eq_false (hi.lock.free h0 t)
    omega
  unlocking := hi.unlocking
  asked := hi.asked t

omit [DecidableEq T] in
theorem NormalInv.gives (hi : NormalInv s) (h : (s.pc t).gives = true) : 0 < (s.thr t).depth := by
  have plain := hi.plain t
  cases hp : s.pc t with
  | normalUnlock p =>
      apply hi.unlocking
      cases p with
      | dec => rw [hp]; exact .inl rfl
      | store => rw [hp]; exact .inr rfl
      | wake => simp [hp, Pc.gives] at h
  | write job newv oldv => rw [hp] at plain; exact plain.elim
  | _ => simp [hp, Pc.gives] at h

omit [DecidableEq T] in
theorem normalView_phase (s : Sys T) (t : T) :
    (normalView s).phase t = (s.pc t).normalPhase := rfl

theorem normal_view_self (m : Mem) (th : Thread) : (normalView (s.set m t th)).view t =
    ⟨m.value, decide (0 < th.depth), th.pc.normalPhase⟩ := by
  simp only [FutexLock.State.view, normalView, set_pc_self, set_thr_self, set_mem]

theorem normal_agreeOff (s : Sys T) (m : Mem) (t : T) (th : Thread) :
    FutexLock.AgreeOff (normalView s) (normalView (s.set m t th)) (· = t) := by
  intro u hu
  simp only [normalView, set_thr_of_ne s m th hu, set_pc_of_ne s m th hu, and_self]

theorem NormalThreads.set (hi : NormalThreads s) (m : Mem) {th : Thread} (plain : th.pc.Plain)
    (depth_le : th.depth ≤ 1) (asked : th.pc = .typeOf .unlock → 0 < th.depth)
    (counted : th.Counted) : NormalThreads (s.set m t th) := by
  constructor <;> intro u <;> by_cases hu : u = t
  · subst hu; rw [set_pc_self]; exact plain
  · rw [set_pc_of_ne s m th hu]; exact hi.plain u
  · subst hu; rw [set_thr_self]; exact depth_le
  · rw [set_thr_of_ne s m th hu]; exact hi.depth_le u
  · subst hu; rw [set_pc_self, set_thr_self]; exact asked
  · rw [set_pc_of_ne s m th hu, set_thr_of_ne s m th hu]; exact hi.asked u
  · subst hu; rw [set_thr_self]; exact counted
  · rw [set_thr_of_ne s m th hu]; exact hi.counted u

theorem NormalThreads.goto (hi : NormalThreads s) (t : T) (pc : Pc) (plain : pc.Plain)
    (asked : pc = .typeOf .unlock → 0 < (s.thr t).depth) (owed : pc.owed = (s.pc t).owed) :
    NormalThreads (s.set s.mem t ((s.thr t).goto pc)) :=
  hi.set s.mem plain (hi.depth_le t) asked ((hi.counted t).goto owed)

theorem normal_sleepsOn {pc : Pc} {a : Addr} (plain : pc.Plain) (h : pc.sleepsOn = some a) :
    a = .value ∧ pc = .normalLock .asleep := by
  cases pc with
  | normalLock p =>
      cases p with
      | asleep => simp [Pc.sleepsOn] at h; exact ⟨h.symm, rfl⟩
      | _ => simp [Pc.sleepsOn] at h
  | enter job p => exact plain.elim
  | asleep mtype => exact plain.elim
  | _ => simp [Pc.sleepsOn] at h

theorem normal_wakes {pc : Pc} {a : Addr} (plain : pc.Plain) (h : pc.wakes = some a) :
    a = .value ∧ pc = .normalUnlock .wake := by
  cases pc with
  | normalUnlock p =>
      cases p with
      | wake => simp [Pc.wakes] at h; exact ⟨h.symm, rfl⟩
      | _ => simp [Pc.wakes] at h
  | leave job oldv p => exact plain.elim
  | wake => exact plain.elim
  | _ => simp [Pc.wakes] at h

theorem normalPhase_asleep {pc : Pc} (h : pc.normalPhase = .asleep) : pc = .normalLock .asleep := by
  cases pc with
  | normalLock p => cases p <;> first | rfl | simp [Pc.normalPhase, LockPhase.phase] at h
  | normalUnlock p => cases p <;> simp [Pc.normalPhase, UnlockPhase.phase] at h
  | _ => simp [Pc.normalPhase] at h

theorem NormalInv.step (hi : NormalInv s) (h : Step ids holderUnlocks s t s') : NormalInv s' := by
  have threads := hi.toNormalThreads
  cases h with
  | call op idle allowed =>
      refine ⟨threads.goto t _ trivial (fun e => allowed (by simpa using e)) (by rw [idle]; rfl), ?_⟩
      apply hi.lock.move (t := t) _ (normal_agreeOff s _ t _)
      rw [normal_view_self]
      show Move ⟨s.mem.value, _, (s.pc t).normalPhase⟩ _
      rw [idle]
      exact .stay
  | exec m th h =>
      have step := (run_of_exec h).normal (hi.thread t)
      have counted := (run_of_exec h).counted (hi.counted t) hi.gives
      refine ⟨threads.set m step.plain step.depth_le (fun e => absurd e step.asked) counted, ?_⟩
      apply hi.lock.move (t := t) _ (normal_agreeOff s _ t _)
      rw [normal_view_self]
      exact step.move
  | spurious a h =>
      obtain ⟨rfl, pc⟩ := normal_sleepsOn (hi.plain t) h
      rw [pc]
      refine ⟨threads.goto t _ trivial (by simp [Pc.woken]) (by rw [pc]; rfl), ?_⟩
      apply hi.lock.move (t := t) _ (normal_agreeOff s _ t _)
      rw [normal_view_self]
      show Move ⟨s.mem.value, _, (s.pc t).normalPhase⟩ _
      rw [pc]
      exact .spurious
  | wakeNone a ht none =>
      obtain ⟨rfl, pc⟩ := normal_wakes (hi.plain t) ht
      rw [pc]
      refine ⟨threads.goto t _ trivial (by simp [Pc.afterWake]) (by rw [pc]; rfl), ?_⟩
      apply hi.lock.step
      refine .wakeNone t (by rw [normalView_phase, pc]; rfl) ?_ rfl ?_ ?_ (normal_agreeOff s _ t _)
      · intro u hu
        have awake := none u
        rw [normalPhase_asleep hu] at awake
        exact awake rfl
      · funext v
        by_cases hv : v = t
        · subst hv; simp only [normalView, set_thr_self, goto_depth]
        · exact (normal_agreeOff s _ t _ v hv).1
      · rw [normalView_phase, set_pc_self]; rfl
  | wakeOne a u ht hu =>
      obtain ⟨rfl, pct⟩ := normal_wakes (hi.plain t) ht
      obtain ⟨-, pcu⟩ := normal_sleepsOn (hi.plain u) hu
      have hut := ne_of_wakes ht hu
      rw [pct, pcu]
      have first := threads.goto t (.done .unlock .ok) trivial (by simp) (by rw [pct]; rfl)
      have second := first.goto u (.normalLock .swap) trivial (by simp)
        (by rw [set_pc_of_ne _ _ _ hut, pcu]; rfl)
      rw [set_mem, set_thr_of_ne _ _ _ hut] at second
      refine ⟨second, ?_⟩
      apply hi.lock.step
      refine .wakeOne t u (by rw [normalView_phase, pct]; rfl) (by rw [normalView_phase, pcu]; rfl)
        rfl ?_ ?_ ?_ ?_
      · funext v
        by_cases hvu : v = u
        · subst hvu; simp only [normalView, set_thr_self, goto_depth]
        · by_cases hvt : v = t
          · subst hvt
            simp only [normalView, set_thr_of_ne _ _ _ hvu, set_thr_self, goto_depth]
          · simp only [normalView, set_thr_of_ne _ _ _ hvu, set_thr_of_ne _ _ _ hvt]
      · rw [normalView_phase, set_pc_of_ne _ _ _ hut.symm, set_pc_self]; rfl
      · rw [normalView_phase, set_pc_self]; rfl
      · intro v hv
        rw [not_or] at hv
        simp only [normalView, set_thr_of_ne _ _ _ hv.1, set_thr_of_ne _ _ _ hv.2,
          set_pc_of_ne _ _ _ hv.1, set_pc_of_ne _ _ _ hv.2, and_self]

theorem NormalInv.reach {ok : Sys T → Prop} (h : Reach ids holderUnlocks ok .normal s) :
    NormalInv s := by
  induction h with
  | start => exact normalInv_start
  | step _ step _ ih => exact ih.step step

/-! ### What it gives -/

/-- On a NORMAL mutex that only its holders unlock there is one holder at most, along
every run, and `mutex->value` is its lock state, `0`, `1` or `2`.  Outside the three
functions a thread is a holder exactly when more of its locks than of its unlocks
have returned `0`. -/
theorem normal_mutex_exclusion (h : Reach ids holderUnlocks (fun _ => True) .normal s) :
    (∀ t u, s.Holder t → s.Holder u → t = u) ∧
      (s.mem.value &&& 3 = 0 ∨ s.mem.value &&& 3 = 1 ∨ s.mem.value &&& 3 = 2) ∧
      (s.mem.value = 0 ∨ s.mem.value = 1 ∨ s.mem.value = 2) ∧
      ∀ t, s.pc t = .idle → (s.Holder t ↔ (s.thr t).unlocks < (s.thr t).locks) := by
  have hi := NormalInv.reach h
  refine ⟨?_, ?_, hi.lock.word_cases, ?_⟩
  · intro t u ht hu
    exact hi.lock.unique t u (decide_eq_true ht) (decide_eq_true hu)
  · have cases : s.mem.value = 0 ∨ s.mem.value = 1 ∨ s.mem.value = 2 := hi.lock.word_cases
    cases cases with
    | inl h => rw [h]; exact .inl rfl
    | inr h =>
        cases h with
        | inl h => rw [h]; exact .inr (.inl rfl)
        | inr h => rw [h]; exact .inr (.inr rfl)
  · intro t idle
    exact (hi.counted t).holder_iff idle

/-- Thread 0 has locked a NORMAL mutex, thread 1 sleeps on it. -/
def normalContended : Sys (Fin 2) :=
  schedule twoThreads
    ((schedule twoThreads ((start (Fin 2) .normal).call 0 .lock) [0, 0, 0]).call 1 .lock)
    [1, 1, 1, 1]

theorem normal_mutex_exclusion_contended :
    (normalContended.Holder 0 ∧ normalContended.pc 1 = .normalLock .asleep) ∧
      ∀ u, normalContended.Holder u → 0 = u := by
  have reach : Reach twoThreads holderUnlocks (fun _ => True) .normal normalContended := by
    refine Reach.schedule ?_ _ fun _ _ => trivial
    apply Reach.step (t := 1) _ (.call .lock (by decide) (by simp [holderUnlocks])) trivial
    refine Reach.schedule ?_ _ fun _ _ => trivial
    exact Reach.start.step (.call .lock (by decide) (by simp [holderUnlocks])) trivial
  have held : normalContended.Holder 0 := by decide
  exact ⟨⟨held, by decide⟩, fun u hu => (normal_mutex_exclusion reach).1 0 u held hu⟩

omit [DecidableEq T] in
/-- A sleeper on a free NORMAL mutex has a thread awake that swaps `2` in or that is
before its `__futex_wake`. -/
theorem NormalInv.not_lost (hi : NormalInv s) (free : s.mem.value = 0) {u : T}
    (hu : s.pc u = .normalLock .asleep) :
    ∃ t, s.pc t = .normalLock .swap ∨ s.pc t = .normalUnlock .wake := by
  obtain ⟨t, ht⟩ := hi.lock.not_lost free (u := u) (by rw [normalView_phase, hu]; rfl)
  refine ⟨t, ?_⟩
  rw [normalView_phase] at ht
  cases hp : s.pc t with
  | normalLock p => cases p <;> simp [hp, Pc.normalPhase, LockPhase.phase] at ht ⊢
  | normalUnlock p => cases p <;> simp [hp, Pc.normalPhase, UnlockPhase.phase] at ht ⊢
  | _ => simp [hp, Pc.normalPhase] at ht

end Bionic.Mutex
