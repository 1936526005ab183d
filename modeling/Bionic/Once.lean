import Bionic.RecursiveLock

/-! # `pthread_once` (`libc/bionic/pthread.c`)

Any number of threads call `pthread_once` on any set of controls.  One static `once_lock` serves all of
them, taken and released by `_normal_lock` and `_normal_unlock`; each step of `exec` is one access to
`*once_control` or to the word of `once_lock`, or the start or the end of an `init_routine`.

The routines call no `pthread_once` themselves.  `started` and `finished` count how often the routine of a
control has been called and has returned, `returned` counts the calls of `pthread_once` that are over. -/

namespace Bionic.Once

open FutexLock (Phase Move)
open Mutex (LockPhase UnlockPhase normalLock normalUnlock)
open scoped Mutex

abbrev Word := BitVec 32

def PTHREAD_ONCE_INIT : Word := 0

variable {C T : Type*}

/-! ### Threads -/

inductive Pc (C : Type*) where
  /-- Outside `pthread_once`. -/
  | idle
  /-- Before the first test of `*once_control`. -/
  | test (c : C)
  /-- In `_normal_lock(&once_lock)`. -/
  | lock (c : C) (p : LockPhase)
  /-- Before the second test. -/
  | retest (c : C)
  /-- In `(*init_routine)()`. -/
  | routine (c : C)
  /-- Before `*once_control = ~PTHREAD_ONCE_INIT`. -/
  | set (c : C)
  /-- In `_normal_unlock(&once_lock)`. -/
  | unlock (c : C) (p : UnlockPhase)
  /-- Before `return 0`. -/
  | done (c : C)
deriving DecidableEq, Repr

structure Sys (C T : Type*) where
  control : C → Word
  onceLock : Word
  pc : T → Pc C
  started : C → ℕ
  finished : C → ℕ
  returned : C → ℕ

section

variable [DecidableEq C] [DecidableEq T]

def Sys.goto (s : Sys C T) (t : T) (pc : Pc C) : Sys C T :=
  { s with pc := Function.update s.pc t pc }

def Sys.lockWord (s : Sys C T) (w : Word) : Sys C T := { s with onceLock := w }

/-- One more, for the control `c`. -/
def bump (n : C → ℕ) (c : C) : C → ℕ := Function.update n c (n c + 1)

/-- One step of the thread `t`; `none` where it does not move by itself. -/
def exec (s : Sys C T) (t : T) : Option (Sys C T) :=
  match s.pc t with
  | .idle => none
  | .test c =>
      if s.control c = PTHREAD_ONCE_INIT then some (s.goto t (.lock c .cas))
      else some (s.goto t (.done c))
  | .lock c p =>
      match normalLock s.onceLock p with
      | some (w, some p') => some ((s.lockWord w).goto t (.lock c p'))
      | some (w, none) => some ((s.lockWord w).goto t (.retest c))
      | none => none
  | .retest c =>
      if s.control c = PTHREAD_ONCE_INIT then
        some ({ s with started := bump s.started c }.goto t (.routine c))
      else some (s.goto t (.unlock c .dec))
  | .routine c => some ({ s with finished := bump s.finished c }.goto t (.set c))
  | .set c =>
      some ({ s with control := Function.update s.control c (~~~PTHREAD_ONCE_INIT) }.goto t (.unlock c .dec))
  | .unlock c p =>
      match normalUnlock s.onceLock p with
      | some (w, some p') => some ((s.lockWord w).goto t (.unlock c p'))
      | some (w, none) => some ((s.lockWord w).goto t (.done c))
      | none => none
  | .done c => some ({ s with returned := bump s.returned c }.goto t .idle)

/-- One step, made by the thread `t`. -/
inductive Step (s : Sys C T) (t : T) : Sys C T → Prop
  | call (c : C) (idle : s.pc t = .idle) : Step s t (s.goto t (.test c))
  | exec (s' : Sys C T) (h : exec s t = some s') : Step s t s'
  /-- A sleep ends by itself. -/
  | spurious (c : C) (h : s.pc t = .lock c .asleep) : Step s t (s.goto t (.lock c .swap))
  /-- The wake-up call of `t` ends the sleep of `u`. -/
  | wakeOne (c d : C) (u : T) (ht : s.pc t = .unlock c .wake) (hu : s.pc u = .lock d .asleep) :
      Step s t ((s.goto t (.done c)).goto u (.lock d .swap))
  /-- The wake-up call finds nobody. -/
  | wakeNone (c : C) (ht : s.pc t = .unlock c .wake) (none : ∀ u d, s.pc u ≠ .lock d .asleep) :
      Step s t (s.goto t (.done c))

end

/-- No control has been used. -/
def start (C T : Type*) : Sys C T :=
  ⟨fun _ => PTHREAD_ONCE_INIT, 0, fun _ => .idle, fun _ => 0, fun _ => 0, fun _ => 0⟩

inductive Reach [DecidableEq C] [DecidableEq T] : Sys C T → Prop
  | start : Reach (start C T)
  | step {s s' : Sys C T} {t : T} : Reach s → Step s t s' → Reach s'

/-! ### `once_lock` -/

/-- The phase of a thread in the protocol of `once_lock`. -/
def Pc.phase : Pc C → Phase
  | .lock _ p => p.phase
  | .unlock _ p => p.phase
  | _ => .out

/-- The thread owns `once_lock`. -/
def Pc.owns : Pc C → Bool
  | .retest _ => true
  | .routine _ => true
  | .set _ => true
  | .unlock _ p => p.owns
  | _ => false

/-- What `once_lock` and the threads in it look like. -/
def lockView (s : Sys C T) : FutexLock.State T :=
  ⟨s.onceLock, fun t => (s.pc t).owns, fun t => (s.pc t).phase⟩

theorem asleep_iff (pc : Pc C) : pc.phase = .asleep ↔ ∃ c, pc = .lock c .asleep := by
  cases pc with
  | lock c p => cases p <;> simp [Pc.phase, LockPhase.phase]
  | unlock c p => cases p <;> simp [Pc.phase, UnlockPhase.phase]
  | _ => simp [Pc.phase]

/-! ### What one step does -/

/-- The thread is between the second test and the store. -/
def Pc.runs (pc : Pc C) (c : C) : Prop := pc = .routine c ∨ pc = .set c

/-- The thread has seen, or has made, the control different from `PTHREAD_ONCE_INIT`. -/
def Pc.past : Pc C → C → Prop
  | .unlock c _, d => c = d
  | .done c, d => c = d
  | _, _ => False

theorem Pc.owns_of_runs {pc : Pc C} {c : C} (h : pc.runs c) : pc.owns = true := by
  cases h with
  | inl h => rw [h]; rfl
  | inr h => rw [h]; rfl

variable [DecidableEq C] [DecidableEq T] {s s' : Sys C T} {t : T}

/-- What `exec` does to the controls and the counts. -/
inductive Run (s : Sys C T) (t : T) : Sys C T → Prop
  /-- Only the lock is used, or nothing but a control read. -/
  | keep (w : Word) (pc : Pc C) (move : Move ⟨s.onceLock, (s.pc t).owns, (s.pc t).phase⟩ ⟨w, pc.owns, pc.phase⟩)
      (runs : ∀ c, ¬ (s.pc t).runs c) (runs' : ∀ c, ¬ pc.runs c)
      (past : ∀ c, pc.past c → (s.pc t).past c ∨ s.control c ≠ PTHREAD_ONCE_INIT) :
      Run s t ((s.lockWord w).goto t pc)
  | begin (c : C) (pc : s.pc t = .retest c) (fresh : s.control c = PTHREAD_ONCE_INIT) :
      Run s t ({ s with started := bump s.started c }.goto t (.routine c))
  | finish (c : C) (pc : s.pc t = .routine c) :
      Run s t ({ s with finished := bump s.finished c }.goto t (.set c))
  | store (c : C) (pc : s.pc t = .set c) :
      Run s t ({ s with control := Function.update s.control c (~~~PTHREAD_ONCE_INIT) }.goto t
        (.unlock c .dec))
  | returns (c : C) (pc : s.pc t = .done c) :
      Run s t ({ s with returned := bump s.returned c }.goto t .idle)

theorem run_of_exec (h : exec s t = some s') : Run s t s' := by
  unfold exec at h
  split at h
  next => cases h
  next c pc =>
    split at h <;> cases h
    next =>
      exact .keep s.onceLock (.lock c .cas) (by rw [pc]; exact .lock) (by simp [pc, Pc.runs])
        (by simp [Pc.runs]) (fun _ h => h.elim)
    next used =>
      refine .keep s.onceLock (.done c) (by rw [pc]; exact .stay) (by simp [pc, Pc.runs]) (by simp [Pc.runs]) ?_
      rintro d rfl
      exact .inr used
  next c p pc =>
    split at h
    next w p' e =>
      cases h
      exact .keep w (.lock c p') (by rw [pc]; exact Mutex.normalLock_more false e) (by simp [pc, Pc.runs])
        (by simp [Pc.runs]) (fun _ h => h.elim)
    next w e =>
      cases h
      exact .keep w (.retest c) (by rw [pc]; exact Mutex.normalLock_done false e) (by simp [pc, Pc.runs])
        (by simp [Pc.runs]) (fun _ h => h.elim)
    next => cases h
  next c pc =>
    split at h <;> cases h
    next fresh => exact .begin c pc fresh
    next used =>
      refine .keep s.onceLock (.unlock c .dec) (by rw [pc]; exact .unlock) (by simp [pc, Pc.runs])
        (by simp [Pc.runs]) ?_
      rintro d rfl
      exact .inr used
  next c pc => cases h; exact .finish c pc
  next c pc => cases h; exact .store c pc
  next c p pc =>
    split at h
    next w p' e =>
      cases h
      refine .keep w (.unlock c p') (by rw [pc]; exact Mutex.normalUnlock_more e) (by simp [pc, Pc.runs])
        (by simp [Pc.runs]) ?_
      rintro d rfl
      exact .inl (by rw [pc]; rfl)
    next w e =>
      cases h
      refine .keep w (.done c) (by rw [pc]; exact Mutex.normalUnlock_done _ e) (by simp [pc, Pc.runs])
        (by simp [Pc.runs]) ?_
      rintro d rfl
      exact .inl (by rw [pc]; rfl)
    next => cases h
  next c pc => cases h; exact .returns c pc

/-! ### The counts -/

/-- What the controls and the places of the threads say about the counts. -/
structure Counted (s : Sys C T) : Prop where
  used : ∀ c, s.control c ≠ PTHREAD_ONCE_INIT → s.started c = 1 ∧ s.finished c = 1
  routine : ∀ t c, s.pc t = .routine c →
    s.control c = PTHREAD_ONCE_INIT ∧ s.started c = 1 ∧ s.finished c = 0
  set : ∀ t c, s.pc t = .set c →
    s.control c = PTHREAD_ONCE_INIT ∧ s.started c = 1 ∧ s.finished c = 1
  past : ∀ t c, (s.pc t).past c → s.control c ≠ PTHREAD_ONCE_INIT
  fresh : ∀ c, s.control c = PTHREAD_ONCE_INIT → (∀ t, ¬ (s.pc t).runs c) →
    s.started c = 0 ∧ s.finished c = 0
  returned : ∀ c, 0 < s.returned c → s.control c ≠ PTHREAD_ONCE_INIT

omit [DecidableEq C] in
@[simp] theorem goto_pc_self (s : Sys C T) (t : T) (pc : Pc C) : (s.goto t pc).pc t = pc := by
  simp [Sys.goto]

omit [DecidableEq C] in
theorem goto_pc_of_ne (s : Sys C T) {t u : T} (pc : Pc C) (h : u ≠ t) :
    (s.goto t pc).pc u = s.pc u := by
  simp [Sys.goto, h]

omit [DecidableEq T] in
@[simp] theorem bump_self (n : C → ℕ) (c : C) : bump n c c = n c + 1 := by
  simp [bump]

omit [DecidableEq T] in
theorem bump_of_ne (n : C → ℕ) {c d : C} (h : d ≠ c) : bump n c d = n d := by
  simp [bump, h]

omit [DecidableEq C] [DecidableEq T] in
/-- While `t` owns the lock, nobody else runs a routine. -/
theorem not_runs_of_owner (hl : FutexLock.Inv (lockView s)) (ht : (s.pc t).owns = true) {u : T}
    (hu : u ≠ t) (c : C) : ¬ (s.pc u).runs c := by
  intro hr
  exact hu (hl.unique u t (Pc.owns_of_runs hr) ht)

omit [DecidableEq C] in
/-- A step that leaves controls and counts alone. -/
theorem Counted.keep (hi : Counted s) {w : Word} {pc : Pc C} (runs : ∀ c, ¬ (s.pc t).runs c)
    (runs' : ∀ c, ¬ pc.runs c)
    (past : ∀ c, pc.past c → (s.pc t).past c ∨ s.control c ≠ PTHREAD_ONCE_INIT) :
    Counted ((s.lockWord w).goto t pc) := by
  have same (u : T) (c : C) (hu : (((s.lockWord w).goto t pc).pc u).runs c) :
      ((s.lockWord w).goto t pc).pc u = s.pc u := by
    by_cases hut : u = t
    · subst hut
      rw [goto_pc_self] at hu
      exact absurd hu (runs' c)
    · exact goto_pc_of_ne _ pc hut
  refine ⟨hi.used, ?_, ?_, ?_, ?_, hi.returned⟩
  · intro u c hu
    rw [same u c (.inl hu)] at hu
    exact hi.routine u c hu
  · intro u c hu
    rw [same u c (.inr hu)] at hu
    exact hi.set u c hu
  · intro u c hu
    by_cases hut : u = t
    · subst hut
      rw [goto_pc_self] at hu
      cases past c hu with
      | inl old => exact hi.past u c old
      | inr used => exact used
    · rw [goto_pc_of_ne _ pc hut] at hu
      exact hi.past u c hu
  · intro c init none
    apply hi.fresh c init
    intro u hu
    by_cases hut : u = t
    · subst hut
      exact runs c hu
    · apply none u
      rw [goto_pc_of_ne _ pc hut]
      exact hu

/-- What the control, the counts and the place of the thread that owns the lock must say about one
control. -/
structure Section (control : Word) (started finished : ℕ) (pc : Pc C) (c : C) : Prop where
  used : control ≠ PTHREAD_ONCE_INIT → started = 1 ∧ finished = 1
  routine : pc = .routine c → control = PTHREAD_ONCE_INIT ∧ started = 1 ∧ finished = 0
  set : pc = .set c → control = PTHREAD_ONCE_INIT ∧ started = 1 ∧ finished = 1
  past : pc.past c → control ≠ PTHREAD_ONCE_INIT
  fresh : control = PTHREAD_ONCE_INIT → pc.runs c

/-- The owner of the lock does something for the control `c`. -/
theorem Counted.inside (hi : Counted s) (hl : FutexLock.Inv (lockView s)) {c : C} {pc : Pc C}
    (owns : (s.pc t).owns = true) (pcs : s'.pc = Function.update s.pc t pc)
    (returned : s'.returned = s.returned)
    (off : ∀ d, d ≠ c →
      s'.control d = s.control d ∧ s'.started d = s.started d ∧ s'.finished d = s.finished d)
    (runs : ∀ d, d ≠ c → ¬ (s.pc t).runs d ∧ ¬ pc.runs d ∧ ¬ pc.past d)
    (mono : s.control c ≠ PTHREAD_ONCE_INIT → s'.control c ≠ PTHREAD_ONCE_INIT)
    (here : Section (s'.control c) (s'.started c) (s'.finished c) pc c) : Counted s' := by
  have self : s'.pc t = pc := by rw [pcs, Function.update_self]
  have other (u : T) (hu : u ≠ t) : s'.pc u = s.pc u := by rw [pcs, Function.update_of_ne hu]
  have mover (u : T) (d : C) (hr : (s'.pc u).runs d) : u = t ∧ d = c := by
    by_cases hut : u = t
    · subst hut
      rw [self] at hr
      by_contra hd
      exact (runs d fun e => hd ⟨rfl, e⟩).2.1 hr
    · rw [other u hut] at hr
      exact absurd hr (not_runs_of_owner hl owns hut d)
  refine ⟨?_, ?_, ?_, ?_, ?_, ?_⟩
  · intro d used
    by_cases hd : d = c
    · subst hd
      exact here.used used
    · obtain ⟨hc, hs, hf⟩ := off d hd
      rw [hs, hf]
      exact hi.used d (hc ▸ used)
  · intro u d hu
    obtain ⟨rfl, rfl⟩ := mover u d (.inl hu)
    exact here.routine (self ▸ hu)
  · intro u d hu
    obtain ⟨rfl, rfl⟩ := mover u d (.inr hu)
    exact here.set (self ▸ hu)
  · intro u d hu
    by_cases hut : u = t
    · subst hut
      rw [self] at hu
      by_cases hd : d = c
      · subst hd
        exact here.past hu
      · exact absurd hu (runs d hd).2.2
    · rw [other u hut] at hu
      by_cases hd : d = c
      · subst hd
        exact mono (hi.past u d hu)
      · rw [(off d hd).1]
        exact hi.past u d hu
  · intro d init none
    by_cases hd : d = c
    · subst hd
      refine absurd ?_ (none t)
      rw [self]
      exact here.fresh init
    · obtain ⟨hc, hs, hf⟩ := off d hd
      rw [hs, hf]
      refine hi.fresh d (hc ▸ init) fun u hu => ?_
      by_cases hut : u = t
      · subst hut
        exact (runs d hd).1 hu
      · exact none u (other u hut ▸ hu)
  · intro d hd
    rw [returned] at hd
    by_cases hdc : d = c
    · subst hdc
      exact mono (hi.returned d hd)
    · rw [(off d hdc).1]
      exact hi.returned d hd

/-- Each step of `exec` keeps what the counts should be. -/
theorem Counted.run (hi : Counted s) (hl : FutexLock.Inv (lockView s)) (h : Run s t s') :
    Counted s' := by
  cases h with
  | keep w pc move runs runs' past => exact hi.keep runs runs' past
  | begin c pc init =>
      have none : ∀ u, ¬ (s.pc u).runs c := by
        intro u
        by_cases hut : u = t
        · rw [hut, pc]; simp [Pc.runs]
        · exact not_runs_of_owner hl (by rw [pc]; rfl) hut c
      obtain ⟨started, finished⟩ := hi.fresh c init none
      refine hi.inside hl (by rw [pc]; rfl) rfl rfl ?_ ?_ id ⟨fun h => absurd init h, ?_, ?_, ?_, ?_⟩
      · exact fun d hd => ⟨rfl, bump_of_ne _ hd, rfl⟩
      · intro d hd
        simp [pc, Pc.runs, Pc.past, Ne.symm hd]
      · intro _
        exact ⟨init, (bump_self s.started c).trans (by rw [started]), finished⟩
      · simp
      · exact fun h => h.elim
      · exact fun _ => .inl rfl
  | finish c pc =>
      obtain ⟨init, started, finished⟩ := hi.routine t c pc
      refine hi.inside hl (by rw [pc]; rfl) rfl rfl ?_ ?_ id ⟨fun h => absurd init h, ?_, ?_, ?_, ?_⟩
      · exact fun d hd => ⟨rfl, rfl, bump_of_ne _ hd⟩
      · intro d hd
        simp [pc, Pc.runs, Pc.past, Ne.symm hd]
      · simp
      · intro _
        exact ⟨init, started, (bump_self s.finished c).trans (by rw [finished])⟩
      · exact fun h => h.elim
      · exact fun _ => .inr rfl
  | store c pc =>
      obtain ⟨init, started, finished⟩ := hi.set t c pc
      have stored : Function.update s.control c (~~~PTHREAD_ONCE_INIT) c ≠ PTHREAD_ONCE_INIT := by
        rw [Function.update_self]
        decide
      refine hi.inside hl (by rw [pc]; rfl) rfl rfl ?_ ?_ (fun _ => stored)
        ⟨fun _ => ⟨started, finished⟩, ?_, ?_, fun _ => stored, fun h => absurd h stored⟩
      · exact fun d hd => ⟨Function.update_of_ne hd _ _, rfl, rfl⟩
      · intro d hd
        simp [pc, Pc.runs, Pc.past, Ne.symm hd]
      · simp
      · simp
  | returns c pc =>
      have kept : Counted (s.goto t .idle) :=
        hi.keep (w := s.onceLock) (by simp [pc, Pc.runs]) (by simp [Pc.runs]) (fun _ h => h.elim)
      refine ⟨kept.used, kept.routine, kept.set, kept.past, kept.fresh, ?_⟩
      intro d hd
      by_cases hdc : d = c
      · subst hdc
        apply hi.past t d
        rw [pc]
        rfl
      · exact hi.returned d ((bump_of_ne s.returned hdc) ▸ hd)

/-! ### The invariant -/

structure Inv (s : Sys C T) : Prop extends Counted s where
  lock : FutexLock.Inv (lockView s)

omit [DecidableEq C] [DecidableEq T] in
theorem inv_start : Inv (start C T) where
  used := fun _ h => absurd rfl h
  routine := fun _ _ h => by cases h
  set := fun _ _ h => by cases h
  past := fun _ _ h => h.elim
  fresh := fun _ _ _ => ⟨rfl, rfl⟩
  returned := fun _ h => absurd h (Nat.lt_irrefl 0)
  lock := FutexLock.inv_init

/-- Each step of `exec` is a move of the protocol of `once_lock`. -/
theorem Run.move (h : Run s t s') :
    Move ⟨s.onceLock, (s.pc t).owns, (s.pc t).phase⟩
      ⟨s'.onceLock, (s'.pc t).owns, (s'.pc t).phase⟩ := by
  cases h with
  | keep w pc move => rw [goto_pc_self]; exact move
  | begin c pc => rw [goto_pc_self, pc]; exact .stay
  | finish c pc => rw [goto_pc_self, pc]; exact .stay
  | store c pc => rw [goto_pc_self, pc]; exact .unlock
  | returns c pc => rw [goto_pc_self, pc]; exact .stay

theorem Run.pc_of_ne (h : Run s t s') {u : T} (hu : u ≠ t) : s'.pc u = s.pc u := by
  cases h <;> exact goto_pc_of_ne _ _ hu

theorem Inv.run (hi : Inv s) (h : Run s t s') : Inv s' := by
  refine ⟨hi.toCounted.run hi.lock h, hi.lock.move (t := t) h.move ?_⟩
  intro u hu
  simp only [lockView, h.pc_of_ne hu, and_self]

/-- A step of the kernel or of the caller, as a step of a thread. -/
theorem Inv.goto (hi : Inv s) {pc : Pc C}
    (move : Move ⟨s.onceLock, (s.pc t).owns, (s.pc t).phase⟩ ⟨s.onceLock, pc.owns, pc.phase⟩)
    (runs : ∀ c, ¬ (s.pc t).runs c) (runs' : ∀ c, ¬ pc.runs c) (past : ∀ c, pc.past c → (s.pc t).past c) :
    Inv (s.goto t pc) :=
  hi.run (.keep s.onceLock pc move runs runs' fun c h => .inl (past c h))

omit [DecidableEq C] in
theorem Counted.goto (hi : Counted s) {pc : Pc C} (runs : ∀ c, ¬ (s.pc t).runs c)
    (runs' : ∀ c, ¬ pc.runs c) (past : ∀ c, pc.past c → (s.pc t).past c) : Counted (s.goto t pc) :=
  hi.keep (w := s.onceLock) runs runs' fun c h => .inl (past c h)

omit [DecidableEq C] in
theorem Inv.wakeOne (hi : Inv s) {c d : C} {u : T} (ht : s.pc t = .unlock c .wake)
    (hu : s.pc u = .lock d .asleep) : Inv ((s.goto t (.done c)).goto u (.lock d .swap)) := by
  have hut : u ≠ t := by
    rintro rfl
    rw [ht] at hu
    cases hu
  have hu' : (s.goto t (.done c)).pc u = .lock d .asleep := (goto_pc_of_ne s _ hut).trans hu
  refine ⟨?_, hi.lock.step (.wakeOne t u ?_ ?_ rfl ?_ ?_ ?_ ?_)⟩
  · have first : Counted (s.goto t (.done c)) := by
      apply hi.toCounted.goto <;> simp [ht, Pc.runs, Pc.past]
    apply first.goto <;> simp [hu', Pc.runs, Pc.past]
  · simp only [lockView, ht]; rfl
  · simp only [lockView, hu]; rfl
  · funext v
    show (((s.goto t (.done c)).goto u (.lock d .swap)).pc v).owns = (s.pc v).owns
    by_cases hvu : v = u
    · rw [hvu, goto_pc_self, hu]; rfl
    · rw [goto_pc_of_ne _ _ hvu]
      by_cases hvt : v = t
      · rw [hvt, goto_pc_self, ht]; rfl
      · rw [goto_pc_of_ne _ _ hvt]
  · simp only [lockView, goto_pc_of_ne _ _ (Ne.symm hut), goto_pc_self]; rfl
  · simp only [lockView, goto_pc_self]; rfl
  · intro v hv
    rw [not_or] at hv
    simp only [lockView, goto_pc_of_ne _ _ hv.1, goto_pc_of_ne _ _ hv.2, and_self]

omit [DecidableEq C] in
theorem Inv.wakeNone (hi : Inv s) {c : C} (ht : s.pc t = .unlock c .wake)
    (none : ∀ u d, s.pc u ≠ .lock d .asleep) : Inv (s.goto t (.done c)) := by
  refine ⟨?_, hi.lock.step (.wakeNone t ?_ ?_ rfl ?_ ?_ ?_)⟩
  · apply hi.toCounted.goto <;> simp [ht, Pc.runs, Pc.past]
  · simp only [lockView, ht]; rfl
  · intro u hu
    obtain ⟨d, hd⟩ := (asleep_iff _).1 hu
    exact none u d hd
  · funext v
    show ((s.goto t (.done c)).pc v).owns = (s.pc v).owns
    by_cases hvt : v = t
    · rw [hvt, goto_pc_self, ht]; rfl
    · rw [goto_pc_of_ne _ _ hvt]
  · simp only [lockView, goto_pc_self]; rfl
  · intro v hv
    simp only [lockView, goto_pc_of_ne _ _ hv, and_self]

theorem Inv.step (hi : Inv s) (h : Step s t s') : Inv s' := by
  cases h with
  | call c idle =>
      apply hi.goto
      · rw [idle]; exact .stay
      · simp [idle, Pc.runs]
      · simp [Pc.runs]
      · simp [Pc.past]
  | exec s' h => exact hi.run (run_of_exec h)
  | spurious c asleep =>
      apply hi.goto
      · rw [asleep]; exact .spurious
      · simp [asleep, Pc.runs]
      · simp [Pc.runs]
      · simp [Pc.past]
  | wakeOne c d u ht hu => exact hi.wakeOne ht hu
  | wakeNone c ht none => exact hi.wakeNone ht none

theorem Inv.reach (h : Reach s) : Inv s := by
  induction h with
  | start => exact inv_start
  | step _ step ih => exact ih.step step

/-! ### What the invariant gives -/

omit [DecidableEq C] [DecidableEq T] in
theorem Inv.started_le (hi : Inv s) (c : C) : s.started c ≤ 1 := by
  by_cases init : s.control c = PTHREAD_ONCE_INIT
  · by_cases none : ∀ t, ¬ (s.pc t).runs c
    · rw [(hi.fresh c init none).1]
      exact Nat.zero_le 1
    · rw [not_forall] at none
      obtain ⟨t, ht⟩ := none
      cases not_not.1 ht with
      | inl routine => exact Nat.le_of_eq (hi.routine t c routine).2.1
      | inr set => exact Nat.le_of_eq (hi.set t c set).2.1
  · exact Nat.le_of_eq (hi.used c init).1

omit [DecidableEq C] [DecidableEq T] in
/-- As long as a call is under way, a thread in a call is awake. -/
theorem Inv.awake (hi : Inv s) (busy : s.pc t ≠ .idle) :
    ∃ u, s.pc u ≠ .idle ∧ (s.pc u).phase ≠ .asleep := by
  by_cases asleep : (s.pc t).phase = .asleep
  · have nonIdle (u : T) (h : (s.pc u).owns = true ∨ (s.pc u).phase.responsible = true) :
        s.pc u ≠ .idle := by
      intro e
      rw [e] at h
      simp [Pc.owns, Pc.phase, Phase.responsible] at h
    cases hi.lock.watched t asleep with
    | inl two =>
        obtain ⟨u, hu⟩ := hi.lock.held (by rw [two]; decide)
        refine ⟨u, nonIdle u (.inl hu), fun e => ?_⟩
        obtain ⟨d, hd⟩ := (asleep_iff _).1 e
        simp [lockView, hd, Pc.owns] at hu
    | inr watch =>
        obtain ⟨u, hu⟩ := watch
        refine ⟨u, nonIdle u (.inr hu), fun e => ?_⟩
        simp [lockView, e, Phase.responsible] at hu
  · exact ⟨t, busy, asleep⟩

/-- For every interleaving: the routine of a control runs at most once; it has run, and has completed, when a
call of `pthread_once` on the control returns, and ever after; and the calls do not wait for each other
forever, some thread in a call being awake. -/
theorem routine_runs_once (h : Reach s) :
    (∀ c, s.started c ≤ 1) ∧
      (∀ t c, s.pc t = .done c → s.started c = 1 ∧ s.finished c = 1) ∧
      (∀ c, 0 < s.returned c → s.started c = 1 ∧ s.finished c = 1) ∧
      ∀ t, s.pc t ≠ .idle → ∃ u, s.pc u ≠ .idle ∧ ∀ c, s.pc u ≠ .lock c .asleep := by
  have inv := Inv.reach h
  refine ⟨inv.started_le, ?_, ?_, ?_⟩
  · intro t c done
    apply inv.used c
    apply inv.past t c
    rw [done]
    rfl
  · intro c hc
    exact inv.used c (inv.returned c hc)
  · intro t busy
    obtain ⟨u, hu, awake⟩ := inv.awake busy
    refine ⟨u, hu, fun c hc => awake ?_⟩
    rw [hc]
    rfl

/-! ### A run -/

/-- The listed threads run, one step each. -/
def Sys.schedule (s : Sys C T) : List T → Sys C T
  | [] => s
  | t :: ts =>
      match exec s t with
      | some s' => s'.schedule ts
      | none => s.schedule ts

theorem Reach.schedule (h : Reach s) (ts : List T) : Reach (s.schedule ts) := by
  induction ts generalizing s with
  | nil => exact h
  | cons t ts ih =>
      unfold Sys.schedule
      split
      next s' e => exact ih (h.step (.exec s' e))
      next => exact ih h

/-- Two threads call `pthread_once` on one control, and the thread 0 has run the routine while the other one has
fallen asleep. -/
def contended : Sys Unit (Fin 2) :=
  (((start Unit (Fin 2)).goto 0 (.test ())).goto 1 (.test ())).schedule [0, 1, 0, 1, 1, 1, 0, 0, 0, 0, 0]

/-- The thread 0 has woken the thread 1 and has returned; the thread 1 gives the lock back. -/
def woken : Sys Unit (Fin 2) :=
  ((contended.goto 0 (.done ())).goto 1 (.lock () .swap)).schedule [0, 1, 1, 1, 1]

theorem routine_runs_once_woken :
    woken.returned () = 1 ∧ woken.started () = 1 ∧ woken.finished () = 1 := by
  have first : Reach ((start Unit (Fin 2)).goto 0 (.test ())) := Reach.start.step (.call () rfl)
  have second : Reach contended := (first.step (.call (t := 1) () (by decide))).schedule _
  have third : Reach woken :=
    (second.step (.wakeOne (t := 0) () () 1 (by decide) (by decide))).schedule _
  have returned : woken.returned () = 1 := by decide
  exact ⟨returned, (routine_runs_once third).2.2.1 () (by rw [returned]; exact Nat.one_pos)⟩

end Bionic.Once
