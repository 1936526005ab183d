import Mathlib.Logic.Relation
import Bionic.MutexNormal
import Bionic.Once

/-! # Init routines that call `pthread_once` (`libc/bionic/pthread.c`)

The routine of a control calls `pthread_once` on other controls, one after another.  While it runs, its thread
keeps the one `once_lock` of all controls.  The nested calls are made by the same `exec` as the outer ones; what
is added is the stack of the routines that wait for a nested call.

`SelfWait` is a thread in `_normal_lock(&once_lock)` that owns `once_lock`.  It stays there for ever
(`SelfWait.steps`), and `nested_iff` says when no thread gets there. -/

namespace Bionic.OnceNested

open FutexLock (Move)
open Mutex (LockPhase UnlockPhase normalLock normalUnlock)
open Once

variable {C T : Type*}

/-! ### Threads with a stack of routines -/

/-- `rest` are the controls that the routine on top of the stack has not come to yet, `outer` are the routines that
wait for a nested call, with their own remaining controls. -/
structure Nested (C T : Type*) where
  once : Once.Sys C T
  rest : T → List C
  outer : T → List (C × List C)

section

variable [DecidableEq C] [DecidableEq T]

def Nested.goto (s : Nested C T) (t : T) (pc : Pc C) : Nested C T := { s with once := s.once.goto t pc }

/-- One step of the thread `t`, where the routine of `c` calls `pthread_once` on the controls `calls c`. -/
def exec (calls : C → List C) (s : Nested C T) (t : T) : Option (Nested C T) :=
  match s.once.pc t with
  | .retest c =>
      (Once.exec s.once t).map fun o => { s with once := o, rest := Function.update s.rest t (calls c) }
  | .routine c =>
      match s.rest t with
      | [] => (Once.exec s.once t).map fun o => { s with once := o }
      | d :: ds => some ⟨s.once.goto t (.test d), s.rest, Function.update s.outer t ((c, ds) :: s.outer t)⟩
  | .done d =>
      match s.outer t with
      | [] => (Once.exec s.once t).map fun o => { s with once := o }
      | (c, ds) :: frames =>
          some ⟨{ s.once with returned := bump s.once.returned d }.goto t (.routine c), Function.update s.rest t ds,
            Function.update s.outer t frames⟩
  | _ => (Once.exec s.once t).map fun o => { s with once := o }

/-- One step, made by the thread `t`. -/
inductive Step (calls : C → List C) (s : Nested C T) (t : T) : Nested C T → Prop
  | call (c : C) (idle : s.once.pc t = .idle) : Step calls s t (s.goto t (.test c))
  | exec (s' : Nested C T) (h : exec calls s t = some s') : Step calls s t s'
  /-- A sleep ends by itself. -/
  | spurious (c : C) (h : s.once.pc t = .lock c .asleep) : Step calls s t (s.goto t (.lock c .swap))
  /-- The wake-up call of `t` ends the sleep of `u`. -/
  | wakeOne (c d : C) (u : T) (ht : s.once.pc t = .unlock c .wake) (hu : s.once.pc u = .lock d .asleep) :
      Step calls s t ((s.goto t (.done c)).goto u (.lock d .swap))
  /-- The wake-up call finds nobody. -/
  | wakeNone (c : C) (ht : s.once.pc t = .unlock c .wake) (none : ∀ u d, s.once.pc u ≠ .lock d .asleep) :
      Step calls s t (s.goto t (.done c))

def Steps (calls : C → List C) : Nested C T → Nested C T → Prop :=
  Relation.ReflTransGen fun s s' => ∃ t, Step calls s t s'

end

/-- Nobody is in `pthread_once`, and the controls `used` have been used before. -/
def start (T : Type*) (used : C → Bool) : Nested C T where
  once := { Once.start C T with control c := if used c then ~~~PTHREAD_ONCE_INIT else PTHREAD_ONCE_INIT }
  rest _ := []
  outer _ := []

/-- The thread owns `once_lock`: it is in a critical section, or in a routine that has made a nested call. -/
def Nested.owns (s : Nested C T) (t : T) : Bool := !(s.outer t).isEmpty || (s.once.pc t).owns

/-- The thread waits for a lock that it holds. -/
def SelfWait (s : Nested C T) (t : T) : Prop := s.owns t = true ∧ ∃ c p, s.once.pc t = .lock c p

/-- The outermost call of the thread, if there is one, can still return. -/
def CanComplete [DecidableEq C] [DecidableEq T] (calls : C → List C) (s : Nested C T) (t : T) : Prop :=
  ∃ s', Steps calls s s' ∧ s'.once.pc t = .idle

/-! ### The invariant -/

/-- What `once_lock` and the threads in it look like. -/
def lockView (s : Nested C T) : FutexLock.State T :=
  ⟨s.once.onceLock, s.owns, fun t => (s.once.pc t).phase⟩

/-- A nested call never gets past `_normal_lock`. -/
structure Inv (s : Nested C T) : Prop where
  lock : FutexLock.Inv (lockView s)
  nested : ∀ t, s.outer t ≠ [] → (s.outer t).length = 1 ∧
    ∃ d, s.once.pc t = .test d ∨ s.once.pc t = .done d ∨ ∃ p, s.once.pc t = .lock d p

theorem inv_start (used : C → Bool) : Inv (start T used) where
  lock := FutexLock.inv_init
  nested _ h := absurd rfl h

section

variable {s : Nested C T} {t : T}

theorem owns_of_outer (h : s.outer t ≠ []) : s.owns t = true := by
  unfold Nested.owns
  cases hf : s.outer t with
  | nil => exact absurd hf h
  | cons f fs => rfl

theorem owns_of_nil (h : s.outer t = []) : s.owns t = (s.once.pc t).owns := by
  unfold Nested.owns
  rw [h]
  rfl

end

section

variable [DecidableEq C] [DecidableEq T] {calls : C → List C} {s s' : Nested C T} {t : T}

/-- A routine starts after the second test only. -/
theorem retest_of_routine {o o' : Once.Sys C T} {c : C} (h : Once.exec o t = some o') (pc' : o'.pc t = .routine c) :
    o.pc t = .retest c ∧ o.control c = PTHREAD_ONCE_INIT := by
  cases Once.run_of_exec h with
  | keep w pc move runs runs' past =>
      rw [goto_pc_self] at pc'
      exact absurd (.inl pc') (runs' c)
  | begin d pc fresh =>
      rw [goto_pc_self] at pc'
      cases pc'
      exact ⟨pc, fresh⟩
  | finish d pc =>
      rw [goto_pc_self] at pc'
      cases pc'
  | store d pc =>
      rw [goto_pc_self] at pc'
      cases pc'
  | returns d pc =>
      rw [goto_pc_self] at pc'
      cases pc'

/-- What `exec` does. -/
inductive Run (calls : C → List C) (s : Nested C T) (t : T) : Nested C T → Prop
  /-- A step of `pthread_once` itself. -/
  | plain (o : Once.Sys C T) (r : T → List C) (h : Once.exec s.once t = some o)
      (done : ∀ d, s.once.pc t = .done d → s.outer t = [])
      (rest : ∀ c, o.pc t = .routine c → r t = calls c) (off : ∀ u, u ≠ t → r u = s.rest u) :
      Run calls s t ⟨o, r, s.outer⟩
  | nest (c d : C) (ds : List C) (pc : s.once.pc t = .routine c) (rest : s.rest t = d :: ds) :
      Run calls s t ⟨s.once.goto t (.test d), s.rest, Function.update s.outer t ((c, ds) :: s.outer t)⟩
  | resume (c d : C) (ds : List C) (frames : List (C × List C)) (pc : s.once.pc t = .done d)
      (outer : s.outer t = (c, ds) :: frames) :
      Run calls s t ⟨{ s.once with returned := bump s.once.returned d }.goto t (.routine c),
        Function.update s.rest t ds, Function.update s.outer t frames⟩

theorem Run.of_once {o : Once.Sys C T} (h : Once.exec s.once t = some o) (retest : ∀ c, s.once.pc t ≠ .retest c)
    (done : ∀ d, s.once.pc t = .done d → s.outer t = []) : Run calls s t ⟨o, s.rest, s.outer⟩ :=
  .plain o s.rest h done (fun c pc' => absurd (retest_of_routine h pc').1 (retest c)) fun _ _ => rfl

theorem run_of_exec (h : exec calls s t = some s') : Run calls s t s' := by
  unfold exec at h
  split at h
  next c pc =>
    obtain ⟨o, ho, rfl⟩ := Option.map_eq_some_iff.1 h
    refine .plain o _ ho (by simp [pc]) (fun d pc' => ?_) fun u hu => Function.update_of_ne hu _ _
    have retest := (retest_of_routine ho pc').1
    rw [pc] at retest
    cases retest
    exact Function.update_self t _ _
  next c pc =>
    split at h
    next none =>
      obtain ⟨o, ho, rfl⟩ := Option.map_eq_some_iff.1 h
      exact .of_once ho (by simp [pc]) (by simp [pc])
    next d ds rest =>
      cases h
      exact .nest c d ds pc rest
  next d pc =>
    split at h
    next none =>
      obtain ⟨o, ho, rfl⟩ := Option.map_eq_some_iff.1 h
      exact .of_once ho (by simp [pc]) fun _ _ => none
    next c ds frames outer =>
      cases h
      exact .resume c d ds frames pc outer
  next retest routine done =>
    obtain ⟨o, ho, rfl⟩ := Option.map_eq_some_iff.1 h
    exact .of_once ho retest fun d pc => absurd pc (done d)

omit [DecidableEq C] [DecidableEq T] in
theorem lock_move (hl : FutexLock.Inv (lockView s))
    (move : Move ⟨s.once.onceLock, s.owns t, (s.once.pc t).phase⟩ ⟨s'.once.onceLock, s'.owns t, (s'.once.pc t).phase⟩)
    (pcs : ∀ u, u ≠ t → s'.once.pc u = s.once.pc u) (outers : ∀ u, u ≠ t → s'.outer u = s.outer u) :
    FutexLock.Inv (lockView s') := by
  refine hl.move (t := t) move fun u hu => ?_
  show s'.owns u = s.owns u ∧ (s'.once.pc u).phase = (s.once.pc u).phase
  unfold Nested.owns
  rw [pcs u hu, outers u hu]
  exact ⟨rfl, rfl⟩

omit [DecidableEq C] in
/-- What is left to show of a step of `t`. -/
theorem Inv.of_move (hi : Inv s)
    (move : Move ⟨s.once.onceLock, s.owns t, (s.once.pc t).phase⟩ ⟨s'.once.onceLock, s'.owns t, (s'.once.pc t).phase⟩)
    (pcs : ∀ u, u ≠ t → s'.once.pc u = s.once.pc u) (outers : ∀ u, u ≠ t → s'.outer u = s.outer u)
    (nested : s'.outer t ≠ [] → (s'.outer t).length = 1 ∧
      ∃ d, s'.once.pc t = .test d ∨ s'.once.pc t = .done d ∨ ∃ p, s'.once.pc t = .lock d p) : Inv s' := by
  refine ⟨lock_move hi.lock move pcs outers, fun u hu => ?_⟩
  by_cases hut : u = t
  · subst hut
    exact nested hu
  · rw [outers u hut] at hu ⊢
    rw [pcs u hut]
    exact hi.nested u hu

omit [DecidableEq C] [DecidableEq T] in
/-- A thread that owns the lock does not get it once more. -/
theorem Inv.not_taken (hi : Inv s) (owns : s.owns t = true) {w : Word} {p : LockPhase} :
    normalLock s.once.onceLock p ≠ some (w, none) := by
  intro h
  have free : s.owns t = false := hi.lock.free (Mutex.normalLock_free h) t
  rw [owns] at free
  cases free

theorem Inv.run (hi : Inv s) (h : Run calls s t s') : Inv s' := by
  cases h with
  | plain o r h done rest off =>
      have pcs : ∀ u, u ≠ t → o.pc u = s.once.pc u := fun u hu => (Once.run_of_exec h).pc_of_ne hu
      by_cases outer : s.outer t = []
      · refine hi.of_move ?_ pcs (fun _ _ => rfl) (fun h => absurd outer h)
        have move := (Once.run_of_exec h).move
        rwa [← owns_of_nil outer, ← owns_of_nil (s := ⟨o, r, s.outer⟩) outer] at move
      · have owns := owns_of_outer outer
        have owns' : Nested.owns ⟨o, r, s.outer⟩ t = true := owns_of_outer (s := ⟨o, r, s.outer⟩) outer
        obtain ⟨one, d, pc⟩ := hi.nested t outer
        rcases pc with pc | pc | ⟨p, pc⟩
        · unfold Once.exec at h
          simp only [pc] at h
          split at h <;> cases h
          · refine hi.of_move ?_ pcs (fun _ _ => rfl) fun _ => ⟨one, d, .inr (.inr ⟨.cas, goto_pc_self _ _ _⟩)⟩
            rw [owns, owns', goto_pc_self, pc]
            exact .lock
          · refine hi.of_move ?_ pcs (fun _ _ => rfl) fun _ => ⟨one, d, .inr (.inl (goto_pc_self _ _ _))⟩
            rw [owns, owns', goto_pc_self, pc]
            exact .stay
        · exact absurd (done d pc) outer
        · unfold Once.exec at h
          simp only [pc] at h
          split at h
          next w p' e =>
            cases h
            refine hi.of_move ?_ pcs (fun _ _ => rfl) fun _ => ⟨one, d, .inr (.inr ⟨p', goto_pc_self _ _ _⟩)⟩
            rw [owns, owns', goto_pc_self, pc]
            exact Mutex.normalLock_more true e
          next w e => exact absurd e (hi.not_taken owns)
          next => cases h
  | nest c d ds pc rest =>
      have outer : s.outer t = [] := by
        by_contra outer
        obtain ⟨-, e, pc' | pc' | ⟨p, pc'⟩⟩ := hi.nested t outer <;> rw [pc] at pc' <;> cases pc'
      have outer' : Function.update s.outer t ((c, ds) :: s.outer t) t = [(c, ds)] := by
        rw [Function.update_self, outer]
      refine hi.of_move ?_ (fun u hu => goto_pc_of_ne _ _ hu) (fun u hu => Function.update_of_ne hu _ _) fun _ => ?_
      · have owns' : Nested.owns ⟨s.once.goto t (.test d), s.rest, Function.update s.outer t ((c, ds) :: s.outer t)⟩ t =
            true := owns_of_outer fun h => nomatch outer'.symm.trans h
        rw [owns_of_nil outer, owns', goto_pc_self, pc]
        exact .stay
      · exact ⟨congrArg List.length outer', d, .inl (goto_pc_self _ _ _)⟩
  | resume c d ds frames pc outer =>
      have busy : s.outer t ≠ [] := by
        rw [outer]
        exact List.cons_ne_nil _ _
      obtain rfl : frames = [] := by
        have one := (hi.nested t busy).1
        rw [outer] at one
        exact List.length_eq_zero_iff.1 (Nat.succ.inj one)
      have outer' : Function.update s.outer t ([] : List (C × List C)) t = [] := Function.update_self t _ _
      refine hi.of_move ?_ (fun u hu => goto_pc_of_ne _ _ hu) (fun u hu => Function.update_of_ne hu _ _) fun h =>
        absurd outer' h
      rw [owns_of_outer busy, owns_of_nil outer', goto_pc_self, pc]
      exact .stay

omit [DecidableEq C] in
/-- A step of the kernel or of the caller, as a step of a thread. -/
theorem Inv.goto (hi : Inv s) {pc : Pc C} (owns : pc.owns = (s.once.pc t).owns)
    (move : ∀ o, Move ⟨s.once.onceLock, o, (s.once.pc t).phase⟩ ⟨s.once.onceLock, o, pc.phase⟩)
    (nested : s.outer t ≠ [] → ∃ d, pc = .test d ∨ pc = .done d ∨ ∃ p, pc = .lock d p) : Inv (s.goto t pc) := by
  have same : (s.goto t pc).owns t = s.owns t := by
    show (!(s.outer t).isEmpty || ((s.once.goto t pc).pc t).owns) = _
    rw [goto_pc_self, owns]
    rfl
  refine hi.of_move ?_ (fun u hu => goto_pc_of_ne _ _ hu) (fun _ _ => rfl) fun outer => ⟨(hi.nested t outer).1, ?_⟩
  · rw [same]
    show Move _ ⟨_, _, ((s.once.goto t pc).pc t).phase⟩
    rw [goto_pc_self]
    exact move _
  · show ∃ d, (s.once.goto t pc).pc t = _ ∨ (s.once.goto t pc).pc t = _ ∨ ∃ p, (s.once.goto t pc).pc t = _
    rw [goto_pc_self]
    exact nested outer

omit [DecidableEq C] [DecidableEq T] in
/-- In a nested call nobody is in `_normal_unlock`. -/
theorem Inv.outer_of_unlock (hi : Inv s) {c : C} {p : UnlockPhase} (pc : s.once.pc t = .unlock c p) :
    s.outer t = [] := by
  by_contra outer
  obtain ⟨-, e, pc' | pc' | ⟨p, pc'⟩⟩ := hi.nested t outer <;> rw [pc] at pc' <;> cases pc'

omit [DecidableEq C] in
theorem Inv.wakeOne (hi : Inv s) {c d : C} {u : T} (ht : s.once.pc t = .unlock c .wake)
    (hu : s.once.pc u = .lock d .asleep) : Inv ((s.goto t (.done c)).goto u (.lock d .swap)) := by
  have hut : u ≠ t := by
    rintro rfl
    rw [ht] at hu
    cases hu
  have outer := hi.outer_of_unlock ht
  refine ⟨hi.lock.step (.wakeOne t u ?_ ?_ rfl ?_ ?_ ?_ ?_), fun v hv => ?_⟩
  · simp only [lockView, ht]; rfl
  · simp only [lockView, hu]; rfl
  · funext v
    show (!(s.outer v).isEmpty || (((s.once.goto t (.done c)).goto u (.lock d .swap)).pc v).owns) = s.owns v
    by_cases hvu : v = u
    · rw [hvu, goto_pc_self, Nested.owns, hu]; rfl
    · rw [goto_pc_of_ne _ _ hvu]
      by_cases hvt : v = t
      · rw [hvt, goto_pc_self, Nested.owns, ht]; rfl
      · rw [goto_pc_of_ne _ _ hvt]; rfl
  · simp only [lockView, Nested.goto, goto_pc_of_ne _ _ (Ne.symm hut), goto_pc_self]; rfl
  · simp only [lockView, Nested.goto, goto_pc_self]; rfl
  · intro v hv
    rw [not_or] at hv
    simp only [lockView, Nested.owns, Nested.goto, goto_pc_of_ne _ _ hv.1, goto_pc_of_ne _ _ hv.2, and_self]
  · have hvt : v ≠ t := fun e => hv (e ▸ outer)
    refine ⟨(hi.nested v hv).1, ?_⟩
    by_cases hvu : v = u
    · subst hvu
      exact ⟨d, .inr (.inr ⟨.swap, goto_pc_self _ _ _⟩)⟩
    · simp only [Nested.goto, goto_pc_of_ne _ _ hvu, goto_pc_of_ne _ _ hvt]
      exact (hi.nested v hv).2

omit [DecidableEq C] in
theorem Inv.wakeNone (hi : Inv s) {c : C} (ht : s.once.pc t = .unlock c .wake)
    (none : ∀ u d, s.once.pc u ≠ .lock d .asleep) : Inv (s.goto t (.done c)) := by
  have outer := hi.outer_of_unlock ht
  refine ⟨hi.lock.step (.wakeNone t ?_ ?_ rfl ?_ ?_ ?_), fun v hv => ?_⟩
  · simp only [lockView, ht]; rfl
  · intro u hu
    obtain ⟨d, hd⟩ := (asleep_iff _).1 hu
    exact none u d hd
  · funext v
    show (!(s.outer v).isEmpty || ((s.once.goto t (.done c)).pc v).owns) = s.owns v
    by_cases hvt : v = t
    · rw [hvt, goto_pc_self, Nested.owns, ht]; rfl
    · rw [goto_pc_of_ne _ _ hvt]; rfl
  · simp only [lockView, Nested.goto, goto_pc_self]; rfl
  · intro v hv
    simp only [lockView, Nested.owns, Nested.goto, goto_pc_of_ne _ _ hv, and_self]
  · have hvt : v ≠ t := fun e => hv (e ▸ outer)
    simp only [Nested.goto, goto_pc_of_ne _ _ hvt]
    exact hi.nested v hv

theorem Inv.step (hi : Inv s) (h : Step calls s t s') : Inv s' := by
  cases h with
  | call c idle =>
      refine hi.goto (by rw [idle]; rfl) (fun o => by rw [idle]; exact .stay) fun _ => ⟨c, .inl rfl⟩
  | exec s' h => exact hi.run (run_of_exec h)
  | spurious c asleep =>
      refine hi.goto (by rw [asleep]; rfl) (fun o => by rw [asleep]; exact .spurious) fun _ => ⟨c, .inr (.inr ⟨_, rfl⟩)⟩
  | wakeOne c d u ht hu => exact hi.wakeOne ht hu
  | wakeNone c ht none => exact hi.wakeNone ht none

theorem Inv.steps (hi : Inv s) (h : Steps calls s s') : Inv s' := by
  induction h with
  | refl => exact hi
  | tail _ step ih =>
      obtain ⟨t, step⟩ := step
      exact ih.step step

/-! ### A thread that waits for itself -/

omit [DecidableEq C] [DecidableEq T] in
theorem SelfWait.outer (h : SelfWait s t) : s.outer t ≠ [] := by
  intro outer
  obtain ⟨owns, c, p, pc⟩ := h
  rw [owns_of_nil outer, pc] at owns
  cases owns

theorem Run.off (h : Run calls s t s') {u : T} (hu : u ≠ t) :
    s'.once.pc u = s.once.pc u ∧ s'.outer u = s.outer u := by
  cases h with
  | plain o r h done rest off => exact ⟨(Once.run_of_exec h).pc_of_ne hu, rfl⟩
  | nest c d ds pc rest => exact ⟨goto_pc_of_ne _ _ hu, Function.update_of_ne hu _ _⟩
  | resume c d ds frames pc outer => exact ⟨goto_pc_of_ne _ _ hu, Function.update_of_ne hu _ _⟩

/-- A thread that waits for itself stays in `_normal_lock`, whatever the others do. -/
theorem SelfWait.step {u : T} (hi : Inv s) (h : SelfWait s t) (hs : Step calls s u s') : SelfWait s' t := by
  have outer := h.outer
  obtain ⟨owns, c, p, pc⟩ := h
  have stays {s' : Nested C T} {p' : LockPhase} (outer' : s'.outer t = s.outer t) (pc' : s'.once.pc t = .lock c p') :
      SelfWait s' t := ⟨owns_of_outer (outer'.symm ▸ outer), c, p', pc'⟩
  by_cases hut : t = u
  · subst hut
    cases hs with
    | call d idle => rw [pc] at idle; cases idle
    | exec s' h =>
        cases run_of_exec h with
        | plain o r ho done rest off =>
            unfold Once.exec at ho
            simp only [pc] at ho
            split at ho
            next w p' e =>
              cases ho
              exact stays rfl (goto_pc_self _ _ _)
            next w e => exact absurd e (hi.not_taken owns)
            next => cases ho
        | nest d e ds pc' rest => rw [pc] at pc'; cases pc'
        | resume d e ds frames pc' outer => rw [pc] at pc'; cases pc'
    | spurious d asleep =>
        rw [pc] at asleep
        cases asleep
        exact stays rfl (goto_pc_self _ _ _)
    | wakeOne d e v ht hv => rw [pc] at ht; cases ht
    | wakeNone d ht none => rw [pc] at ht; cases ht
  · cases hs with
    | call d idle => exact stays rfl ((goto_pc_of_ne _ _ hut).trans pc)
    | exec s' h =>
        obtain ⟨pcs, outers⟩ := (run_of_exec h).off hut
        exact stays outers (pcs.trans pc)
    | spurious d asleep => exact stays rfl ((goto_pc_of_ne _ _ hut).trans pc)
    | wakeOne d e v ht hv =>
        by_cases htv : t = v
        · subst htv
          rw [pc] at hv
          cases hv
          exact stays rfl (goto_pc_self _ _ _)
        · exact stays rfl ((goto_pc_of_ne _ _ htv).trans ((goto_pc_of_ne _ _ hut).trans pc))
    | wakeNone d ht none => exact stays rfl ((goto_pc_of_ne _ _ hut).trans pc)

theorem SelfWait.steps (hi : Inv s) (h : SelfWait s t) (hs : Steps calls s s') : SelfWait s' t := by
  induction hs with
  | refl => exact h
  | tail before step ih =>
      obtain ⟨u, step⟩ := step
      exact SelfWait.step (hi.steps before) ih step

theorem SelfWait.not_canComplete (hi : Inv s) (h : SelfWait s t) : ¬ CanComplete calls s t := by
  rintro ⟨s', steps, idle⟩
  obtain ⟨-, c, p, pc⟩ := h.steps hi steps
  rw [pc] at idle
  cases idle

/-! ### Nested calls on used controls -/

/-- Every nested call that is still to come is on a control that has been used. -/
structure Safe (used : C → Bool) (s : Nested C T) : Prop where
  kept : ∀ c, used c = true → s.once.control c ≠ PTHREAD_ONCE_INIT
  rest : ∀ t c, s.once.pc t = .routine c → ∀ d ∈ s.rest t, used d = true
  frames : ∀ t, ∀ f ∈ s.outer t, ∀ d ∈ f.2, used d = true
  nestedUsed : ∀ t, s.outer t ≠ [] → ∃ d, used d = true ∧ (s.once.pc t = .test d ∨ s.once.pc t = .done d)

/-- A routine that can still run calls `pthread_once` on used controls only. -/
def Prepared (calls : C → List C) (used : C → Bool) : Prop :=
  ∀ c, used c = false → ∀ d ∈ calls c, used d = true

variable {used : C → Bool}

omit [DecidableEq C] [DecidableEq T] in
theorem Safe.not_selfWait (h : Safe used s) (t : T) : ¬ SelfWait s t := by
  intro wait
  obtain ⟨d, -, pc⟩ := h.nestedUsed t wait.outer
  obtain ⟨-, c, p, pc'⟩ := wait
  rw [pc'] at pc
  rcases pc with pc | pc <;> cases pc

omit [DecidableEq C] [DecidableEq T] in
theorem safe_start (used : C → Bool) : Safe used (start T used) where
  kept c hc := by
    show (if used c then ~~~PTHREAD_ONCE_INIT else PTHREAD_ONCE_INIT) ≠ PTHREAD_ONCE_INIT
    rw [if_pos hc]
    decide
  rest t c h := nomatch h
  frames t f hf := nomatch hf
  nestedUsed t h := absurd rfl h

/-- A control that has been used stays so. -/
theorem control_of_exec {o o' : Once.Sys C T} {c : C} (h : Once.exec o t = some o')
    (hc : o.control c ≠ PTHREAD_ONCE_INIT) : o'.control c ≠ PTHREAD_ONCE_INIT := by
  cases Once.run_of_exec h with
  | keep => exact hc
  | begin => exact hc
  | finish => exact hc
  | store d pc =>
      show Function.update o.control d (~~~PTHREAD_ONCE_INIT) c ≠ PTHREAD_ONCE_INIT
      by_cases hcd : c = d
      · rw [hcd, Function.update_self]
        decide
      · rwa [Function.update_of_ne hcd]
  | returns => exact hc

omit [DecidableEq C] [DecidableEq T] in
/-- A step of the thread `t` is judged by what it leaves of `t`. -/
theorem Safe.of_move (h : Safe used s) (kept : ∀ c, used c = true → s'.once.control c ≠ PTHREAD_ONCE_INIT)
    (pcs : ∀ u, u ≠ t → s'.once.pc u = s.once.pc u) (rests : ∀ u, u ≠ t → s'.rest u = s.rest u)
    (outers : ∀ u, u ≠ t → s'.outer u = s.outer u)
    (rest : ∀ c, s'.once.pc t = .routine c → ∀ d ∈ s'.rest t, used d = true)
    (frames : ∀ f ∈ s'.outer t, ∀ d ∈ f.2, used d = true)
    (nested : s'.outer t ≠ [] → ∃ d, used d = true ∧ (s'.once.pc t = .test d ∨ s'.once.pc t = .done d)) :
    Safe used s' := by
  refine ⟨kept, fun u => ?_, fun u => ?_, fun u => ?_⟩
  · by_cases hut : u = t
    · subst hut
      exact rest
    · rw [pcs u hut, rests u hut]
      exact h.rest u
  · by_cases hut : u = t
    · subst hut
      exact frames
    · rw [outers u hut]
      exact h.frames u
  · by_cases hut : u = t
    · subst hut
      exact nested
    · rw [pcs u hut, outers u hut]
      exact h.nestedUsed u

theorem Safe.run (h : Safe used s) (hi : Inv s) (prepared : Prepared calls used) (hr : Run calls s t s') :
    Safe used s' := by
  cases hr with
  | plain o r ho done rest off =>
      refine h.of_move (fun c hc => control_of_exec ho (h.kept c hc)) (fun u => (Once.run_of_exec ho).pc_of_ne) off
        (fun _ _ => rfl) (fun c pc => ?_) (h.frames t) fun outer => ?_
      · have fresh : used c = false := by
          by_contra hc
          exact h.kept c (Bool.eq_true_of_not_eq_false hc) (retest_of_routine ho pc).2
        show ∀ d ∈ r t, used d = true
        rw [rest c pc]
        exact prepared c fresh
      · obtain ⟨d, hd, pc | pc⟩ := h.nestedUsed t outer
        · unfold Once.exec at ho
          simp only [pc, if_neg (h.kept d hd)] at ho
          cases ho
          exact ⟨d, hd, .inr (goto_pc_self _ _ _)⟩
        · exact absurd (done d pc) outer
  | nest c d ds pc rest =>
      have left := h.rest t c pc
      rw [rest] at left
      refine h.of_move h.kept (fun u hut => goto_pc_of_ne _ _ hut) (fun _ _ => rfl)
        (fun u hut => Function.update_of_ne hut _ _) (fun e pc' => ?_) ?_ fun _ => ?_
      · exact nomatch (goto_pc_self _ _ _).symm.trans pc'
      · show ∀ f ∈ Function.update s.outer t ((c, ds) :: s.outer t) t, ∀ d ∈ f.2, used d = true
        rw [Function.update_self]
        exact List.forall_mem_cons.2 ⟨fun e he => left e (List.mem_cons_of_mem _ he), h.frames t⟩
      · exact ⟨d, left d List.mem_cons_self, .inl (goto_pc_self _ _ _)⟩
  | resume c d ds frames pc outer =>
      have busy : s.outer t ≠ [] := by
        rw [outer]
        exact List.cons_ne_nil _ _
      have old := h.frames t
      rw [outer] at old
      obtain ⟨left, old⟩ := List.forall_mem_cons.1 old
      refine h.of_move h.kept (fun u hut => goto_pc_of_ne _ _ hut) (fun u hut => Function.update_of_ne hut _ _)
        (fun u hut => Function.update_of_ne hut _ _) (fun e _ => ?_) ?_ fun outer' => ?_
      · show ∀ d ∈ Function.update s.rest t ds t, used d = true
        rw [Function.update_self]
        exact left
      · show ∀ f ∈ Function.update s.outer t frames t, ∀ d ∈ f.2, used d = true
        rw [Function.update_self]
        exact old
      · have one := (hi.nested t busy).1
        rw [outer] at one
        have none : frames = [] := List.length_eq_zero_iff.1 (Nat.succ.inj one)
        exact absurd ((Function.update_self t frames s.outer).trans none) outer'

omit [DecidableEq C] in
/-- A step of the kernel or of the caller, outside the routines. -/
theorem Safe.goto (h : Safe used s) {pc : Pc C} (routine : ∀ c, pc ≠ .routine c) (outer : s.outer t = []) :
    Safe used (s.goto t pc) :=
  h.of_move h.kept (fun _ hut => goto_pc_of_ne _ _ hut) (fun _ _ => rfl) (fun _ _ => rfl)
    (fun c pc' => absurd ((goto_pc_self _ _ _).symm.trans pc') (routine c)) (h.frames t) fun busy => absurd outer busy

omit [DecidableEq C] [DecidableEq T] in
/-- A nested call is at its first test or at its return. -/
theorem Safe.outer_eq_nil (h : Safe used s) (test : ∀ d, s.once.pc t ≠ .test d) (done : ∀ d, s.once.pc t ≠ .done d) :
    s.outer t = [] := by
  by_contra outer
  obtain ⟨d, -, pc | pc⟩ := h.nestedUsed t outer
  · exact test d pc
  · exact done d pc

theorem Safe.step (h : Safe used s) (hi : Inv s) (prepared : Prepared calls used) (hs : Step calls s t s') :
    Safe used s' := by
  cases hs with
  | call c idle => exact h.goto (by simp) (h.outer_eq_nil (by simp [idle]) (by simp [idle]))
  | exec s' he => exact h.run hi prepared (run_of_exec he)
  | spurious c asleep => exact h.goto (by simp) (h.outer_eq_nil (by simp [asleep]) (by simp [asleep]))
  | wakeOne c d u ht hu =>
      have first : Safe used (s.goto t (.done c)) :=
        h.goto (by simp) (h.outer_eq_nil (by simp [ht]) (by simp [ht]))
      exact first.goto (by simp) (h.outer_eq_nil (by simp [hu]) (by simp [hu]))
  | wakeNone c ht none => exact h.goto (by simp) (h.outer_eq_nil (by simp [ht]) (by simp [ht]))

/-- The invariants of the runs in which all nested calls are on used controls. -/
structure Good (used : C → Bool) (s : Nested C T) : Prop extends Inv s, Safe used s

omit [DecidableEq C] [DecidableEq T] in
theorem good_start (used : C → Bool) : Good used (start T used) := ⟨inv_start used, safe_start used⟩

theorem Good.steps (h : Good used s) (prepared : Prepared calls used) (hs : Steps calls s s') : Good used s' := by
  induction hs with
  | refl => exact h
  | tail _ step ih =>
      obtain ⟨t, step⟩ := step
      exact ⟨ih.toInv.step step, ih.toSafe.step ih.toInv prepared step⟩

/-! ### A call that returns -/

/-- Steps after which every thread but `t` is where it was. -/
structure To (calls : C → List C) (t : T) (s s' : Nested C T) : Prop where
  steps : Steps calls s s'
  off : ∀ u, u ≠ t → s'.once.pc u = s.once.pc u

theorem To.refl : To calls t s s := ⟨.refl, fun _ _ => rfl⟩

theorem To.trans {s'' : Nested C T} (h : To calls t s s') (h' : To calls t s' s'') : To calls t s s'' :=
  ⟨h.steps.trans h'.steps, fun u hu => (h'.off u hu).trans (h.off u hu)⟩

theorem To.exec (h : exec calls s t = some s') : To calls t s s' :=
  ⟨.single ⟨t, .exec s' h⟩, fun _ hu => ((run_of_exec h).off hu).1⟩

theorem To.spurious {c : C} (h : s.once.pc t = .lock c .asleep) : To calls t s (s.goto t (.lock c .swap)) :=
  ⟨.single ⟨t, .spurious c h⟩, fun _ hu => goto_pc_of_ne _ _ hu⟩

theorem exec_nest {c d : C} {ds : List C} (pc : s.once.pc t = .routine c) (rest : s.rest t = d :: ds) :
    exec calls s t = some ⟨s.once.goto t (.test d), s.rest, Function.update s.outer t ((c, ds) :: s.outer t)⟩ := by
  unfold exec
  simp only [pc, rest]

variable (calls) in
theorem exec_test_used {d : C} (pc : s.once.pc t = .test d) (hd : s.once.control d ≠ PTHREAD_ONCE_INIT) :
    exec calls s t = some (s.goto t (.done d)) := by
  unfold exec Once.exec
  simp only [pc, if_neg hd, Option.map_some]
  rfl

theorem exec_resume {c d : C} {ds : List C} {frames : List (C × List C)} (pc : s.once.pc t = .done d)
    (outer : s.outer t = (c, ds) :: frames) :
    exec calls s t = some ⟨{ s.once with returned := bump s.once.returned d }.goto t (.routine c),
      Function.update s.rest t ds, Function.update s.outer t frames⟩ := by
  unfold exec
  simp only [pc, outer]

/-- The stack, the controls and the lock are as before. -/
structure Same (t : T) (s s' : Nested C T) : Prop where
  outer : s'.outer t = s.outer t
  control : s'.once.control = s.once.control
  onceLock : s'.once.onceLock = s.once.onceLock

variable (calls) in
/-- A nested call that is at its return. -/
theorem resume_routine {c d : C} {ds : List C} {frames : List (C × List C)} (pc : s.once.pc t = .done d)
    (outer : s.outer t = (c, ds) :: frames) : ∃ s', To calls t s s' ∧ s'.once.pc t = .routine c ∧ s'.rest t = ds ∧
      s'.outer t = frames ∧ s'.once.control = s.once.control ∧ s'.once.onceLock = s.once.onceLock :=
  ⟨_, .exec (exec_resume pc outer), goto_pc_self _ _ _, Function.update_self t _ _, Function.update_self t _ _, rfl, rfl⟩

variable (calls) in
/-- A call on a used control returns at once. -/
theorem call_used {c d : C} {ds : List C} (pc : s.once.pc t = .routine c) (rest : s.rest t = d :: ds)
    (hd : s.once.control d ≠ PTHREAD_ONCE_INIT) :
    ∃ s', To calls t s s' ∧ s'.once.pc t = .routine c ∧ s'.rest t = ds ∧ Same t s s' := by
  have nest : To calls t s _ := .exec (exec_nest pc rest)
  have test : To calls t _ _ := .exec (exec_test_used calls
    (s := ⟨s.once.goto t (.test d), s.rest, Function.update s.outer t ((c, ds) :: s.outer t)⟩)
    (goto_pc_self s.once t (.test d)) hd)
  obtain ⟨s', back, pc', rest', outer', control, onceLock⟩ := resume_routine calls (d := d)
    (s := Nested.goto ⟨s.once.goto t (.test d), s.rest, Function.update s.outer t ((c, ds) :: s.outer t)⟩ t (.done d))
    (goto_pc_self _ _ _) (Function.update_self t _ _)
  exact ⟨s', (nest.trans test).trans back, pc', rest', outer', control, onceLock⟩

variable (calls) in
/-- Calls on used controls return one after another. -/
theorem calls_used {c : C} (l₁ l₂ : List C) (pc : s.once.pc t = .routine c) (rest : s.rest t = l₁ ++ l₂)
    (used : ∀ d ∈ l₁, s.once.control d ≠ PTHREAD_ONCE_INIT) :
    ∃ s', To calls t s s' ∧ s'.once.pc t = .routine c ∧ s'.rest t = l₂ ∧ Same t s s' := by
  induction l₁ generalizing s with
  | nil => exact ⟨s, .refl, pc, rest, rfl, rfl, rfl⟩
  | cons d ds ih =>
      obtain ⟨s₁, to₁, pc₁, rest₁, same₁⟩ := call_used calls pc rest (used d List.mem_cons_self)
      have used₁ : ∀ e ∈ ds, s₁.once.control e ≠ PTHREAD_ONCE_INIT := by
        rw [same₁.control]
        exact fun e he => used e (List.mem_cons_of_mem _ he)
      obtain ⟨s₂, to₂, pc₂, rest₂, same₂⟩ := ih pc₁ rest₁ used₁
      exact ⟨s₂, to₁.trans to₂, pc₂, rest₂, same₂.outer.trans same₁.outer, same₂.control.trans same₁.control,
        same₂.onceLock.trans same₁.onceLock⟩

/-- The lock is free, and the thread is on its way out of an outermost call. -/
def Leaving (s : Nested C T) (t : T) : Prop :=
  s.once.onceLock = 0 ∧ s.outer t = [] ∧ ∃ c, s.once.pc t = .done c ∨ s.once.pc t = .unlock c .wake

/-- A step of `pthread_once` itself that returns. -/
theorem To.once {o : Once.Sys C T} (h : Once.exec s.once t = some o) (retest : ∀ c, s.once.pc t ≠ .retest c)
    (routine : ∀ c, s.once.pc t ≠ .routine c) (done : ∀ c, s.once.pc t ≠ .done c) :
    To calls t s ⟨o, s.rest, s.outer⟩ := by
  refine .exec ?_
  unfold OnceNested.exec
  split
  next c pc => exact absurd pc (retest c)
  next c pc => exact absurd pc (routine c)
  next c pc => exact absurd pc (done c)
  next => rw [h]; rfl

variable (calls) in
theorem leaving_of_store {c : C} (outer : s.outer t = []) (pc : s.once.pc t = .unlock c .store) :
    ∃ s', To calls t s s' ∧ Leaving s' t := by
  have store : Once.exec s.once t = some ((s.once.lockWord 0).goto t (.unlock c .wake)) := by
    unfold Once.exec
    simp only [pc, normalUnlock]
  exact ⟨_, .once store (by simp [pc]) (by simp [pc]) (by simp [pc]), rfl, outer, c, .inr (goto_pc_self _ _ _)⟩

variable (calls) in
theorem leaving_of_dec {c : C} (outer : s.outer t = []) (pc : s.once.pc t = .unlock c .dec) :
    ∃ s', To calls t s s' ∧ Leaving s' t := by
  by_cases one : s.once.onceLock = 1
  · have dec : Once.exec s.once t = some ((s.once.lockWord (s.once.onceLock - 1)).goto t (.done c)) := by
      unfold Once.exec
      simp only [pc, normalUnlock, if_pos one]
    refine ⟨_, .once dec (by simp [pc]) (by simp [pc]) (by simp [pc]), ?_, outer, c, .inl (goto_pc_self _ _ _)⟩
    show s.once.onceLock - 1 = 0
    rw [one]
    rfl
  · have dec : Once.exec s.once t = some ((s.once.lockWord (s.once.onceLock - 1)).goto t (.unlock c .store)) := by
      unfold Once.exec
      simp only [pc, normalUnlock, if_neg one]
    obtain ⟨s', to', leaving⟩ := leaving_of_store calls (c := c) (t := t)
      (s := ⟨(s.once.lockWord (s.once.onceLock - 1)).goto t (.unlock c .store), s.rest, s.outer⟩) outer
      (goto_pc_self _ _ _)
    exact ⟨s', (To.once dec (by simp [pc]) (by simp [pc]) (by simp [pc])).trans to', leaving⟩

variable (calls) in
theorem leaving_of_set {c : C} (outer : s.outer t = []) (pc : s.once.pc t = .set c) :
    ∃ s', To calls t s s' ∧ Leaving s' t := by
  have set : Once.exec s.once t = some ({ s.once with
      control := Function.update s.once.control c (~~~PTHREAD_ONCE_INIT) }.goto t (.unlock c .dec)) := by
    unfold Once.exec
    simp only [pc]
  obtain ⟨s', to', leaving⟩ := leaving_of_dec calls (c := c) (t := t) (s := ⟨{ s.once with
    control := Function.update s.once.control c (~~~PTHREAD_ONCE_INIT) }.goto t (.unlock c .dec), s.rest, s.outer⟩)
    outer (goto_pc_self _ _ _)
  exact ⟨s', (To.once set (by simp [pc]) (by simp [pc]) (by simp [pc])).trans to', leaving⟩

variable (calls) in
/-- A routine whose calls are all on used controls returns. -/
theorem leaving_of_routine {c : C} (outer : s.outer t = []) (pc : s.once.pc t = .routine c)
    (used : ∀ d ∈ s.rest t, s.once.control d ≠ PTHREAD_ONCE_INIT) : ∃ s', To calls t s s' ∧ Leaving s' t := by
  obtain ⟨s₁, to₁, pc₁, rest₁, same⟩ := calls_used calls (s.rest t) [] pc (List.append_nil _).symm used
  have finish : exec calls s₁ t =
      some ⟨{ s₁.once with finished := bump s₁.once.finished c }.goto t (.set c), s₁.rest, s₁.outer⟩ := by
    unfold exec Once.exec
    simp only [pc₁, rest₁, Option.map_some]
  obtain ⟨s', to', leaving⟩ := leaving_of_set calls (c := c) (t := t)
    (s := ⟨{ s₁.once with finished := bump s₁.once.finished c }.goto t (.set c), s₁.rest, s₁.outer⟩)
    (same.outer.trans outer) (goto_pc_self _ _ _)
  exact ⟨s', (to₁.trans (.exec finish)).trans to', leaving⟩

theorem leaving_of_retest {c : C} (hg : Good used s) (prepared : Prepared calls used) (outer : s.outer t = [])
    (pc : s.once.pc t = .retest c) : ∃ s', To calls t s s' ∧ Leaving s' t := by
  by_cases fresh : s.once.control c = PTHREAD_ONCE_INIT
  · have begin : exec calls s t = some ⟨{ s.once with started := bump s.once.started c }.goto t (.routine c),
        Function.update s.rest t (calls c), s.outer⟩ := by
      unfold exec Once.exec
      simp only [pc, if_pos fresh, Option.map_some]
    have calls_of : ∀ d ∈ Function.update s.rest t (calls c) t, s.once.control d ≠ PTHREAD_ONCE_INIT := by
      rw [Function.update_self]
      have unused : used c = false := by
        by_contra hc
        exact hg.kept c (Bool.eq_true_of_not_eq_false hc) fresh
      exact fun d hd => hg.kept d (prepared c unused d hd)
    obtain ⟨s', to', leaving⟩ := leaving_of_routine calls (c := c) (t := t)
      (s := ⟨{ s.once with started := bump s.once.started c }.goto t (.routine c), Function.update s.rest t (calls c),
        s.outer⟩) outer (goto_pc_self _ _ _) calls_of
    exact ⟨s', (To.exec begin).trans to', leaving⟩
  · have skip : exec calls s t =
        some ⟨s.once.goto t (.unlock c .dec), Function.update s.rest t (calls c), s.outer⟩ := by
      unfold exec Once.exec
      simp only [pc, if_neg fresh, Option.map_some]
    obtain ⟨s', to', leaving⟩ := leaving_of_dec calls (c := c) (t := t)
      (s := ⟨s.once.goto t (.unlock c .dec), Function.update s.rest t (calls c), s.outer⟩) outer (goto_pc_self _ _ _)
    exact ⟨s', (To.exec skip).trans to', leaving⟩

variable (calls) in
/-- A nested call at its return goes on with the routine below it. -/
theorem leaving_of_nested_done {d : C} (hg : Good used s) (outer : s.outer t ≠ []) (pc : s.once.pc t = .done d) :
    ∃ s', To calls t s s' ∧ Leaving s' t := by
  obtain ⟨⟨c, ds⟩, hf⟩ := List.length_eq_one_iff.1 (hg.nested t outer).1
  obtain ⟨s₁, to₁, pc₁, rest₁, outer₁, control, -⟩ := resume_routine calls pc hf
  have used₁ : ∀ e ∈ s₁.rest t, s₁.once.control e ≠ PTHREAD_ONCE_INIT := by
    rw [rest₁, control]
    exact fun e he => hg.kept e (hg.frames t (c, ds) (hf ▸ List.mem_cons_self) e he)
  obtain ⟨s', to', leaving⟩ := leaving_of_routine calls outer₁ pc₁ used₁
  exact ⟨s', to₁.trans to', leaving⟩

/-- The owner of the lock can give it back. -/
theorem leaving_of_owner (hg : Good used s) (prepared : Prepared calls used) (owns : s.owns t = true) :
    ∃ s', To calls t s s' ∧ Leaving s' t := by
  by_cases outer : s.outer t = []
  · rw [owns_of_nil outer] at owns
    cases pc : s.once.pc t with
    | retest c => exact leaving_of_retest hg prepared outer pc
    | routine c => exact leaving_of_routine calls outer pc fun d hd => hg.kept d (hg.rest t c pc d hd)
    | set c => exact leaving_of_set calls outer pc
    | unlock c p =>
        cases p with
        | dec => exact leaving_of_dec calls outer pc
        | store => exact leaving_of_store calls outer pc
        | wake =>
            rw [pc] at owns
            cases owns
    | _ =>
        rw [pc] at owns
        cases owns
  · obtain ⟨d, hd, pc | pc⟩ := hg.nestedUsed t outer
    · have test : To calls t s _ := .exec (exec_test_used calls pc (hg.kept d hd))
      obtain ⟨s', to', leaving⟩ := leaving_of_nested_done calls (hg.steps prepared test.steps) outer
        (goto_pc_self _ _ _)
      exact ⟨s', test.trans to', leaving⟩
    · exact leaving_of_nested_done calls hg outer pc

/-! ### A call with a free lock -/

variable (calls) in
theorem canComplete_of_done {c : C} (outer : s.outer t = []) (pc : s.once.pc t = .done c) : CanComplete calls s t := by
  have done : exec calls s t =
      some ⟨{ s.once with returned := bump s.once.returned c }.goto t .idle, s.rest, s.outer⟩ := by
    unfold exec Once.exec
    simp only [pc, outer, Option.map_some]
  exact ⟨_, (To.exec done).steps, goto_pc_self _ _ _⟩

theorem CanComplete.of_to (to' : To calls t s s') (h : CanComplete calls s' t) : CanComplete calls s t := by
  obtain ⟨s'', steps, idle⟩ := h
  exact ⟨s'', to'.steps.trans steps, idle⟩

theorem Leaving.canComplete (h : Leaving s t) : CanComplete calls s t := by
  obtain ⟨-, outer, c, pc | pc⟩ := h
  · exact canComplete_of_done calls outer pc
  · by_cases sleeper : ∃ u d, s.once.pc u = .lock d .asleep
    · obtain ⟨u, d, hu⟩ := sleeper
      have hut : t ≠ u := by
        rintro rfl
        rw [pc] at hu
        cases hu
      obtain ⟨s', steps, idle⟩ := canComplete_of_done calls (c := c) (t := t)
        (s := (s.goto t (.done c)).goto u (.lock d .swap)) outer
        ((goto_pc_of_ne _ _ hut).trans (goto_pc_self _ _ _))
      exact ⟨s', (Relation.ReflTransGen.single ⟨t, .wakeOne c d u pc hu⟩).trans steps, idle⟩
    · have none : ∀ u d, s.once.pc u ≠ .lock d .asleep := fun u d hu => sleeper ⟨u, d, hu⟩
      obtain ⟨s', steps, idle⟩ := canComplete_of_done calls (c := c) (t := t) (s := s.goto t (.done c)) outer
        (goto_pc_self _ _ _)
      exact ⟨s', (Relation.ReflTransGen.single ⟨t, .wakeNone c pc none⟩).trans steps, idle⟩

/-- The owner of the lock can complete. -/
theorem canComplete_of_owner (hg : Good used s) (prepared : Prepared calls used) (owns : s.owns t = true) :
    CanComplete calls s t := by
  obtain ⟨s', to', leaving⟩ := leaving_of_owner hg prepared owns
  exact .of_to to' leaving.canComplete

variable (calls) in
theorem takes_of_swap {c : C} (free : s.once.onceLock = 0) (pc : s.once.pc t = .lock c .swap) :
    ∃ s', To calls t s s' ∧ s'.once.pc t = .retest c := by
  have swap : Once.exec s.once t = some ((s.once.lockWord 2).goto t (.retest c)) := by
    unfold Once.exec
    simp only [pc, normalLock, if_pos free]
  exact ⟨_, .once swap (by simp [pc]) (by simp [pc]) (by simp [pc]), goto_pc_self _ _ _⟩

variable (calls) in
/-- A thread in `_normal_lock` takes a lock that is free. -/
theorem takes_lock {c : C} {p : LockPhase} (free : s.once.onceLock = 0) (pc : s.once.pc t = .lock c p) :
    ∃ s', To calls t s s' ∧ s'.once.pc t = .retest c := by
  cases p with
  | cas =>
      have cas : Once.exec s.once t = some ((s.once.lockWord 1).goto t (.retest c)) := by
        unfold Once.exec
        simp only [pc, normalLock, if_pos free]
      exact ⟨_, .once cas (by simp [pc]) (by simp [pc]) (by simp [pc]), goto_pc_self _ _ _⟩
  | swap => exact takes_of_swap calls free pc
  | wait =>
      have not_two : s.once.onceLock ≠ 2 := by
        rw [free]
        decide
      have wait : Once.exec s.once t = some ((s.once.lockWord s.once.onceLock).goto t (.lock c .swap)) := by
        unfold Once.exec
        simp only [pc, normalLock, if_neg not_two]
      obtain ⟨s', to', taken⟩ := takes_of_swap calls (c := c) (t := t)
        (s := ⟨(s.once.lockWord s.once.onceLock).goto t (.lock c .swap), s.rest, s.outer⟩) free (goto_pc_self _ _ _)
      exact ⟨s', (To.once wait (by simp [pc]) (by simp [pc]) (by simp [pc])).trans to', taken⟩
  | asleep =>
      obtain ⟨s', to', taken⟩ := takes_of_swap calls (c := c) (t := t) (s := s.goto t (.lock c .swap)) free
        (goto_pc_self _ _ _)
      exact ⟨s', (To.spurious pc).trans to', taken⟩

theorem canComplete_of_lock {c : C} {p : LockPhase} (hg : Good used s) (prepared : Prepared calls used)
    (free : s.once.onceLock = 0) (pc : s.once.pc t = .lock c p) : CanComplete calls s t := by
  obtain ⟨s₁, to₁, pc₁⟩ := takes_lock calls free pc
  have owns : s₁.owns t = true := by
    rw [Nested.owns, pc₁]
    exact Bool.or_true _
  exact .of_to to₁ (canComplete_of_owner (hg.steps prepared to₁.steps) prepared owns)

theorem canComplete_of_free (hg : Good used s) (prepared : Prepared calls used) (free : s.once.onceLock = 0) :
    CanComplete calls s t := by
  have alien : s.owns t = false := hg.lock.free free t
  have outer : s.outer t = [] := by
    by_contra outer
    rw [owns_of_outer outer] at alien
    cases alien
  rw [owns_of_nil outer] at alien
  cases pc : s.once.pc t with
  | idle => exact ⟨s, .refl, pc⟩
  | test c =>
      by_cases fresh : s.once.control c = PTHREAD_ONCE_INIT
      · have test : Once.exec s.once t = some (s.once.goto t (.lock c .cas)) := by
          unfold Once.exec
          simp only [pc, if_pos fresh]
        have to₁ : To calls t s (s.goto t (.lock c .cas)) := .once test (by simp [pc]) (by simp [pc]) (by simp [pc])
        exact .of_to to₁ (canComplete_of_lock (hg.steps prepared to₁.steps) prepared free (goto_pc_self _ _ _))
      · have test := To.exec (exec_test_used calls pc fresh)
        exact .of_to test (canComplete_of_done calls (c := c) outer (goto_pc_self _ _ _))
  | lock c p => exact canComplete_of_lock hg prepared free pc
  | done c => exact canComplete_of_done calls outer pc
  | unlock c p =>
      cases p with
      | wake => exact Leaving.canComplete ⟨free, outer, c, .inr pc⟩
      | _ =>
          rw [pc] at alien
          cases alien
  | _ =>
      rw [pc] at alien
      cases alien

theorem Good.canComplete (hg : Good used s) (prepared : Prepared calls used) (t : T) : CanComplete calls s t := by
  by_cases free : s.once.onceLock = 0
  · exact canComplete_of_free hg prepared free
  · obtain ⟨u, owns⟩ := hg.lock.held free
    by_cases hut : t = u
    · exact canComplete_of_owner hg prepared (hut ▸ owns)
    · obtain ⟨s₁, to₁, leaving⟩ := leaving_of_owner hg prepared owns
      obtain ⟨s', steps, idle⟩ := canComplete_of_free (t := t) (hg.steps prepared to₁.steps) prepared leaving.1
      exact ⟨s', to₁.steps.trans steps, idle⟩

/-! ### Which routines may be nested -/

variable (calls) in
/-- A thread can run to the start of the routine of an unused control. -/
theorem reaches_routine {c : C} (t : T) (unused : used c = false) : ∃ s : Nested C T, Steps calls (start T used) s ∧
    s.once.pc t = .routine c ∧ s.rest t = calls c ∧ s.once.control = (start T used).once.control := by
  have fresh : (start T used).once.control c = PTHREAD_ONCE_INIT := by
    show (if used c then ~~~PTHREAD_ONCE_INIT else PTHREAD_ONCE_INIT) = PTHREAD_ONCE_INIT
    rw [unused]
    rfl
  obtain ⟨s₁, h₁⟩ : ∃ s₁, s₁ = (start T used).goto t (.test c) := ⟨_, rfl⟩
  have pc₁ : s₁.once.pc t = .test c := h₁ ▸ goto_pc_self _ _ _
  have test : Once.exec s₁.once t = some (s₁.once.goto t (.lock c .cas)) := by
    have fresh₁ : s₁.once.control c = PTHREAD_ONCE_INIT := h₁ ▸ fresh
    unfold Once.exec
    simp only [pc₁, if_pos fresh₁]
  obtain ⟨s₂, h₂⟩ : ∃ s₂, s₂ = s₁.goto t (.lock c .cas) := ⟨_, rfl⟩
  have pc₂ : s₂.once.pc t = .lock c .cas := h₂ ▸ goto_pc_self _ _ _
  have cas : Once.exec s₂.once t = some ((s₂.once.lockWord 1).goto t (.retest c)) := by
    have free : s₂.once.onceLock = 0 := by
      rw [h₂, h₁]
      rfl
    unfold Once.exec
    simp only [pc₂, normalLock, if_pos free]
  obtain ⟨s₃, h₃⟩ : ∃ s₃ : Nested C T, s₃ = ⟨(s₂.once.lockWord 1).goto t (.retest c), s₂.rest, s₂.outer⟩ := ⟨_, rfl⟩
  have pc₃ : s₃.once.pc t = .retest c := h₃ ▸ goto_pc_self _ _ _
  have control₃ : s₃.once.control = (start T used).once.control := by
    rw [h₃, h₂, h₁]
    rfl
  have begin : exec calls s₃ t = some ⟨{ s₃.once with started := bump s₃.once.started c }.goto t (.routine c),
      Function.update s₃.rest t (calls c), s₃.outer⟩ := by
    unfold exec Once.exec
    simp only [pc₃, if_pos (control₃ ▸ fresh), Option.map_some]
  have to₂ : To calls t s₁ s₂ := h₂ ▸ .once test (by simp [pc₁]) (by simp [pc₁]) (by simp [pc₁])
  have to₃ : To calls t s₂ s₃ := h₃ ▸ .once cas (by simp [pc₂]) (by simp [pc₂]) (by simp [pc₂])
  have called : Step calls (start T used) t s₁ := h₁ ▸ .call c rfl
  exact ⟨_, (Relation.ReflTransGen.single ⟨t, called⟩).trans ((to₂.trans to₃).trans (.exec begin)).steps,
    goto_pc_self _ _ _, Function.update_self t _ _, control₃⟩

variable (calls used) in
/-- A routine that comes to a nested call on an unused control makes its thread wait for itself. -/
theorem selfWait_of_unused {c d : C} {l₁ l₂ : List C} (t : T) (unused : used c = false) (hcalls : calls c = l₁ ++ d :: l₂)
    (used₁ : ∀ e ∈ l₁, used e = true) (hd : used d = false) :
    ∃ s', Steps calls (start T used) s' ∧ SelfWait s' t := by
  obtain ⟨s₁, steps₁, pc₁, rest₁, control₁⟩ := reaches_routine calls t unused
  have skipped : ∀ e ∈ l₁, s₁.once.control e ≠ PTHREAD_ONCE_INIT := fun e he => by
    rw [control₁]
    exact (safe_start (T := T) used).kept e (used₁ e he)
  obtain ⟨s₂, to₂, pc₂, rest₂, same⟩ := calls_used calls l₁ (d :: l₂) pc₁ (rest₁.trans hcalls) skipped
  obtain ⟨s₃, h₃⟩ : ∃ s₃ : Nested C T,
    s₃ = ⟨s₂.once.goto t (.test d), s₂.rest, Function.update s₂.outer t ((c, l₂) :: s₂.outer t)⟩ := ⟨_, rfl⟩
  have pc₃ : s₃.once.pc t = .test d := h₃ ▸ goto_pc_self _ _ _
  have outer₃ : s₃.outer t ≠ [] := by
    have top : s₃.outer t = (c, l₂) :: s₂.outer t := h₃ ▸ Function.update_self t _ _
    rw [top]
    exact List.cons_ne_nil _ _
  have test : Once.exec s₃.once t = some (s₃.once.goto t (.lock d .cas)) := by
    have fresh : s₃.once.control d = PTHREAD_ONCE_INIT := by
      have same₃ : s₃.once.control = (start T used).once.control := by
        rw [h₃]
        exact same.control.trans control₁
      rw [same₃]
      show (if used d then ~~~PTHREAD_ONCE_INIT else PTHREAD_ONCE_INIT) = PTHREAD_ONCE_INIT
      rw [hd]
      rfl
    unfold Once.exec
    simp only [pc₃, if_pos fresh]
  have nest : To calls t s₂ s₃ := h₃ ▸ .exec (exec_nest pc₂ rest₂)
  have lock : To calls t s₃ _ := .once test (by simp [pc₃]) (by simp [pc₃]) (by simp [pc₃])
  exact ⟨_, steps₁.trans ((to₂.trans nest).trans lock).steps, owns_of_outer outer₃, d, .cas, goto_pc_self _ _ _⟩

theorem exists_selfWait (h : ¬ Prepared calls used) (t : T) :
    ∃ s', Steps calls (start T used) s' ∧ SelfWait s' t := by
  unfold Prepared at h
  push Not at h
  obtain ⟨c, unused, d, hd, hunused⟩ := h
  obtain ⟨e, he⟩ := Option.isSome_iff_exists.1
    (List.find?_isSome (p := fun d => !used d) |>.2 ⟨d, hd, by simp [hunused]⟩)
  obtain ⟨fresh, l₁, l₂, hcalls, before⟩ := List.find?_eq_some_iff_append.1 he
  exact selfWait_of_unused calls used t unused hcalls (fun a ha => by simpa using before a ha) (by simpa using fresh)

/-- No thread ever waits for itself, and every outermost call can always return, if and only if the routines that can
still run call `pthread_once` on used controls only. -/
theorem nested_iff [Nonempty T] (calls : C → List C) (used : C → Bool) :
    ((∀ s : Nested C T, Steps calls (start T used) s → ∀ t, ¬ SelfWait s t) ↔ Prepared calls used) ∧
    ((∀ s : Nested C T, Steps calls (start T used) s → ∀ t, CanComplete calls s t) ↔ Prepared calls used) := by
  obtain ⟨t⟩ := ‹Nonempty T›
  refine ⟨⟨fun h => ?_, fun prepared s hs => ?_⟩, ⟨fun h => ?_, fun prepared s hs => ?_⟩⟩
  · by_contra unprepared
    obtain ⟨s, hs, wait⟩ := exists_selfWait unprepared t
    exact h s hs t wait
  · exact ((good_start used).steps prepared hs).not_selfWait
  · by_contra unprepared
    obtain ⟨s, hs, wait⟩ := exists_selfWait unprepared t
    exact wait.not_canComplete ((inv_start used).steps hs) (h s hs t)
  · exact ((good_start used).steps prepared hs).canComplete prepared

end

/-! ### A routine with one nested call -/

/-- The routine of the control `false` calls `pthread_once` on the control `true`. -/
def nestedCall : Bool → List Bool
  | false => [true]
  | true => []

theorem acyclic_nestedCall (c : Bool) : ¬ Relation.TransGen (fun c d => d ∈ nestedCall c) c c := by
  have edge {c d : Bool} (h : Relation.TransGen (fun c d => d ∈ nestedCall c) c d) : c = false ∧ d = true := by
    induction h with
    | single h => revert h; cases c <;> simp [nestedCall]
    | tail _ h ih =>
        obtain ⟨-, rfl⟩ := ih
        simp [nestedCall] at h
  intro h
  exact absurd ((edge h).1.symm.trans (edge h).2) (by decide)

/-- Once the inner control has been used, nobody waits for itself. -/
theorem nested_after_inner : Prepared nestedCall id ∧
    (∀ s : Nested Bool (Fin 2), Steps nestedCall (start (Fin 2) id) s → ∀ t, ¬ SelfWait s t) ∧
    ∀ s : Nested Bool (Fin 2), Steps nestedCall (start (Fin 2) id) s → ∀ t, CanComplete nestedCall s t := by
  have prepared : Prepared nestedCall id := by
    unfold Prepared
    decide
  have all := nested_iff (T := Fin 2) nestedCall id
  exact ⟨prepared, all.1.2 prepared, all.2.2 prepared⟩

/-- With both controls unused, a thread that calls `pthread_once` on the outer one never returns. -/
theorem selfWait_nestedCall : (∀ c, ¬ Relation.TransGen (fun c d => d ∈ nestedCall c) c c) ∧
    ∃ s : Nested Bool (Fin 1), Steps nestedCall (start (Fin 1) fun _ => false) s ∧ SelfWait s 0 ∧
      ¬ CanComplete nestedCall s 0 := by
  have first : nestedCall false = [] ++ true :: [] := rfl
  obtain ⟨s, steps, wait⟩ := selfWait_of_unused nestedCall (fun _ => false) (c := false) (d := true) (0 : Fin 1) rfl
    first (by simp) rfl
  exact ⟨acyclic_nestedCall, s, steps, wait, wait.not_canComplete ((inv_start _).steps steps)⟩

end Bionic.OnceNested
