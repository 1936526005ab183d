import Mathlib.Logic.Function.Basic
import Mathlib.Data.Nat.Notation
import Bionic.FutexLock

/-! # The guards of static variables (`libstdc++/src/one_time_construction.cpp`)

`__cxa_guard_acquire`, `__cxa_guard_release` and `__cxa_guard_abort` on one guard, for any number of
threads.  The guard is 0 while nobody has initialised the variable, 2 while somebody does, 6 when others
may wait for that, and 1 in the end.  Each step of `exec` is one access to the guard.

A thread calls `release` or `abort` only if its `acquire` has returned 1.  `Inv` says who owns the guard and
that every sleeper will be woken. -/

namespace Bionic.CxaGuard

abbrev Word := BitVec 32

/-! ### Threads -/

inductive Pc where
  /-- Outside the functions, and not in charge of the variable. -/
  | out
  /-- Before `__atomic_cmpxchg(0, 0x2, gv)`. -/
  | acquire
  /-- Before `__atomic_cmpxchg(0x2, 0x6, gv)`. -/
  | announce
  /-- Before `__futex_wait(gv, 0x6, NULL)`. -/
  | wait
  /-- Inside that call. -/
  | asleep
  /-- Before `if (*gv != 1)`. -/
  | check
  /-- Before the `return` of `__cxa_guard_acquire`, of 1 if `first` and else of 0. -/
  | returns (first : Bool)
  /-- `__cxa_guard_acquire` has returned 1. -/
  | initialising
  /-- Before `__atomic_cmpxchg(0x2, 0x1, gv)`. -/
  | release
  /-- Before `*gv = 0x1`. -/
  | store
  /-- Before `*gv = 0`. -/
  | abort
  /-- Before `__futex_wake(gv, 0x7fffffff)`. -/
  | wake
deriving DecidableEq, Repr

/-- One step of a thread: the guard it leaves, and where it goes on; `none` where it does not move by
itself. -/
def exec (gv : Word) : Pc → Option (Word × Pc)
  | .acquire => if gv = 0#32 then some (2#32, .returns true) else some (gv, .announce)
  | .announce => some (if gv = 2#32 then 6#32 else gv, .wait)
  | .wait => if gv = 6#32 then some (gv, .asleep) else some (gv, .check)
  | .check => if gv = 1#32 then some (gv, .returns false) else some (gv, .acquire)
  | .returns true => some (gv, .initialising)
  | .returns false => some (gv, .out)
  | .release => if gv = 2#32 then some (1#32, .out) else some (gv, .store)
  | .store => some (1#32, .wake)
  | .abort => some (0#32, .wake)
  | .out => none
  | .asleep => none
  | .initialising => none
  | .wake => none

/-- The step sets the guard to 1. -/
def Pc.finishes (gv : Word) : Pc → Bool
  | .release => gv = 2#32
  | .store => true
  | _ => false

/-- The thread initialises the variable: its `acquire` has set the guard, and its `release` or `abort` has not
given it back. -/
def Pc.owner : Pc → Bool
  | .returns first => first
  | .initialising => true
  | .release => true
  | .store => true
  | .abort => true
  | _ => false

/-! ### What one step does -/

/-- What a step does to the guard and to the thread's charge of the variable. -/
inductive Effect (gv : Word) (pc : Pc) (gv' : Word) (pc' : Pc) : Prop
  | keep (word : gv' = gv) (owner : pc'.owner = pc.owner)
  | take (free : gv = 0#32) (word : gv' = 2#32) (owner : pc'.owner = true)
  | mark (running : gv = 2#32) (word : gv' = 6#32) (owner : pc'.owner = pc.owner)
  | drop (mine : pc.owner = true) (word : gv' = 0#32 ∨ gv' = 1#32) (owner : pc'.owner = false)

theorem effect_of_exec {gv gv' : Word} {pc pc' : Pc} (h : exec gv pc = some (gv', pc')) :
    Effect gv pc gv' pc' := by
  cases pc with
  | acquire =>
      simp only [exec] at h
      split at h
      next h0 => cases h; exact .take h0 rfl rfl
      next => cases h; exact .keep rfl rfl
  | announce =>
      simp only [exec] at h
      cases h
      split
      next h2 => exact .mark h2 rfl rfl
      next => exact .keep rfl rfl
  | wait =>
      simp only [exec] at h
      split at h <;> cases h <;> exact .keep rfl rfl
  | check =>
      simp only [exec] at h
      split at h <;> cases h <;> exact .keep rfl rfl
  | returns first => cases first <;> cases h <;> exact .keep rfl rfl
  | release =>
      simp only [exec] at h
      split at h
      next => cases h; exact .drop rfl (.inr rfl) rfl
      next => cases h; exact .keep rfl rfl
  | store => cases h; exact .drop rfl (.inr rfl) rfl
  | abort => cases h; exact .drop rfl (.inl rfl) rfl
  | _ => cases h

/-! ### The system -/

structure Sys (T : Type*) where
  gv : Word
  pc : T → Pc
  /-- How often `__cxa_guard_release` has set the guard to 1. -/
  releases : ℕ

variable {T : Type*} [DecidableEq T]

def Sys.goto (s : Sys T) (t : T) (pc : Pc) : Sys T := { s with pc := Function.update s.pc t pc }

/-- The thread `t` has made a step of `exec`. -/
def Sys.set (s : Sys T) (t : T) (gv : Word) (pc : Pc) : Sys T :=
  ⟨gv, Function.update s.pc t pc, s.releases + ((s.pc t).finishes s.gv).toNat⟩

/-- The wake-up call of `t`; there are never as many threads as it may wake. -/
def Sys.wakeAll (s : Sys T) (t : T) : Sys T :=
  { s with pc := fun u => if u = t then .out else if s.pc u = .asleep then .check else s.pc u }

/-- One step, made by the thread `t`. -/
inductive Step (s : Sys T) (t : T) : Sys T → Prop
  | acquire (out : s.pc t = .out) : Step s t (s.goto t .acquire)
  | release (first : s.pc t = .initialising) : Step s t (s.goto t .release)
  | abort (first : s.pc t = .initialising) : Step s t (s.goto t .abort)
  | exec (gv : Word) (pc : Pc) (h : exec s.gv (s.pc t) = some (gv, pc)) : Step s t (s.set t gv pc)
  /-- A sleep ends by itself. -/
  | spurious (h : s.pc t = .asleep) : Step s t (s.goto t .check)
  | wake (h : s.pc t = .wake) : Step s t (s.wakeAll t)

/-- A guard in zeroed memory. -/
def start (T : Type*) : Sys T := ⟨0#32, fun _ => .out, 0⟩

inductive Reach : Sys T → Prop
  | start : Reach (start T)
  | step {s s' : Sys T} {t : T} : Reach s → Step s t s' → Reach s'

variable {s s' : Sys T} {t : T}

/-! ### Where a step leads -/

/-- The guard becomes 1 in `__cxa_guard_release` only. -/
theorem finishes_of_exec {gv : Word} {pc pc' : Pc} (h : exec gv pc = some (1#32, pc')) :
    gv = 1#32 ∨ pc.finishes gv = true := by
  cases pc with
  | acquire =>
      simp only [exec] at h
      split at h <;> simp at h
      exact .inl h.1
  | announce =>
      simp only [exec] at h
      split at h <;> simp at h
      exact .inl h.1
  | wait =>
      simp only [exec] at h
      split at h <;> simp at h <;> exact .inl h.1
  | check =>
      simp only [exec] at h
      split at h
      next h1 => exact .inl h1
      next => simp at h; exact .inl h.1
  | returns first => cases first <;> cases h <;> exact .inl rfl
  | release =>
      simp only [exec] at h
      split at h
      next h2 => exact .inr (decide_eq_true h2)
      next => simp at h; exact .inl h.1
  | store => exact .inr rfl
  | abort => simp [exec] at h
  | _ => cases h

/-- `__cxa_guard_acquire` returns 0 because it has read a 1. -/
theorem eq_one_of_exec {gv gv' : Word} {pc : Pc} (h : exec gv pc = some (gv', .returns false)) :
    gv = 1#32 := by
  cases pc with
  | check =>
      simp only [exec] at h
      split at h
      next h1 => exact h1
      next => simp at h
  | acquire => simp only [exec] at h; split at h <;> simp at h
  | wait => simp only [exec] at h; split at h <;> simp at h
  | release => simp only [exec] at h; split at h <;> simp at h
  | returns first => cases first <;> simp [exec] at h
  | _ => simp [exec] at h

/-- The guard stays 6 until a wake-up call is due. -/
theorem contended_of_exec {gv' : Word} {pc pc' : Pc} (h : exec 6#32 pc = some (gv', pc')) :
    gv' = 6#32 ∨ pc' = .wake := by
  cases pc with
  | returns first => cases first <;> cases h <;> exact .inl rfl
  | store => cases h; exact .inr rfl
  | abort => cases h; exact .inr rfl
  | out => cases h
  | asleep => cases h
  | initialising => cases h
  | wake => cases h
  | _ => cases h; exact .inl rfl

theorem eq_six_of_exec {gv gv' : Word} {pc : Pc} (h : exec gv pc = some (gv', .asleep)) :
    gv' = 6#32 := by
  cases pc with
  | wait =>
      simp only [exec] at h
      split at h
      next h6 => cases h; exact h6
      next => simp at h
  | acquire => simp only [exec] at h; split at h <;> simp at h
  | check => simp only [exec] at h; split at h <;> simp at h
  | release => simp only [exec] at h; split at h <;> simp at h
  | returns first => cases first <;> simp [exec] at h
  | _ => simp [exec] at h

/-! ### The invariant -/

/-- The guard tells whether somebody initialises the variable, and it is one thread at most. -/
structure Owned (s : Sys T) : Prop where
  running : ∀ t, (s.pc t).owner = true → s.gv = 2#32 ∨ s.gv = 6#32
  unique : ∀ t u, (s.pc t).owner = true → (s.pc u).owner = true → t = u

structure Inv (s : Sys T) : Prop extends Owned s where
  done : s.gv = 1#32 → 0 < s.releases
  told : ∀ t, s.pc t = .returns false → 0 < s.releases
  watched : ∀ u, s.pc u = .asleep → s.gv = 6#32 ∨ ∃ t, s.pc t = .wake

theorem set_pc_self (s : Sys T) (t : T) (gv : Word) (pc : Pc) : (s.set t gv pc).pc t = pc := by
  simp [Sys.set]

theorem set_pc_of_ne (s : Sys T) {t u : T} (gv : Word) (pc : Pc) (h : u ≠ t) :
    (s.set t gv pc).pc u = s.pc u := by
  simp [Sys.set, h]

/-- A property of all threads, after one thread has moved. -/
theorem forall_set {P : T → Pc → Prop} {gv : Word} {pc : Pc} (ht : P t pc)
    (hne : ∀ u, u ≠ t → P u (s.pc u)) : ∀ u, P u ((s.set t gv pc).pc u) := by
  intro u
  by_cases hu : u = t
  · subst hu; rw [set_pc_self]; exact ht
  · rw [set_pc_of_ne s gv pc hu]; exact hne u hu

omit [DecidableEq T] in
theorem Owned.free (hi : Owned s) (h0 : s.gv = 0#32 ∨ s.gv = 1#32) (t : T) :
    (s.pc t).owner = false := by
  by_contra ht
  have running := hi.running t (by simpa using ht)
  cases h0 with
  | inl h0 => rw [h0] at running; simp at running
  | inr h1 => rw [h1] at running; simp at running

theorem Owned.set {gv : Word} {pc : Pc} (hi : Owned s) (e : Effect s.gv (s.pc t) gv pc) :
    Owned (s.set t gv pc) := by
  cases e with
  | keep word owner =>
      have same : ∀ u, ((s.set t gv pc).pc u).owner = (s.pc u).owner :=
        @forall_set _ _ s t (fun u p => p.owner = (s.pc u).owner) gv pc owner fun _ _ => rfl
      refine ⟨fun u hu => ?_, fun u v hu hv => ?_⟩
      · rw [same] at hu
        show gv = _ ∨ gv = _
        rw [word]
        exact hi.running u hu
      · rw [same] at hu hv
        exact hi.unique u v hu hv
  | mark running word owner =>
      have same : ∀ u, ((s.set t gv pc).pc u).owner = (s.pc u).owner :=
        @forall_set _ _ s t (fun u p => p.owner = (s.pc u).owner) gv pc owner fun _ _ => rfl
      refine ⟨fun _ _ => .inr word, fun u v hu hv => ?_⟩
      rw [same] at hu hv
      exact hi.unique u v hu hv
  | take free word owner =>
      have mine : ∀ u, ((s.set t gv pc).pc u).owner = true → u = t :=
        @forall_set _ _ s t (fun u p => p.owner = true → u = t) gv pc (fun _ => rfl) fun u _ hu => by
          rw [hi.free (.inl free) u] at hu
          contradiction
      exact ⟨fun _ _ => .inl word, fun u v hu hv => (mine u hu).trans (mine v hv).symm⟩
  | drop mine word owner =>
      have none : ∀ u, ((s.set t gv pc).pc u).owner = false :=
        @forall_set _ _ s t (fun _ p => p.owner = false) gv pc owner fun u hu => by
          by_contra hou
          exact hu (hi.unique u t (by simpa using hou) mine)
      refine ⟨fun u hu => ?_, fun u v hu hv => ?_⟩
      · rw [none] at hu; contradiction
      · rw [none] at hu; contradiction

theorem Inv.set {gv : Word} {pc : Pc} (hi : Inv s) (e : Effect s.gv (s.pc t) gv pc)
    (done : gv = 1#32 → s.gv = 1#32 ∨ (s.pc t).finishes s.gv = true)
    (told : pc = .returns false → s.gv = 1#32)
    (contended : s.gv = 6#32 → gv = 6#32 ∨ pc = .wake) (asleep : pc = .asleep → gv = 6#32)
    (notWake : s.pc t ≠ .wake) : Inv (s.set t gv pc) where
  toOwned := hi.toOwned.set e
  done := by
    intro h1
    show 0 < s.releases + ((s.pc t).finishes s.gv).toNat
    cases done h1 with
    | inl h => exact Nat.lt_of_lt_of_le (hi.done h) (Nat.le_add_right _ _)
    | inr h => rw [h]; exact Nat.succ_pos _
  told := by
    refine @forall_set _ _ s t
      (fun _ p => p = .returns false → 0 < s.releases + ((s.pc t).finishes s.gv).toNat) gv pc ?_ ?_
    · exact fun h => Nat.lt_of_lt_of_le (hi.done (told h)) (Nat.le_add_right _ _)
    · exact fun u _ h => Nat.lt_of_lt_of_le (hi.told u h) (Nat.le_add_right _ _)
  watched := by
    apply FutexLock.watched_move (fun u => s.pc u = .asleep) _ (fun u => s.pc u = .wake) _ t
    · intro u hu
      rw [set_pc_of_ne s gv pc hu]
      exact ⟨id, id⟩
    · exact fun h => absurd h notWake
    · rw [set_pc_self]
      exact contended
    · rw [set_pc_self]
      exact fun h => .inl (asleep h)
    · exact hi.watched

theorem goto_eq_set {pc : Pc} (h : (s.pc t).finishes s.gv = false) :
    s.goto t pc = s.set t s.gv pc := by
  simp [Sys.goto, Sys.set, h]

/-- A call, or the end of a sleep. -/
theorem Inv.goto {pc : Pc} (hi : Inv s) (hf : (s.pc t).finishes s.gv = false)
    (owner : pc.owner = (s.pc t).owner) (told : pc ≠ .returns false) (asleep : pc ≠ .asleep)
    (notWake : s.pc t ≠ .wake) : Inv (s.goto t pc) := by
  rw [goto_eq_set hf]
  exact hi.set (.keep rfl owner) .inl (fun h => absurd h told) .inl (fun h => absurd h asleep) notWake

theorem wakeAll_pc_ne (u : T) : (s.wakeAll t).pc u ≠ .asleep := by
  show (if u = t then Pc.out else if s.pc u = .asleep then .check else s.pc u) ≠ .asleep
  split
  next => simp
  next =>
    split
    next => simp
    next h => exact h

theorem Inv.wakeAll (hi : Inv s) (ht : s.pc t = .wake) : Inv (s.wakeAll t) := by
  have owner : ∀ u, ((s.wakeAll t).pc u).owner = (s.pc u).owner := by
    intro u
    show (if u = t then Pc.out else if s.pc u = .asleep then .check else s.pc u).owner = _
    split
    next hu => rw [hu, ht]; rfl
    next =>
      split
      next h => rw [h]; rfl
      next => rfl
  refine ⟨⟨fun u hu => ?_, fun u v hu hv => ?_⟩, hi.done, fun u hu => ?_, fun u hu => ?_⟩
  · rw [owner] at hu
    exact hi.running u hu
  · rw [owner] at hu hv
    exact hi.unique u v hu hv
  · apply hi.told u
    have hu : (if u = t then Pc.out else if s.pc u = .asleep then .check else s.pc u) = .returns false := hu
    split at hu
    next => cases hu
    next =>
      split at hu
      next => cases hu
      next => exact hu
  · exact absurd hu (wakeAll_pc_ne u)

theorem Inv.step (hi : Inv s) (h : Step s t s') : Inv s' := by
  cases h with
  | acquire out => apply hi.goto <;> simp [out, Pc.finishes, Pc.owner]
  | release first => apply hi.goto <;> simp [first, Pc.finishes, Pc.owner]
  | abort first => apply hi.goto <;> simp [first, Pc.finishes, Pc.owner]
  | exec gv pc h =>
      apply hi.set (effect_of_exec h)
      · rintro rfl
        exact finishes_of_exec h
      · rintro rfl
        exact eq_one_of_exec h
      · intro h6
        rw [h6] at h
        exact contended_of_exec h
      · rintro rfl
        exact eq_six_of_exec h
      · intro hw
        rw [hw] at h
        cases h
  | spurious asleep => apply hi.goto <;> simp [asleep, Pc.finishes, Pc.owner]
  | wake ht => exact hi.wakeAll ht

theorem Inv.reach (h : Reach s) : Inv s := by
  induction h with
  | start =>
      refine ⟨⟨?_, ?_⟩, ?_, ?_, ?_⟩ <;> simp [start, Pc.owner]
  | step _ step ih => exact ih.step step

/-- For every interleaving: one thread at most initialises the variable; `__cxa_guard_acquire` returns 0 only
after a `__cxa_guard_release`; and when the guard is idle or done, a thread that sleeps on it has a wake-up
call to come. -/
theorem guard_safe (h : Reach s) :
    (∀ t u, (s.pc t).owner = true → (s.pc u).owner = true → t = u) ∧
      (∀ t, s.pc t = .returns false → 0 < s.releases) ∧
      ¬ ((s.gv = 0#32 ∨ s.gv = 1#32) ∧ (∃ u, s.pc u = .asleep) ∧ ∀ t, s.pc t ≠ .wake) := by
  have inv := Inv.reach h
  refine ⟨inv.unique, inv.told, ?_⟩
  rintro ⟨idle, ⟨u, asleep⟩, none⟩
  cases inv.watched u asleep with
  | inl h6 =>
      rw [h6] at idle
      simp at idle
  | inr wake =>
      obtain ⟨t, ht⟩ := wake
      exact none t ht

/-! ### A run -/

/-- The listed threads run, one step each. -/
def Sys.schedule (s : Sys T) : List T → Sys T
  | [] => s
  | t :: ts =>
      match exec s.gv (s.pc t) with
      | some (gv, pc) => (s.set t gv pc).schedule ts
      | none => s.schedule ts

theorem Reach.schedule (h : Reach s) (ts : List T) : Reach (s.schedule ts) := by
  induction ts generalizing s with
  | nil => exact h
  | cons t ts ih =>
      unfold Sys.schedule
      split
      next gv pc e => exact ih (h.step (.exec gv pc e))
      next => exact ih h

/-- The thread 0 initialises the variable, and the thread 1 waits for it. -/
def contended : Sys (Fin 2) :=
  ((((start (Fin 2)).goto 0 .acquire).schedule [0, 0]).goto 1 .acquire).schedule [1, 1, 1]

/-- The thread 0 has set the guard to 1 and will call `__futex_wake`. -/
def released : Sys (Fin 2) := (contended.goto 0 .release).schedule [0, 0]

theorem guard_safe_released :
    released.gv = 1#32 ∧ released.pc 1 = .asleep ∧ ¬ ∀ t, released.pc t ≠ .wake := by
  have first : Reach (((start (Fin 2)).goto 0 .acquire).schedule [0, 0]) :=
    (Reach.start.step (.acquire rfl)).schedule _
  have second : Reach contended := (first.step (.acquire (t := 1) (by decide))).schedule _
  have third : Reach released := (second.step (.release (t := 0) (by decide))).schedule _
  have asleep : released.pc 1 = .asleep := by decide
  refine ⟨by decide, asleep, fun none => ?_⟩
  exact (guard_safe third).2.2 ⟨.inr (by decide), ⟨1, asleep⟩, none⟩

end Bionic.CxaGuard
