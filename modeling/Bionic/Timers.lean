import Mathlib.Data.List.FinRange
import Bionic.LinkedList

/-! # The table of `SIGEV_THREAD` timers (`libc/bionic/pthread-timers.c`)

Any number of threads call `timer_create` and `timer_delete`, the latter with any id, so that an id may be of a timer
that is gone and whose slot has been taken again.  Each timer has a thread, which ends when it sees `done` and then
frees the slot.  The functions on the table hold its lock and are one step each; the accesses to `done` and the read
of `timer->id` at the end of `timer_create` are steps of their own.  There is a table, and `pthread_create` succeeds.

The creations are numbered.  `timer` says where the timer of a creation stands, `occupant` which creation has taken a
slot last, `deletes` how many calls of `timer_delete` have found the timer of a creation.  The fields of a slot that
only the loop of `timer_thread_start` and `timer_settime` use are left out. -/

namespace Bionic.Timers

open LinkedList (Seg seg_nil seg_cons)

abbrev Word := BitVec 32

/-! ### Ids -/

abbrev MAX_THREAD_TIMERS : ℕ := 32

abbrev Slot := Fin MAX_THREAD_TIMERS

def TIMER_ID_WRAP_BIT : Word := 0x80000000
def TIMER_ID_WRAP (index : ℕ) : Word := BitVec.ofNat 32 index ||| TIMER_ID_WRAP_BIT
def TIMER_ID_UNWRAP (id : Word) : Word := id &&& ~~~TIMER_ID_WRAP_BIT
def TIMER_ID_IS_WRAPPED (id : Word) : Bool := id &&& TIMER_ID_WRAP_BIT ≠ 0
def TIMER_ID_NONE : Word := 0xffffffff
def TIMER_ID_IS_VALID (id : Word) : Bool := id ≠ TIMER_ID_NONE

/-! ### The table -/

/-- `thr_timer_table_t`, with the fields `next`, `id` and `done` of its timers. -/
structure Table where
  freeTimer : Option Slot
  next : Slot → Option Slot
  id : Slot → Word
  done : Slot → Bool

/-- The address of the timer behind `slot`, if there is one. -/
def following (slot : Slot) : Option Slot :=
  if h : slot.val + 1 < MAX_THREAD_TIMERS then some ⟨slot.val + 1, h⟩ else none

def thrTimerTableInit : Table where
  freeTimer := some 0
  next := following
  id := fun _ => TIMER_ID_NONE
  done := fun _ => false

def thrTimerTableAlloc (t : Table) : Option (Slot × Table) :=
  match t.freeTimer with
  | none => none
  | some timer =>
      some (timer, { t with
        freeTimer := t.next timer
        next := Function.update t.next timer none
        id := Function.update t.id timer (TIMER_ID_WRAP timer) })

def thrTimerTableFree (t : Table) (timer : Slot) : Table :=
  { t with
    id := Function.update t.id timer TIMER_ID_NONE
    next := Function.update t.next timer t.freeTimer
    freeTimer := some timer }

/-- `thr_timer_table_from_id(t, id, 1)`. -/
def thrTimerTableFromId (t : Table) (id : Word) : Option (Slot × Table) :=
  if TIMER_ID_IS_WRAPPED id then
    if h : (TIMER_ID_UNWRAP id).toNat < MAX_THREAD_TIMERS then
      let timer : Slot := ⟨(TIMER_ID_UNWRAP id).toNat, h⟩
      if TIMER_ID_IS_VALID (t.id timer) then
        some (timer, { t with id := Function.update t.id timer TIMER_ID_NONE })
      else none
    else none
  else none

def Table.setDone (t : Table) (timer : Slot) (done : Bool) : Table :=
  { t with done := Function.update t.done timer done }

/-! ### Threads -/

/-- A thread that calls the functions; `c` is the number of the creation. -/
inductive Caller
  | idle
  /-- In `timer_create`, before `timer->done = 0`. -/
  | init (c : ℕ) (timer : Slot)
  /-- Before `pthread_create`. -/
  | thread (c : ℕ) (timer : Slot)
  /-- Before `*ptimerid = timer->id`. -/
  | readId (c : ℕ) (timer : Slot)
  /-- Before `return 0` of `timer_create`. -/
  | created (c : ℕ) (id : Word)
  /-- In `timer_delete`, before `timer->done = 1`. -/
  | mark (c : ℕ) (timer : Slot)
  /-- Before `return 0` of `timer_delete`. -/
  | deleted (c : ℕ)
  /-- In `__timer_delete`, for a timer of the kernel. -/
  | kernel
  /-- Before `return -1`. -/
  | failed
deriving DecidableEq, Repr

/-- Where the timer of a creation stands. -/
inductive Timer
  | unborn
  /-- The slot is taken, and there is no thread yet. -/
  | making (timer : Slot)
  /-- The thread is in the loop of `timer_thread_start`. -/
  | running (timer : Slot)
  /-- The thread has seen `done`, and is before `thr_timer_table_free`. -/
  | freeing (timer : Slot)
  | freed
deriving DecidableEq, Repr

/-- The slot of a timer that has not been freed. -/
def Timer.slot : Timer → Option Slot
  | .making timer => some timer
  | .running timer => some timer
  | .freeing timer => some timer
  | _ => none

structure Sys (T : Type*) where
  table : Table
  caller : T → Caller
  timer : ℕ → Timer
  creations : ℕ
  occupant : Slot → ℕ
  deletes : ℕ → ℕ

variable {T : Type*}

/-- After `__timer_table_init`. -/
def start (T : Type*) : Sys T where
  table := thrTimerTableInit
  caller := fun _ => .idle
  timer := fun _ => .unborn
  creations := 0
  occupant := fun _ => 0
  deletes := fun _ => 0

section

variable [DecidableEq T] (s : Sys T)

def Sys.goto (t : T) (pc : Caller) : Sys T := { s with caller := Function.update s.caller t pc }

@[simp] theorem Sys.goto_caller_self (t : T) (pc : Caller) : (s.goto t pc).caller t = pc := by
  simp only [Sys.goto, Function.update_self]

theorem Sys.goto_caller_of_ne {t u : T} (pc : Caller) (h : u ≠ t) : (s.goto t pc).caller u = s.caller u := by
  simp only [Sys.goto, Function.update_of_ne h]

/-- At most one caller is at a place of the kind `Q`, if the one that goes on does not join another. -/
theorem Sys.goto_unique {Q : Caller → Prop} {t : T} {pc : Caller}
    (old : ∀ u v, Q (s.caller u) → Q (s.caller v) → u = v) (new : Q pc → ∀ u, Q (s.caller u) → t = u) {u v : T}
    (hu : Q ((s.goto t pc).caller u)) (hv : Q ((s.goto t pc).caller v)) : u = v := by
  by_cases eu : u = t
  · by_cases ev : v = t
    · rw [eu, ev]
    · rw [eu, s.goto_caller_self] at hu
      rw [s.goto_caller_of_ne pc ev] at hv
      rw [eu]
      exact new hu v hv
  · rw [s.goto_caller_of_ne pc eu] at hu
    by_cases ev : v = t
    · rw [ev, s.goto_caller_self] at hv
      rw [ev]
      exact (new hv u hu).symm
    · rw [s.goto_caller_of_ne pc ev] at hv
      exact old u v hu hv

/-- `timer_create` up to `thr_timer_table_alloc`. -/
def timerCreate (t : T) : Sys T :=
  match thrTimerTableAlloc s.table with
  | none => s.goto t .failed
  | some (timer, table) =>
      { s with
        table := table
        timer := Function.update s.timer s.creations (.making timer)
        creations := s.creations + 1
        occupant := Function.update s.occupant timer s.creations }.goto t (.init s.creations timer)

/-- `timer_delete` up to `thr_timer_table_from_id`. -/
def timerDelete (t : T) (id : Word) : Sys T :=
  if TIMER_ID_IS_WRAPPED id then
    match thrTimerTableFromId s.table id with
    | none => s.goto t .failed
    | some (timer, table) =>
        { s with
          table := table
          deletes := Function.update s.deletes (s.occupant timer) (s.deletes (s.occupant timer) + 1) }.goto t
            (.mark (s.occupant timer) timer)
  else s.goto t .kernel

/-- One step of a caller in its code. -/
def execCaller (t : T) : Option (Sys T) :=
  match s.caller t with
  | .idle => none
  | .init c timer => some ({ s with table := s.table.setDone timer false }.goto t (.thread c timer))
  | .thread c timer =>
      some ({ s with timer := Function.update s.timer c (.running timer) }.goto t (.readId c timer))
  | .readId c timer => some (s.goto t (.created c (s.table.id timer)))
  | .created _ _ => some (s.goto t .idle)
  | .mark c timer => some ({ s with table := s.table.setDone timer true }.goto t (.deleted c))
  | .deleted _ => some (s.goto t .idle)
  | .kernel => some (s.goto t .idle)
  | .failed => some (s.goto t .idle)

omit [DecidableEq T] in
/-- One step of the thread of the creation `c`; `none` if there is none, or if it goes on in its loop. -/
def execTimer (c : ℕ) : Option (Sys T) :=
  match s.timer c with
  | .running timer =>
      if s.table.done timer then some { s with timer := Function.update s.timer c (.freeing timer) } else none
  | .freeing timer =>
      some { s with
        table := thrTimerTableFree s.table timer
        timer := Function.update s.timer c .freed }
  | _ => none

end

inductive Step [DecidableEq T] (s : Sys T) : Sys T → Prop
  | create (t : T) (idle : s.caller t = .idle) : Step s (timerCreate s t)
  | delete (t : T) (id : Word) (idle : s.caller t = .idle) : Step s (timerDelete s t id)
  | caller (t : T) (s' : Sys T) (h : execCaller s t = some s') : Step s s'
  | timer (c : ℕ) (s' : Sys T) (h : execTimer s c = some s') : Step s s'

inductive Reach [DecidableEq T] : Sys T → Prop
  | start : Reach (start T)
  | step {s s' : Sys T} : Reach s → Step s s' → Reach s'

/-! ### The ids of the slots -/

theorem wrap_injective {timer timer' : Slot} (h : TIMER_ID_WRAP timer = TIMER_ID_WRAP timer') :
    timer = timer' := by
  revert timer timer'
  decide

/-- The free list of a new table, from the slot `k` on. -/
theorem seg_following (n k : ℕ) (h : k + n = MAX_THREAD_TIMERS) :
    Seg following (if hk : k < MAX_THREAD_TIMERS then some ⟨k, hk⟩ else none)
      ((List.finRange MAX_THREAD_TIMERS).drop k) none := by
  induction n generalizing k with
  | zero =>
      obtain rfl : k = MAX_THREAD_TIMERS := h
      rw [dif_neg (Nat.lt_irrefl _), List.drop_of_length_le (by simp), seg_nil]
  | succ n ih =>
      have hk : k < MAX_THREAD_TIMERS := by omega
      rw [dif_pos hk, List.drop_eq_getElem_cons (by simpa using hk), List.getElem_finRange, seg_cons]
      exact ⟨rfl, ih (k + 1) (by omega)⟩

/-! ### The invariant -/

/-- The slot is not free: the creation that has taken it last still has it. -/
def Sys.InUse (s : Sys T) (timer : Slot) : Prop := (s.timer (s.occupant timer)).slot = some timer

/-- The creation `c` has not been deleted, or its `done` is still to be set. -/
def Sys.Unmarked (s : Sys T) (c : ℕ) : Prop := s.deletes c = 0 ∨ ∃ t timer, s.caller t = .mark c timer

/-- The slots and the creations. -/
structure Placed (s : Sys T) : Prop where
  free : ∃ free, Seg s.table.next s.table.freeTimer free none ∧ ∀ timer, timer ∈ free ↔ ¬ s.InUse timer
  occupant : ∀ c timer, (s.timer c).slot = some timer → s.occupant timer = c
  unborn : ∀ c, s.creations ≤ c → s.timer c = .unborn ∧ s.deletes c = 0
  ids : ∀ c timer, (s.timer c).slot = some timer →
    s.table.id timer = TIMER_ID_WRAP timer ∧ s.deletes c = 0 ∨ s.table.id timer = TIMER_ID_NONE ∧ s.deletes c = 1
  freeIds : ∀ timer, ¬ s.InUse timer → s.table.id timer = TIMER_ID_NONE
  deletes : ∀ c, s.deletes c ≤ 1

/-- The creation a caller is busy with, before there is a thread. -/
def Caller.makes : Caller → Option (ℕ × Slot)
  | .init c timer => some (c, timer)
  | .thread c timer => some (c, timer)
  | _ => none

/-- What a caller knows. -/
structure CallerOk (s : Sys T) (pc : Caller) : Prop where
  born : ∀ c timer, pc = .readId c timer → c < s.creations
  making : ∀ c timer, pc.makes = some (c, timer) → s.timer c = .making timer
  unmarked : ∀ c timer, pc = .thread c timer → s.Unmarked c → s.table.done timer = false
  readId : ∀ c timer, pc = .readId c timer → s.deletes c = 0 → (s.timer c).slot = some timer
  created : ∀ c id, pc = .created c id → s.deletes c = 0 →
    ∃ timer, (s.timer c).slot = some timer ∧ id = TIMER_ID_WRAP timer
  mark : ∀ c timer, pc = .mark c timer → (s.timer c).slot = some timer ∧ s.deletes c = 1

/-- What the threads of the timers know. -/
structure TimerOk (s : Sys T) (c : ℕ) : Prop where
  running : ∀ timer, s.timer c = .running timer → s.Unmarked c → s.table.done timer = false
  freeing : ∀ timer, s.timer c = .freeing timer → ¬ s.Unmarked c

structure Inv (s : Sys T) : Prop extends Placed s where
  caller : ∀ t, CallerOk s (s.caller t)
  timerOk : ∀ c, TimerOk s c
  maker : ∀ t u c timer timer', (s.caller t).makes = some (c, timer) → (s.caller u).makes = some (c, timer') →
    t = u
  marker : ∀ t u c timer timer', s.caller t = .mark c timer → s.caller u = .mark c timer' → t = u

/-! ### The functions on the table -/

theorem alloc_cases {t t' : Table} {timer : Slot} (h : thrTimerTableAlloc t = some (timer, t')) :
    t.freeTimer = some timer ∧
      t' = { t with
        freeTimer := t.next timer
        next := Function.update t.next timer none
        id := Function.update t.id timer (TIMER_ID_WRAP timer) } := by
  unfold thrTimerTableAlloc at h
  split at h
  next => cases h
  next a free =>
      obtain ⟨rfl, rfl⟩ := Prod.mk.inj (Option.some.inj h)
      exact ⟨free, rfl⟩

theorem from_id_cases {t t' : Table} {id : Word} {timer : Slot}
    (h : thrTimerTableFromId t id = some (timer, t')) :
    t.id timer ≠ TIMER_ID_NONE ∧ t' = { t with id := Function.update t.id timer TIMER_ID_NONE } := by
  unfold thrTimerTableFromId at h
  split at h
  next =>
      split at h
      next =>
          dsimp only at h
          split at h
          next valid =>
              obtain ⟨rfl, rfl⟩ := Prod.mk.inj (Option.some.inj h)
              exact ⟨of_decide_eq_true valid, rfl⟩
          next => cases h
      next => cases h
  next => cases h

/-! ### The slots and the creations, step by step -/

theorem slot_update {timers : ℕ → Timer} {c : ℕ} {timer : Slot} {next : Timer}
    (held : (timers c).slot = some timer) (keeps : next.slot = some timer) (c' : ℕ) :
    (Function.update timers c next c').slot = (timers c').slot := by
  by_cases e : c' = c
  · rw [e, Function.update_self, keeps, held]
  · rw [Function.update_of_ne e]

namespace Placed

variable {s : Sys T}

theorem start : Placed (start T) where
  free := by
    refine ⟨List.finRange MAX_THREAD_TIMERS, seg_following MAX_THREAD_TIMERS 0 rfl, fun timer => ?_⟩
    exact iff_of_true (List.mem_finRange timer) (fun h => nomatch h)
  occupant := fun _ _ h => nomatch h
  unborn := fun _ _ => ⟨rfl, rfl⟩
  ids := fun _ _ h => nomatch h
  freeIds := fun _ _ => rfl
  deletes := fun _ => Nat.zero_le 1

theorem inUse (h : Placed s) {c : ℕ} {timer : Slot} (held : (s.timer c).slot = some timer) : s.InUse timer := by
  rw [Sys.InUse, h.occupant c timer held]
  exact held

theorem born (h : Placed s) {c : ℕ} {timer : Slot} (held : (s.timer c).slot = some timer) : c < s.creations := by
  by_contra le
  rw [(h.unborn c (Nat.le_of_not_lt le)).1] at held
  cases held

/-- A change of a timer that has a slot is none of a creation to come. -/
theorem unborn_update (h : Placed s) {c c' : ℕ} {timer : Slot} {next : Timer} (held : (s.timer c).slot = some timer)
    (le : s.creations ≤ c') : Function.update s.timer c next c' = .unborn ∧ s.deletes c' = 0 := by
  have ne : c' ≠ c := by
    rintro rfl
    exact Nat.not_lt.2 le (h.born held)
  rw [Function.update_of_ne ne]
  exact h.unborn c' le

/-- A new creation takes the first slot of the free list. -/
theorem alloc (h : Placed s) {timer : Slot} {table : Table}
    (ha : thrTimerTableAlloc s.table = some (timer, table)) :
    Placed { s with
      table := table
      timer := Function.update s.timer s.creations (.making timer)
      creations := s.creations + 1
      occupant := Function.update s.occupant timer s.creations } := by
  obtain ⟨first, rfl⟩ := alloc_cases ha
  obtain ⟨free, seg, mem⟩ := h.free
  cases free with
  | nil => cases first.symm.trans seg
  | cons a free =>
      obtain rfl : timer = a := Option.some.inj (first.symm.trans seg.1)
      have fresh : ¬ s.InUse timer := (mem timer).1 List.mem_cons_self
      have out : timer ∉ free := (List.nodup_cons.1 seg.nodup).1
      have same : ∀ other, other ≠ timer →
          ((Function.update s.timer s.creations (.making timer) (s.occupant other)).slot = some other ↔
            s.InUse other) := by
        intro other ne
        by_cases e : s.occupant other = s.creations
        · rw [Sys.InUse, e, Function.update_self, (h.unborn _ (Nat.le_refl _)).1]
          constructor
          · intro he
            exact absurd (Option.some.inj he).symm ne
          · intro he
            cases he
        · rw [Function.update_of_ne e]
          exact Iff.rfl
      have others : ∀ c other, c ≠ s.creations → (s.timer c).slot = some other → other ≠ timer := by
        rintro c other - held rfl
        exact fresh (h.inUse held)
      refine ⟨⟨free, seg.2.update out none, fun other => ?_⟩, fun c other held => ?_, fun c le => ?_,
        fun c other held => ?_, fun other notUsed => ?_, h.deletes⟩
      · unfold Sys.InUse
        dsimp only
        by_cases ne : other = timer
        · obtain rfl := ne
          rw [Function.update_self, Function.update_self]
          exact iff_of_false out (fun he => he rfl)
        · rw [Function.update_of_ne ne, same other ne, ← mem other, List.mem_cons]
          exact ⟨Or.inr, fun hm => hm.resolve_left ne⟩
      · dsimp only at held ⊢
        by_cases e : c = s.creations
        · rw [e, Function.update_self] at held
          obtain rfl := Option.some.inj held
          rw [Function.update_self, e]
        · rw [Function.update_of_ne e] at held
          rw [Function.update_of_ne (others c other e held)]
          exact h.occupant c other held
      · dsimp only at le ⊢
        rw [Function.update_of_ne (Nat.ne_of_gt le)]
        exact h.unborn c (Nat.le_of_lt le)
      · dsimp only at held ⊢
        by_cases e : c = s.creations
        · rw [e, Function.update_self] at held
          obtain rfl := Option.some.inj held
          rw [Function.update_self, e]
          exact .inl ⟨rfl, (h.unborn _ (Nat.le_refl _)).2⟩
        · rw [Function.update_of_ne e] at held
          rw [Function.update_of_ne (others c other e held)]
          exact h.ids c other held
      · unfold Sys.InUse at notUsed
        dsimp only at notUsed ⊢
        by_cases ne : other = timer
        · obtain rfl := ne
          rw [Function.update_self, Function.update_self] at notUsed
          exact absurd rfl notUsed
        · rw [Function.update_of_ne ne] at notUsed ⊢
          exact h.freeIds other fun used => notUsed ((same other ne).2 used)

/-- `timer_delete` takes the id away from the creation that has the slot. -/
theorem remove (h : Placed s) {timer : Slot} (valid : s.table.id timer ≠ TIMER_ID_NONE) :
    s.InUse timer ∧ s.deletes (s.occupant timer) = 0 ∧
      Placed { s with
        table := { s.table with id := Function.update s.table.id timer TIMER_ID_NONE }
        deletes := Function.update s.deletes (s.occupant timer) (s.deletes (s.occupant timer) + 1) } := by
  have used : s.InUse timer := by
    by_contra notUsed
    exact valid (h.freeIds timer notUsed)
  have zero : s.deletes (s.occupant timer) = 0 := by
    rcases h.ids _ timer used with ⟨-, zero⟩ | ⟨none, -⟩
    · exact zero
    · exact absurd none valid
  refine ⟨used, zero, h.free, h.occupant, fun c le => ?_, fun c other held => ?_, fun other notUsed => ?_,
    fun c => ?_⟩
  · have ne : c ≠ s.occupant timer := by
      rintro rfl
      exact Nat.not_lt.2 le (h.born used)
    dsimp only
    rw [Function.update_of_ne ne]
    exact h.unborn c le
  · dsimp only at held ⊢
    have occupant := h.occupant c other held
    by_cases e : other = timer
    · rw [← occupant, e, Function.update_self, Function.update_self, zero]
      exact .inr ⟨rfl, rfl⟩
    · have ne : c ≠ s.occupant timer := by
        intro he
        rw [he] at held
        exact e (Option.some.inj (held.symm.trans used))
      rw [Function.update_of_ne e, Function.update_of_ne ne]
      exact h.ids c other held
  · have ne : other ≠ timer := by
      rintro rfl
      exact notUsed used
    dsimp only
    rw [Function.update_of_ne ne]
    exact h.freeIds other notUsed
  · dsimp only
    by_cases e : c = s.occupant timer
    · rw [e, Function.update_self, zero]
    · rw [Function.update_of_ne e]
      exact h.deletes c

/-- The thread of the creation `c` gives its slot back. -/
theorem release (h : Placed s) {c : ℕ} {timer : Slot} (held : (s.timer c).slot = some timer) :
    Placed { s with
      table := thrTimerTableFree s.table timer
      timer := Function.update s.timer c .freed } := by
  obtain ⟨free, seg, mem⟩ := h.free
  have out : timer ∉ free := fun hm => (mem timer).1 hm (h.inUse held)
  have unique : ∀ other, (s.timer c).slot = some other → other = timer := fun other ho =>
    Option.some.inj (ho.symm.trans held)
  have same : ∀ other, other ≠ timer →
      ((Function.update s.timer c .freed (s.occupant other)).slot = some other ↔ s.InUse other) := by
    intro other ne
    by_cases e : s.occupant other = c
    · rw [Sys.InUse, e, Function.update_self]
      exact iff_of_false (fun he => nomatch he) (fun he => ne (unique other he))
    · rw [Function.update_of_ne e]
      exact Iff.rfl
  have others : ∀ c' other, (Function.update s.timer c .freed c').slot = some other →
      (s.timer c').slot = some other ∧ other ≠ timer := by
    intro c' other ho
    by_cases e : c' = c
    · rw [e, Function.update_self] at ho
      cases ho
    · rw [Function.update_of_ne e] at ho
      refine ⟨ho, ?_⟩
      rintro rfl
      exact e ((h.occupant c' other ho).symm.trans (h.occupant c other held))
  refine ⟨⟨timer :: free, seg.push_front out, fun other => ?_⟩, fun c' other ho => ?_, fun c' le => ?_,
    fun c' other ho => ?_, fun other notUsed => ?_, h.deletes⟩
  · unfold Sys.InUse
    dsimp only
    by_cases e : other = timer
    · rw [e, h.occupant c timer held, Function.update_self]
      exact iff_of_true List.mem_cons_self (fun he => nomatch he)
    · rw [same other e, ← mem other, List.mem_cons]
      exact ⟨fun hm => hm.resolve_left e, Or.inr⟩
  · exact h.occupant c' other (others c' other ho).1
  · exact h.unborn_update held le
  · dsimp only [thrTimerTableFree]
    rw [Function.update_of_ne (others c' other ho).2]
    exact h.ids c' other (others c' other ho).1
  · unfold Sys.InUse at notUsed
    dsimp only [thrTimerTableFree] at notUsed ⊢
    by_cases e : other = timer
    · rw [e, Function.update_self]
    · rw [Function.update_of_ne e]
      exact h.freeIds other fun used => notUsed ((same other e).2 used)

/-- The timer of a creation goes on, with its slot. -/
theorem advance (h : Placed s) {c : ℕ} {timer : Slot} {next : Timer} (held : (s.timer c).slot = some timer)
    (keeps : next.slot = some timer) : Placed { s with timer := Function.update s.timer c next } := by
  have same := slot_update held keeps
  have used : ∀ other, (Function.update s.timer c next (s.occupant other)).slot = some other ↔ s.InUse other := by
    intro other
    rw [same]
    exact Iff.rfl
  obtain ⟨free, seg, mem⟩ := h.free
  refine ⟨⟨free, seg, fun other => (mem other).trans (not_congr (used other)).symm⟩, fun c' other ho => ?_,
    fun c' le => ?_, fun c' other ho => ?_, fun other notUsed => ?_, h.deletes⟩
  · exact h.occupant c' other ((same c').symm.trans ho)
  · exact h.unborn_update held le
  · exact h.ids c' other ((same c').symm.trans ho)
  · exact h.freeIds other fun hu => notUsed ((used other).2 hu)

end Placed

/-! ### The callers and the threads of the timers, step by step -/

/-- A caller that goes on, and is not going to mark a timer, leaves as unmarked what others are going to mark. -/
theorem Sys.Unmarked.of_goto [DecidableEq T] {s : Sys T} {t : T} {pc : Caller} {c : ℕ}
    (notMark : ∀ c timer, pc ≠ .mark c timer) (h : (s.goto t pc).Unmarked c) :
    s.deletes c = 0 ∨ ∃ u timer, u ≠ t ∧ s.caller u = .mark c timer := by
  rcases h with zero | ⟨u, timer, hu⟩
  · exact .inl zero
  · by_cases e : u = t
    · rw [e, Sys.goto_caller_self] at hu
      exact absurd hu (notMark c timer)
    · rw [Sys.goto_caller_of_ne _ _ e] at hu
      exact .inr ⟨u, timer, e, hu⟩

/-- A caller that is in neither function, has marked its timer or has not found one, knows nothing. -/
theorem CallerOk.of_plain {s : Sys T} {pc : Caller}
    (h : pc = .idle ∨ pc = .kernel ∨ pc = .failed ∨ ∃ c, pc = .deleted c) : CallerOk s pc := by
  rcases h with rfl | rfl | rfl | ⟨c, rfl⟩ <;> constructor <;> intro _ _ h <;> cases h

/-- What a caller knows survives a change of the timers that leaves those it is making, and the slots of those that
have not been deleted or that it is going to mark. -/
theorem CallerOk.of_timers {s s' : Sys T} {pc : Caller} (ok : CallerOk s pc) (born : s.creations ≤ s'.creations)
    (done : s'.table.done = s.table.done) (deletes : s'.deletes = s.deletes) (caller : s'.caller = s.caller)
    (making : ∀ c timer, pc.makes = some (c, timer) → s'.timer c = s.timer c)
    (keeps : ∀ c timer, (s.timer c).slot = some timer → s.deletes c = 0 ∨ pc = .mark c timer →
      (s'.timer c).slot = some timer) : CallerOk s' pc where
  born := fun c timer he => Nat.lt_of_lt_of_le (ok.born c timer he) born
  making := fun c timer hm => (making c timer hm).trans (ok.making c timer hm)
  unmarked := by
    unfold Sys.Unmarked
    rw [done, deletes, caller]
    exact ok.unmarked
  readId := fun c timer he zero => by
    rw [deletes] at zero
    exact keeps c timer (ok.readId c timer he zero) (.inl zero)
  created := fun c id he zero => by
    rw [deletes] at zero
    obtain ⟨timer, held, hid⟩ := ok.created c id he zero
    exact ⟨timer, keeps c timer held (.inl zero), hid⟩
  mark := fun c timer he => by
    obtain ⟨held, one⟩ := ok.mark c timer he
    rw [deletes]
    exact ⟨keeps c timer held (.inr he), one⟩

/-- What the threads of the timers know survives the change of one of them. -/
theorem TimerOk.of_update {s s' : Sys T} {c : ℕ} {next : Timer} (ok : ∀ c, TimerOk s c)
    (timer : s'.timer = Function.update s.timer c next) (done : s'.table.done = s.table.done)
    (deletes : s'.deletes = s.deletes) (caller : s'.caller = s.caller)
    (running : ∀ slot, next = .running slot → s.Unmarked c → s.table.done slot = false)
    (freeing : ∀ slot, next = .freeing slot → ¬ s.Unmarked c) (c' : ℕ) : TimerOk s' c' := by
  have same : s'.Unmarked c' = s.Unmarked c' := by
    unfold Sys.Unmarked
    rw [deletes, caller]
  by_cases e : c' = c
  · refine ⟨fun slot he => ?_, fun slot he => ?_⟩
    · rw [timer, e, Function.update_self] at he
      rw [same, done, e]
      exact running slot he
    · rw [timer, e, Function.update_self] at he
      rw [same, e]
      exact freeing slot he
  · refine ⟨fun slot he => ?_, fun slot he => ?_⟩
    · rw [timer, Function.update_of_ne e] at he
      rw [same, done]
      exact (ok c').running slot he
    · rw [timer, Function.update_of_ne e] at he
      rw [same]
      exact (ok c').freeing slot he

namespace Inv

variable {s : Sys T}

theorem start : Inv (start T) where
  toPlaced := Placed.start
  caller := fun _ => CallerOk.of_plain (.inl rfl)
  timerOk := fun _ => ⟨(fun _ h => nomatch h), (fun _ h => nomatch h)⟩
  maker := fun _ _ _ _ _ h => nomatch h
  marker := fun _ _ _ _ _ h => nomatch h

/-- A timer that has a thread is not being made. -/
theorem not_making (h : Inv s) {c : ℕ} (ne : ∀ timer, s.timer c ≠ .making timer) (t : T) (timer : Slot) :
    (s.caller t).makes ≠ some (c, timer) := fun hm => ne timer ((h.caller t).making c timer hm)

section

variable [DecidableEq T]

/-- A caller goes on to a place where it has found no timer to delete. -/
theorem goto (h : Inv s) {t : T} {pc : Caller} (ok : CallerOk s pc) (notMark : ∀ c timer, pc ≠ .mark c timer)
    (maker : ∀ u c timer timer', pc.makes = some (c, timer) → (s.caller u).makes = some (c, timer') → t = u) :
    Inv (s.goto t pc) := by
  have unmarked : ∀ c, (s.goto t pc).Unmarked c → s.Unmarked c := by
    intro c hu
    rcases hu.of_goto notMark with zero | ⟨u, timer, -, marks⟩
    · exact .inl zero
    · exact .inr ⟨u, timer, marks⟩
  have keeps : ∀ pc', CallerOk s pc' → CallerOk (s.goto t pc) pc' := fun pc' ok' =>
    { ok' with unmarked := fun c timer he hu => ok'.unmarked c timer he (unmarked c hu) }
  refine ⟨{ h.toPlaced with }, fun u => keeps _ ?_, fun c => ⟨?_, ?_⟩, fun u v c timer timer' hu hv => ?_,
    fun u v c timer timer' hu hv => ?_⟩
  · by_cases e : u = t
    · rw [e, Sys.goto_caller_self]
      exact ok
    · rw [Sys.goto_caller_of_ne _ _ e]
      exact h.caller u
  · exact fun timer running hu => (h.timerOk c).running timer running (unmarked c hu)
  · exact fun timer freeing hu => (h.timerOk c).freeing timer freeing (unmarked c hu)
  · refine s.goto_unique (Q := fun pc => ∃ timer, pc.makes = some (c, timer)) ?_ ?_ ⟨timer, hu⟩ ⟨timer', hv⟩
    · rintro u v ⟨x, hx⟩ ⟨y, hy⟩
      exact h.maker u v c x y hx hy
    · rintro ⟨x, hx⟩ u ⟨y, hy⟩
      exact maker u c x y hx hy
  · refine s.goto_unique (Q := fun pc => ∃ timer, pc = .mark c timer) ?_ ?_ ⟨timer, hu⟩ ⟨timer', hv⟩
    · rintro u v ⟨x, hx⟩ ⟨y, hy⟩
      exact h.marker u v c x y hx hy
    · rintro ⟨x, hx⟩
      exact absurd hx (notMark c x)

/-- A caller goes on to a place where it is not making a timer, nor deleting one. -/
theorem goto_plain (h : Inv s) {t : T} {pc : Caller} (ok : CallerOk s pc) (notMark : ∀ c timer, pc ≠ .mark c timer)
    (makes : pc.makes = none) : Inv (s.goto t pc) := by
  refine h.goto ok notMark fun u c timer timer' hm => ?_
  rw [makes] at hm
  cases hm

end

/-- `timer->done = done`, which must not be 1 for a timer that has not been deleted. -/
theorem setDone (h : Inv s) {timer : Slot} {done : Bool}
    (ok : ∀ c, (s.timer c).slot = some timer → s.Unmarked c → done = false) :
    Inv { s with table := s.table.setDone timer done } := by
  have keeps : ∀ c other, (s.timer c).slot = some other → s.Unmarked c → s.table.done other = false →
      (s.table.setDone timer done).done other = false := by
    intro c other held unmarked old
    rw [Table.setDone]
    dsimp only
    by_cases e : other = timer
    · rw [e, Function.update_self]
      exact ok c (e ▸ held) unmarked
    · rw [Function.update_of_ne e]
      exact old
  refine ⟨{ h.toPlaced with }, fun t => ?_, fun c => ⟨fun timer' running hu => ?_, ?_⟩, h.maker, h.marker⟩
  · refine { h.caller t with unmarked := fun c timer' he hu => ?_ }
    have making := (h.caller t).making c timer' (by rw [he]; rfl)
    exact keeps c timer' (by rw [making]; rfl) hu ((h.caller t).unmarked c timer' he hu)
  · exact keeps c timer' (by rw [running]; rfl) hu ((h.timerOk c).running timer' running hu)
  · exact (h.timerOk c).freeing

/-- The timer of a creation that no caller is making goes on, with its slot. -/
theorem advance (h : Inv s) {c : ℕ} {timer : Slot} {next : Timer} (held : (s.timer c).slot = some timer)
    (keeps : next.slot = some timer) (made : ∀ t other, (s.caller t).makes ≠ some (c, other))
    (running : ∀ other, next = .running other → s.Unmarked c → s.table.done other = false)
    (freeing : ∀ other, next = .freeing other → ¬ s.Unmarked c) :
    Inv { s with timer := Function.update s.timer c next } := by
  have same := slot_update held keeps
  refine ⟨h.toPlaced.advance held keeps, fun t => ?_, ?_, h.maker, h.marker⟩
  · refine (h.caller t).of_timers (Nat.le_refl _) rfl rfl rfl (fun c' other hm => ?_) fun c' other ho _ => ?_
    · have ne : c' ≠ c := by
        rintro rfl
        exact made t other hm
      exact Function.update_of_ne ne _ _
    · exact (same c').trans ho
  · exact TimerOk.of_update h.timerOk rfl rfl rfl rfl running freeing

/-- The thread of a timer frees its slot: the timer has been deleted, and marked. -/
theorem release (h : Inv s) {c : ℕ} {timer : Slot} (freeing : s.timer c = .freeing timer) :
    Inv { s with
      table := thrTimerTableFree s.table timer
      timer := Function.update s.timer c .freed } := by
  have held : (s.timer c).slot = some timer := by rw [freeing]; rfl
  have marked := (h.timerOk c).freeing timer freeing
  have deleted : s.deletes c ≠ 0 := fun zero => marked (.inl zero)
  refine ⟨h.toPlaced.release held, fun t => ?_, ?_, h.maker, h.marker⟩
  · refine (h.caller t).of_timers (Nat.le_refl _) rfl rfl rfl (fun c' slot hm => ?_) fun c' slot ho known => ?_
    · have ne : c' ≠ c := by
        rintro rfl
        cases freeing.symm.trans ((h.caller t).making c' slot hm)
      exact Function.update_of_ne ne _ _
    · have ne : c' ≠ c := by
        rintro rfl
        rcases known with zero | marks
        · exact deleted zero
        · exact marked (.inr ⟨t, slot, marks⟩)
      dsimp only
      rw [Function.update_of_ne ne]
      exact ho
  · exact TimerOk.of_update h.timerOk rfl rfl rfl rfl (fun _ e => nomatch e) (fun _ e => nomatch e)

theorem execTimer (h : Inv s) {c : ℕ} {s' : Sys T} (he : execTimer s c = some s') : Inv s' := by
  unfold Timers.execTimer at he
  split at he
  next timer running =>
      split at he
      next done =>
          obtain rfl := Option.some.inj he
          refine h.advance (by rw [running]; rfl) rfl ?_ (fun _ e => nomatch e) fun _ _ unmarked => ?_
          · exact fun t other => h.not_making (fun slot e => by rw [running] at e; cases e) t other
          · rw [(h.timerOk c).running timer running unmarked] at done
            cases done
      next => cases he
  next timer freeing =>
      obtain rfl := Option.some.inj he
      exact h.release freeing
  next => cases he

/-- The slot and the number of a new creation. -/
theorem alloc (h : Inv s) {timer : Slot} {table : Table}
    (ha : thrTimerTableAlloc s.table = some (timer, table)) :
    Inv { s with
      table := table
      timer := Function.update s.timer s.creations (.making timer)
      creations := s.creations + 1
      occupant := Function.update s.occupant timer s.creations } := by
  have held : ∀ c other, (s.timer c).slot = some other → c ≠ s.creations := fun c other ho =>
    Nat.ne_of_lt (h.born ho)
  have done : table.done = s.table.done := by
    rw [(alloc_cases ha).2]
  refine ⟨h.toPlaced.alloc ha, fun t => ?_, ?_, h.maker, h.marker⟩
  · refine (h.caller t).of_timers (Nat.le_succ _) done rfl rfl (fun c slot hm => ?_) fun c slot ho _ => ?_
    · have making := (h.caller t).making c slot hm
      exact Function.update_of_ne (held c slot (by rw [making]; rfl)) _ _
    · dsimp only
      rw [Function.update_of_ne (held c slot ho)]
      exact ho
  · exact TimerOk.of_update h.timerOk rfl done rfl rfl (fun _ e => nomatch e) (fun _ e => nomatch e)

variable [DecidableEq T]

theorem timerCreate (h : Inv s) (t : T) : Inv (timerCreate s t) := by
  unfold Timers.timerCreate
  split
  next => exact h.goto_plain (.of_plain (.inr (.inr (.inl rfl)))) (fun _ _ e => nomatch e) rfl
  next timer table ha =>
      refine (h.alloc ha).goto ?_ (fun _ _ e => nomatch e) fun u c slot slot' hm hu => ?_
      · refine ⟨(fun _ _ e => nomatch e), fun c slot hm => ?_, (fun _ _ e => nomatch e), (fun _ _ e => nomatch e),
          (fun _ _ e => nomatch e), (fun _ _ e => nomatch e)⟩
        cases hm
        dsimp only
        rw [Function.update_self]
      · cases hm
        have making := (h.caller u).making s.creations slot' hu
        rw [(h.unborn s.creations (Nat.le_refl _)).1] at making
        cases making

/-- A call of `timer_delete` that finds a timer is the only one to find it. -/
theorem remove (h : Inv s) {t : T} {timer : Slot} (valid : s.table.id timer ≠ TIMER_ID_NONE) :
    Inv ({ s with
      table := { s.table with id := Function.update s.table.id timer TIMER_ID_NONE }
      deletes := Function.update s.deletes (s.occupant timer) (s.deletes (s.occupant timer) + 1) }.goto t
        (.mark (s.occupant timer) timer)) := by
  obtain ⟨used, zero, placed⟩ := h.toPlaced.remove valid
  have deletes : ∀ c, Function.update s.deletes (s.occupant timer) (s.deletes (s.occupant timer) + 1) c = 0 →
      s.deletes c = 0 := by
    intro c hz
    by_cases e : c = s.occupant timer
    · rw [e]
      exact zero
    · rwa [Function.update_of_ne e] at hz
  have first : ∀ u c slot, s.caller u = .mark c slot → c ≠ s.occupant timer := by
    rintro u c slot hu rfl
    have one := ((h.caller u).mark _ slot hu).2
    omega
  have unmarked : ∀ c, ({ s with
      table := { s.table with id := Function.update s.table.id timer TIMER_ID_NONE }
      deletes := Function.update s.deletes (s.occupant timer) (s.deletes (s.occupant timer) + 1) }.goto t
        (.mark (s.occupant timer) timer)).Unmarked c → s.Unmarked c := by
    rintro c (hz | ⟨u, slot, hu⟩)
    · exact .inl (deletes c hz)
    · by_cases e : u = t
      · rw [e, Sys.goto_caller_self] at hu
        cases hu
        exact .inl zero
      · rw [Sys.goto_caller_of_ne _ _ e] at hu
        exact .inr ⟨u, slot, hu⟩
  refine ⟨{ placed with }, fun u => ?_, fun c => ?_, fun u v c slot slot' hu hv => ?_,
    fun u v c slot slot' hu hv => ?_⟩
  · by_cases e : u = t
    · rw [e, Sys.goto_caller_self]
      refine ⟨(fun _ _ e => nomatch e), (fun _ _ e => nomatch e), (fun _ _ e => nomatch e),
        (fun _ _ e => nomatch e), (fun _ _ e => nomatch e), fun c slot hm => ?_⟩
      cases hm
      refine ⟨used, ?_⟩
      simp only [Sys.goto, Function.update_self, zero]
    · rw [Sys.goto_caller_of_ne _ _ e]
      refine { h.caller u with
        unmarked := fun c slot he hu => (h.caller u).unmarked c slot he (unmarked c hu)
        readId := fun c slot he hz => (h.caller u).readId c slot he (deletes c hz)
        created := fun c id he hz => (h.caller u).created c id he (deletes c hz)
        mark := fun c slot he => ?_ }
      obtain ⟨held, one⟩ := (h.caller u).mark c slot he
      refine ⟨held, ?_⟩
      dsimp only [Sys.goto]
      rw [Function.update_of_ne (first u c slot he)]
      exact one
  · exact ⟨fun slot he hu => (h.timerOk c).running slot he (unmarked c hu),
      fun slot he hu => (h.timerOk c).freeing slot he (unmarked c hu)⟩
  · refine Sys.goto_unique _ (Q := fun pc => ∃ slot, pc.makes = some (c, slot)) ?_ ?_ ⟨slot, hu⟩ ⟨slot', hv⟩
    · rintro u v ⟨x, hx⟩ ⟨y, hy⟩
      exact h.maker u v c x y hx hy
    · rintro ⟨x, hx⟩
      cases hx
  · refine Sys.goto_unique _ (Q := fun pc => ∃ slot, pc = .mark c slot) ?_ ?_ ⟨slot, hu⟩ ⟨slot', hv⟩
    · rintro u v ⟨x, hx⟩ ⟨y, hy⟩
      exact h.marker u v c x y hx hy
    · rintro ⟨x, hx⟩ u ⟨y, hy⟩
      cases hx
      exact absurd rfl (first u _ y hy)

theorem timerDelete (h : Inv s) (t : T) (id : Word) : Inv (timerDelete s t id) := by
  unfold Timers.timerDelete
  split
  next =>
      split
      next => exact h.goto_plain (.of_plain (.inr (.inr (.inl rfl)))) (fun _ _ e => nomatch e) rfl
      next timer table hf =>
          obtain ⟨valid, rfl⟩ := from_id_cases hf
          exact h.remove valid
  next => exact h.goto_plain (.of_plain (.inr (.inl rfl))) (fun _ _ e => nomatch e) rfl

/-- `timer->done = 0` in `timer_create`. -/
theorem exec_init (h : Inv s) {t : T} {c : ℕ} {timer : Slot} (pc : s.caller t = .init c timer) :
    Inv ({ s with table := s.table.setDone timer false }.goto t (.thread c timer)) := by
  have makes : (s.caller t).makes = some (c, timer) := by
    rw [pc]
    rfl
  refine (h.setDone fun _ _ _ => rfl).goto ?_ (fun _ _ e => nomatch e) fun u c' slot slot' hm hu => ?_
  · refine ⟨(fun _ _ e => nomatch e), fun c' slot hm => ?_, fun c' slot hm _ => ?_, (fun _ _ e => nomatch e),
      (fun _ _ e => nomatch e), (fun _ _ e => nomatch e)⟩
    · cases hm
      exact (h.caller t).making c timer makes
    · cases hm
      simp only [Table.setDone, Function.update_self]
  · cases hm
    exact h.maker t u c timer slot' makes hu

/-- `pthread_create` in `timer_create`. -/
theorem exec_thread (h : Inv s) {t : T} {c : ℕ} {timer : Slot} (pc : s.caller t = .thread c timer) :
    Inv ({ s with timer := Function.update s.timer c (.running timer) }.goto t (.readId c timer)) := by
  have makes : (s.caller t).makes = some (c, timer) := by
    rw [pc]
    rfl
  have held : (s.timer c).slot = some timer := by
    rw [(h.caller t).making c timer makes]
    rfl
  have left : Inv (s.goto t (.readId c timer)) := by
    refine h.goto_plain ?_ (fun _ _ e => nomatch e) rfl
    refine ⟨fun c' slot hr => ?_, (fun _ _ e => nomatch e), (fun _ _ e => nomatch e), fun c' slot hr _ => ?_,
      (fun _ _ e => nomatch e), (fun _ _ e => nomatch e)⟩
    · cases hr
      exact h.born held
    · cases hr
      exact held
  refine left.advance held rfl (fun u slot hu => ?_) (fun slot e unmarked => ?_) (fun _ e => nomatch e)
  · by_cases e : u = t
    · rw [e, Sys.goto_caller_self] at hu
      cases hu
    · rw [Sys.goto_caller_of_ne _ _ e] at hu
      exact e (h.maker u t c slot timer hu makes)
  · cases e
    apply (h.caller t).unmarked c timer pc
    rcases unmarked.of_goto (by nofun) with zero | ⟨u, slot, -, marks⟩
    · exact .inl zero
    · exact .inr ⟨u, slot, marks⟩

/-- `*ptimerid = timer->id` in `timer_create`. -/
theorem exec_readId (h : Inv s) {t : T} {c : ℕ} {timer : Slot} (pc : s.caller t = .readId c timer) :
    Inv (s.goto t (.created c (s.table.id timer))) := by
  refine h.goto_plain ?_ (fun _ _ e => nomatch e) rfl
  refine ⟨(fun _ _ e => nomatch e), (fun _ _ e => nomatch e), (fun _ _ e => nomatch e), (fun _ _ e => nomatch e),
    fun c' id hc zero => ?_, (fun _ _ e => nomatch e)⟩
  cases hc
  have held := (h.caller t).readId c timer pc zero
  rcases h.ids c timer held with ⟨wrapped, -⟩ | ⟨-, one⟩
  · exact ⟨timer, held, wrapped⟩
  · omega

/-- `timer->done = 1` in `timer_delete`. -/
theorem exec_mark (h : Inv s) {t : T} {c : ℕ} {timer : Slot} (pc : s.caller t = .mark c timer) :
    Inv ({ s with table := s.table.setDone timer true }.goto t (.deleted c)) := by
  obtain ⟨held, one⟩ := (h.caller t).mark c timer pc
  have left : Inv (s.goto t (.deleted c)) :=
    h.goto_plain (.of_plain (.inr (.inr (.inr ⟨c, rfl⟩)))) (fun _ _ e => nomatch e) rfl
  refine left.setDone fun c' held' unmarked => ?_
  obtain rfl : c' = c := (h.occupant c' timer held').symm.trans (h.occupant c timer held)
  have others := Sys.Unmarked.of_goto (by nofun) unmarked
  rcases others with zero | ⟨u, slot, ne, marks⟩
  · omega
  · exact absurd (h.marker u t c' slot timer marks pc) ne

theorem execCaller (h : Inv s) {t : T} {s' : Sys T} (he : execCaller s t = some s') : Inv s' := by
  have idle : Inv (s.goto t .idle) := h.goto_plain (.of_plain (.inl rfl)) (fun _ _ e => nomatch e) rfl
  unfold Timers.execCaller at he
  split at he
  next => cases he
  next c timer pc => exact Option.some.inj he ▸ h.exec_init pc
  next c timer pc => exact Option.some.inj he ▸ h.exec_thread pc
  next c timer pc => exact Option.some.inj he ▸ h.exec_readId pc
  next => exact Option.some.inj he ▸ idle
  next c timer pc => exact Option.some.inj he ▸ h.exec_mark pc
  next => exact Option.some.inj he ▸ idle
  next => exact Option.some.inj he ▸ idle
  next => exact Option.some.inj he ▸ idle

theorem step (h : Inv s) {s' : Sys T} (st : Step s s') : Inv s' := by
  cases st with
  | create t idle => exact h.timerCreate t
  | delete t id idle => exact h.timerDelete t id
  | caller t s' he => exact h.execCaller he
  | timer c s' he => exact h.execTimer he

end Inv

theorem Reach.inv [DecidableEq T] {s : Sys T} (r : Reach s) : Inv s := by
  induction r with
  | start => exact Inv.start
  | step _ st ih => exact ih.step st

/-! ### The partition -/

/-- The creation `c` has a slot, which its thread has not freed. -/
def Sys.Holds (s : Sys T) (c : ℕ) (timer : Slot) : Prop := (s.timer c).slot = some timer

/-- Nobody has called `timer_delete` for the creation `c`. -/
def Sys.Live (s : Sys T) (c : ℕ) (timer : Slot) : Prop := s.Holds c timer ∧ s.deletes c = 0

section

variable [DecidableEq T] {s : Sys T}

/-- For every interleaving: the free list has each slot that no creation holds and no other, and each other slot is
held by one creation; the ids of live timers are different, and are what `timer_create` returns; a slot that is handed
out is held by no creation, deleted or not; and at most one call of `timer_delete` finds the timer of a creation. -/
theorem timer_table_partition (r : Reach s) :
    (∃ free, Seg s.table.next s.table.freeTimer free none ∧ free.Nodup ∧
      (∀ timer ∈ free, ∀ c, ¬ s.Holds c timer) ∧ ∀ timer, timer ∉ free → ∃! c, s.Holds c timer) ∧
    (∀ c timer, s.Holds c timer →
      s.table.id timer = if s.deletes c = 0 then TIMER_ID_WRAP timer else TIMER_ID_NONE) ∧
    (∀ c c' timer timer', s.Live c timer → s.Live c' timer' → c ≠ c' → s.table.id timer ≠ s.table.id timer') ∧
    (∀ t c id, s.caller t = .created c id → s.deletes c = 0 → ∃ timer, s.Live c timer ∧ s.table.id timer = id) ∧
    (∀ timer table, thrTimerTableAlloc s.table = some (timer, table) → ∀ c, ¬ s.Holds c timer) ∧
    ∀ c, s.deletes c ≤ 1 := by
  have inv := r.inv
  have ids : ∀ c timer, s.Holds c timer →
      s.table.id timer = if s.deletes c = 0 then TIMER_ID_WRAP timer else TIMER_ID_NONE := by
    intro c timer held
    rcases inv.ids c timer held with ⟨wrapped, zero⟩ | ⟨none, one⟩
    · rw [if_pos zero, wrapped]
    · rw [if_neg (by omega), none]
  have live : ∀ c timer, s.Live c timer → s.table.id timer = TIMER_ID_WRAP timer := by
    rintro c timer ⟨held, zero⟩
    rw [ids c timer held, if_pos zero]
  obtain ⟨free, seg, mem⟩ := inv.free
  have unheld : ∀ timer ∈ free, ∀ c, ¬ s.Holds c timer := fun timer hm c held =>
    (mem timer).1 hm (inv.inUse held)
  refine ⟨⟨free, seg, seg.nodup, unheld, fun timer hn => ?_⟩, ids, ?_, ?_, ?_, inv.deletes⟩
  · have used : s.InUse timer := by
      by_contra notUsed
      exact hn ((mem timer).2 notUsed)
    exact ⟨s.occupant timer, used, fun c held => (inv.occupant c timer held).symm⟩
  · intro c c' timer timer' hl hl' ne he
    rw [live c timer hl, live c' timer' hl'] at he
    obtain rfl := wrap_injective he
    exact ne ((inv.occupant c timer hl.1).symm.trans (inv.occupant c' timer hl'.1))
  · intro t c id created zero
    obtain ⟨timer, held, rfl⟩ := (inv.caller t).created c id created zero
    exact ⟨timer, ⟨held, zero⟩, live c timer ⟨held, zero⟩⟩
  · intro timer table ha
    have first := seg.eq_head?.symm.trans (alloc_cases ha).1
    exact unheld timer (List.mem_of_head? first)

theorem Reach.turn (r : Reach s) (t : T) : Reach ((execCaller s t).getD s) := by
  cases h : execCaller s t with
  | none => exact r
  | some s' => exact r.step (.caller t s' h)

end

/-- A timer has been created and deleted, and its thread has not seen it. -/
def deletedTimer : Sys Unit :=
  let turn := fun s : Sys Unit => (execCaller s ()).getD s
  turn (timerDelete (turn (turn (turn (turn (timerCreate (start Unit) ()))))) () 0x80000000)

theorem timer_table_partition_deleted :
    deletedTimer.Holds 0 0 ∧ deletedTimer.deletes 0 = 1 ∧
      (thrTimerTableAlloc deletedTimer.table).map Prod.fst = some 1 ∧ ∀ c, ¬ deletedTimer.Holds c 1 := by
  have made : Reach (timerCreate (start Unit) ()) := Reach.start.step (.create () rfl)
  have returned := (((made.turn ()).turn ()).turn ()).turn ()
  have reach : Reach deletedTimer := (returned.step (.delete () 0x80000000 (by decide))).turn ()
  have alloc : (thrTimerTableAlloc deletedTimer.table).map Prod.fst = some 1 := by decide
  obtain ⟨⟨timer, table⟩, ha, hf⟩ := Option.map_eq_some_iff.1 alloc
  obtain rfl : timer = 1 := hf
  exact ⟨by unfold Sys.Holds; decide, by decide, alloc, (timer_table_partition reach).2.2.2.2.1 1 table ha⟩

end Bionic.Timers
