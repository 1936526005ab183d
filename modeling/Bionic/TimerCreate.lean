import Bionic.Timers
import Bionic.Timespec

/-! # `timer_create` when `pthread_create` fails (`libc/bionic/pthread-timers.c`, `pthread.c`)

`Timers` follows the slots of the table while all calls of `pthread_create` succeed.  Here one call of `timer_create`
runs by itself, on any table, with `pthread_create` and what it depends on.

`pthread_create` returns an error number, which is `ENOMEM`, or the `errno` that `__pthread_clone` has left; each
machine has its own `__pthread_clone`. -/

namespace Bionic.TimerCreate

open LinkedList (Seg)
open PthreadInternal (Timespec)
open Timers (Word Slot Table TIMER_ID_NONE TIMER_ID_WRAP)

/-! ### The helper thread -/

def ENOMEM : ℤ := 12
def EINVAL : ℤ := 22

/-- The machines that have a `__pthread_clone`. -/
inductive Arch
  | arm
  | mips
  | ppc
  | x86
deriving DecidableEq, Repr

/-- What the kernel answers to `clone`: the new thread, or an error number. -/
inductive Clone
  | started (tid : ℕ)
  | error (number : ℕ)
deriving DecidableEq, Repr

/-- `pthread_attr_t` -/
structure Attr where
  flags : Word
  stackBase : Word
  stackSize : Word
  guardSize : Word
  schedPolicy : ℤ
  schedPriority : ℤ
deriving DecidableEq, Repr

def PTHREAD_ATTR_FLAG_DETACHED : Word := 0x00000001

def PAGE_SIZE : Word := 4096

/-- `gDefaultPthreadAttr`, which `pthread_attr_init` copies. -/
def pthreadAttrInit : Attr := ⟨0, 0, 1048576, PAGE_SIZE, 0, 0⟩

/-- What a call finds outside the table. -/
structure Env where
  arch : Arch
  /-- `errno` at the start. -/
  errno : ℤ
  /-- The `errno` of `clock_gettime`, if it fails. -/
  clockGettime : Option ℤ
  /-- What `_pthread_internal_alloc` returns. -/
  internalAlloc : Option Word
  /-- What `mkstack` returns for a size and a size of the guard. -/
  mkstack : Word → Word → Option Word
  clone : Clone
  /-- The register `ecx` at the call of `__pthread_clone` on x86. -/
  ecx : ℤ
  /-- What `__timer_create` returns. -/
  kernelCreate : ℤ

/-- `CLONE_FILES | CLONE_FS | CLONE_VM | CLONE_SIGHAND | CLONE_THREAD | CLONE_SYSVSEM | CLONE_DETACHED` -/
def cloneFlags : ℤ := 0x450f00

/-- `__set_syscall_errno(n)`, with `__powerpc__` or without it: what it returns, and `errno`. -/
def setSyscallErrno (powerpc : Bool) (n errno : ℤ) : ℤ × ℤ :=
  let n := if powerpc then -n else n
  if n > -256 then (-1, -n) else (n, errno)

/-- `__pthread_clone`: what it returns to its caller, and `errno`. -/
def pthreadClone (env : Env) (errno : ℤ) : ℤ × ℤ :=
  match env.clone with
  | .started tid => (tid, errno)
  | .error number =>
      match env.arch with
      -- `__error` leaves `errno` as it is.
      | .arm => (-1, errno)
      -- The first argument register still holds the flags.
      | .mips => setSyscallErrno false cloneFlags errno
      | .ppc => setSyscallErrno true number errno
      -- `__set_errno` finds on the stack what has been pushed last.
      | .x86 => (-1, env.ecx)

/-- What `pthread_create` returns, and `*thread_out` where it writes it. -/
structure Create where
  ret : ℤ
  thread : Option Word
  /-- There is a new thread, and it has been let go. -/
  started : Bool
deriving DecidableEq, Repr

/-- The size of the stack, rounded up to pages. -/
def Attr.stackBytes (attr : Attr) : Word := (attr.stackSize + (PAGE_SIZE - 1)) &&& ~~~(PAGE_SIZE - 1)

/-- The stack of the new thread. -/
def Env.stack (env : Env) (attr : Attr) : Option Word :=
  if attr.stackBase = 0 then env.mkstack attr.stackBytes attr.guardSize else some attr.stackBase

/-- `pthread_create(thread_out, attr, …)`, where `errno` is the one on entry. -/
def pthreadCreate (env : Env) (attr : Attr) (errno : ℤ) : Create :=
  match env.internalAlloc with
  | none => ⟨ENOMEM, none, false⟩
  | some thread =>
      match env.stack attr with
      | none => ⟨ENOMEM, none, false⟩
      | some _ =>
          let (tid, errno) := pthreadClone env errno
          if tid < 0 then ⟨errno, none, false⟩
          else ⟨0, some thread, true⟩

/-! ### `timer_create` -/

def SIGEV_THREAD : ℤ := 2

/-- `struct sigevent` -/
structure Sigevent where
  notify : ℤ
  notifyFunction : Word
  notifyAttributes : Option Attr
  value : Word

/-- The fields of a timer that the functions on the table do not follow. -/
structure Data where
  clock : ℤ
  thread : Word
  attributes : Attr
  callback : Word
  value : Word
  stopped : Bool
  expires : Timespec
  period : Timespec
  overruns : ℤ

/-- `thr_timer_table_t` -/
structure TimerTable extends Table where
  data : Slot → Data

def thrTimerTableAlloc (t : TimerTable) : Option (Slot × TimerTable) :=
  (Timers.thrTimerTableAlloc t.toTable).map fun (timer, table) => (timer, { t with toTable := table })

def thrTimerTableFree (t : TimerTable) (timer : Slot) : TimerTable where
  toTable := Timers.thrTimerTableFree t.toTable timer
  data := Function.update t.data timer { t.data timer with thread := 0 }

/-- The attributes of the helper thread. -/
def Sigevent.attributes (evp : Sigevent) : Attr :=
  let attributes :=
    match evp.notifyAttributes with
    | none => pthreadAttrInit
    | some attributes => attributes
  -- `pthread_attr_setdetachstate(&timer->attributes, PTHREAD_CREATE_DETACHED)`
  { attributes with flags := attributes.flags ||| PTHREAD_ATTR_FLAG_DETACHED }

/-- The timer that has been taken, before `pthread_create`. -/
def fill (t : TimerTable) (timer : Slot) (clockid : ℤ) (evp : Sigevent) : TimerTable where
  toTable := t.toTable.setDone timer false
  data := Function.update t.data timer { t.data timer with
    attributes := evp.attributes
    callback := evp.notifyFunction
    value := evp.value
    clock := clockid
    stopped := false
    expires := Timespec.timespecZero
    period := Timespec.timespecZero
    overruns := 0 }

/-- What a call of `timer_create` does. -/
structure Outcome where
  ret : ℤ
  /-- The `errno` that the function sets itself. -/
  errno : Option ℤ
  /-- `*ptimerid` -/
  id : Option Word
  table : Option TimerTable
  /-- What `pthread_create` has returned, if it has been called. -/
  create : Option Create

/-- `timer_create`; `table` is what `__timer_table_get` returns. -/
def timerCreate (env : Env) (table : Option TimerTable) (clockid : ℤ) (evp : Option Sigevent) : Outcome :=
  match evp with
  | none => ⟨env.kernelCreate, none, none, table, none⟩
  | some evp =>
      if evp.notify ≠ SIGEV_THREAD then ⟨env.kernelCreate, none, none, table, none⟩
      else if evp.notifyFunction = 0 then ⟨-1, some EINVAL, none, table, none⟩
      else if env.clockGettime = some EINVAL then ⟨-1, some EINVAL, none, table, none⟩
      else
        match table.bind thrTimerTableAlloc with
        | none => ⟨-1, some ENOMEM, none, table, none⟩
        | some (timer, t) =>
            let t := fill t timer clockid evp
            -- A clock that fails with another error leaves its `errno`.
            let create := pthreadCreate env evp.attributes (env.clockGettime.getD env.errno)
            let t := match create.thread with
              | none => t
              | some thread => { t with data := Function.update t.data timer { t.data timer with thread := thread } }
            if create.ret < 0 then ⟨-1, some ENOMEM, none, some (thrTimerTableFree t timer), some create⟩
            else ⟨0, none, some (t.id timer), some t, some create⟩

/-! ### `pthread_create` -/

variable {env : Env} {attr : Attr} {errno : ℤ} {t t' : TimerTable} {timer : Slot}

/-- There is a new thread. -/
def Starts (env : Env) (attr : Attr) : Prop :=
  env.internalAlloc ≠ none ∧ env.stack attr ≠ none ∧ ∃ tid, env.clone = .started tid

/-- There is memory for the thread, but the kernel makes none and answers `number`; and what then stands in `errno` is
negative. -/
def NegativeErrno (env : Env) (attr : Attr) (errno : ℤ) : Prop :=
  env.internalAlloc ≠ none ∧ env.stack attr ≠ none ∧ ∃ number, env.clone = .error number ∧
    (env.arch = .arm ∧ errno < 0 ∨ env.arch = .mips ∨ env.arch = .ppc ∧ 256 ≤ number ∧ errno < 0 ∨
      env.arch = .x86 ∧ env.ecx < 0)

theorem setSyscallErrno_neg {powerpc : Bool} {n errno : ℤ} : (setSyscallErrno powerpc n errno).1 < 0 := by
  unfold setSyscallErrno
  dsimp only
  generalize (if powerpc = true then -n else n) = m
  split
  next => exact Int.negSucc_lt_zero 0
  next large =>
    dsimp only
    omega

/-- Every `__pthread_clone` returns a negative number if the kernel makes no thread. -/
theorem pthreadClone_neg {number : ℕ} (h : env.clone = .error number) : (pthreadClone env errno).1 < 0 := by
  unfold pthreadClone
  rw [h]
  dsimp only
  cases env.arch with
  | arm => exact Int.negSucc_lt_zero 0
  | mips => exact setSyscallErrno_neg
  | ppc => exact setSyscallErrno_neg
  | x86 => exact Int.negSucc_lt_zero 0

/-- The `errno` of each `__pthread_clone`; on PowerPC it is the number of the kernel, if that is small. -/
theorem pthreadClone_errno_neg {number : ℕ} (h : env.clone = .error number) :
    (pthreadClone env errno).2 < 0 ↔
      env.arch = .arm ∧ errno < 0 ∨ env.arch = .mips ∨ env.arch = .ppc ∧ 256 ≤ number ∧ errno < 0 ∨
        env.arch = .x86 ∧ env.ecx < 0 := by
  unfold pthreadClone
  rw [h]
  dsimp only
  cases env.arch with
  | arm => simp
  | mips => simp [setSyscallErrno, cloneFlags]
  | ppc =>
      unfold setSyscallErrno
      dsimp only
      rw [if_pos rfl]
      split
      next small =>
        have large : ¬ 256 ≤ number := by omega
        simp [large]
      next large =>
        have large : 256 ≤ number := by omega
        simp [large]
  | x86 => simp

/-- `pthread_create` starts a thread and returns 0, or starts none and returns a negative number in one case only. -/
theorem pthreadCreate_cases (env : Env) (attr : Attr) (errno : ℤ) :
    (Starts env attr ∧ ∃ thread, pthreadCreate env attr errno = ⟨0, some thread, true⟩) ∨
      ¬ Starts env attr ∧ ∃ ret, pthreadCreate env attr errno = ⟨ret, none, false⟩ ∧
        (ret < 0 ↔ NegativeErrno env attr errno) := by
  unfold pthreadCreate
  cases alloc : env.internalAlloc with
  | none => exact .inr ⟨fun h => h.1 alloc, ENOMEM, rfl, iff_of_false (by decide) fun h => h.1 alloc⟩
  | some thread =>
      dsimp only
      cases stack : env.stack attr with
      | none => exact .inr ⟨fun h => h.2.1 stack, ENOMEM, rfl, iff_of_false (by decide) fun h => h.2.1 stack⟩
      | some base =>
          dsimp only
          have alloc' : env.internalAlloc ≠ none := by simp [alloc]
          have stack' : env.stack attr ≠ none := by simp [stack]
          cases clone : env.clone with
          | started tid =>
              refine .inl ⟨⟨alloc', stack', tid, clone⟩, thread, ?_⟩
              have pos : ¬ (pthreadClone env errno).1 < 0 := by
                unfold pthreadClone
                rw [clone]
                exact Int.not_lt.2 (Int.natCast_nonneg tid)
              rw [if_neg pos]
          | error number =>
              refine .inr ⟨?_, (pthreadClone env errno).2, by rw [if_pos (pthreadClone_neg clone)], ?_⟩
              · rintro ⟨-, -, tid, started⟩
                rw [clone] at started
                cases started
              · rw [pthreadClone_errno_neg clone]
                refine ⟨fun neg => ⟨alloc', stack', number, clone, neg⟩, fun h => ?_⟩
                obtain ⟨-, -, number', clone', neg⟩ := h
                obtain rfl := Clone.error.inj (clone.symm.trans clone')
                exact neg

/-! ### The table -/

/-- The free list ends, and its timers have no id and no thread. -/
def WellFormed (t : TimerTable) : Prop :=
  ∃ free, Seg t.next t.freeTimer free none ∧ ∀ timer ∈ free, t.id timer = TIMER_ID_NONE ∧ (t.data timer).thread = 0

theorem thrTimerTableAlloc_cases (h : thrTimerTableAlloc t = some (timer, t')) :
    t.freeTimer = some timer ∧
      t' = { t with
        freeTimer := t.next timer
        next := Function.update t.next timer none
        id := Function.update t.id timer (TIMER_ID_WRAP timer) } := by
  obtain ⟨⟨slot, table⟩, alloc, e⟩ := Option.map_eq_some_iff.1 h
  obtain ⟨first, rfl⟩ := Timers.alloc_cases alloc
  cases e
  exact ⟨first, rfl⟩

theorem thrTimerTableAlloc_eq_none : thrTimerTableAlloc t = none ↔ t.freeTimer = none := by
  unfold thrTimerTableAlloc Timers.thrTimerTableAlloc
  cases t.freeTimer <;> simp

theorem WellFormed.alloc (wf : WellFormed t) (h : thrTimerTableAlloc t = some (timer, t')) : WellFormed t' := by
  obtain ⟨first, rfl⟩ := thrTimerTableAlloc_cases h
  obtain ⟨free, seg, none⟩ := wf
  cases free with
  | nil => cases first.symm.trans seg
  | cons a free =>
      obtain rfl : timer = a := Option.some.inj (first.symm.trans seg.1)
      have out : timer ∉ free := (List.nodup_cons.1 seg.nodup).1
      refine ⟨free, seg.2.update out .none, fun other hother => ?_⟩
      have ne : other ≠ timer := fun e => out (e ▸ hother)
      have old := none other (List.mem_cons_of_mem _ hother)
      exact ⟨(Function.update_of_ne ne _ _).trans old.1, old.2⟩

/-- A timer that is not free becomes the first of the free list. -/
theorem WellFormed.free (wf : WellFormed t)
    (used : ∀ free, Seg t.next t.freeTimer free none → timer ∉ free) : WellFormed (thrTimerTableFree t timer) := by
  obtain ⟨free, seg, none⟩ := wf
  have out := used free seg
  refine ⟨timer :: free, ⟨rfl, ?_⟩, fun other hother => ?_⟩
  · show Seg (Function.update t.next timer t.freeTimer) (Function.update t.next timer t.freeTimer timer) free .none
    rw [Function.update_self]
    exact seg.update out _
  · show Function.update t.id timer TIMER_ID_NONE other = TIMER_ID_NONE ∧
      (Function.update t.data timer { t.data timer with thread := 0 } other).thread = 0
    by_cases e : other = timer
    · subst e
      rw [Function.update_self, Function.update_self]
      exact ⟨rfl, rfl⟩
    · rw [Function.update_of_ne e, Function.update_of_ne e]
      exact none other (List.mem_of_ne_of_mem e hother)

/-- `timer_delete` takes the id of a timer away. -/
theorem WellFormed.remove (wf : WellFormed t) (timer : Slot) :
    WellFormed { t with id := Function.update t.id timer TIMER_ID_NONE } := by
  obtain ⟨free, seg, none⟩ := wf
  refine ⟨free, seg, fun other hother => ⟨?_, (none other hother).2⟩⟩
  show Function.update t.id timer TIMER_ID_NONE other = TIMER_ID_NONE
  by_cases e : other = timer
  · rw [e, Function.update_self]
  · rw [Function.update_of_ne e]
    exact (none other hother).1

/-- The other fields of a timer that is not free do not matter. -/
theorem WellFormed.setData (wf : WellFormed t) {done : Slot → Bool} (data : Data)
    (used : ∀ free, Seg t.next t.freeTimer free none → timer ∉ free) :
    WellFormed { t with done := done, data := Function.update t.data timer data } := by
  obtain ⟨free, seg, none⟩ := wf
  refine ⟨free, seg, fun other hother => ⟨(none other hother).1, ?_⟩⟩
  have ne : other ≠ timer := fun e => used free seg (e ▸ hother)
  show (Function.update t.data timer data other).thread = 0
  rw [Function.update_of_ne ne]
  exact (none other hother).2

theorem thrTimerTableAlloc_used (wf : WellFormed t) (h : thrTimerTableAlloc t = some (timer, t')) {rest : List Slot}
    (seg : Seg t'.next t'.freeTimer rest none) : timer ∉ rest := by
  obtain ⟨first, rfl⟩ := thrTimerTableAlloc_cases h
  obtain ⟨free, old, -⟩ := wf
  cases free with
  | nil => cases first.symm.trans old
  | cons a free =>
      obtain rfl : timer = a := Option.some.inj (first.symm.trans old.1)
      have out : timer ∉ free := (List.nodup_cons.1 old.nodup).1
      rw [seg.unique (old.2.update out none)]
      exact out

/-- The table is as before, except for the fields of the first free timer that the next `timer_create` overwrites. -/
structure SameTable (t t' : TimerTable) : Prop where
  freeTimer : t'.freeTimer = t.freeTimer
  next : t'.next = t.next
  id : t'.id = t.id
  done : ∀ timer, t.freeTimer ≠ some timer → t'.done timer = t.done timer
  data : ∀ timer, t.freeTimer ≠ some timer → t'.data timer = t.data timer
  thread : ∀ timer, (t'.data timer).thread = (t.data timer).thread

/-- A timer that is taken, filled in and freed. -/
theorem sameTable_free {clockid : ℤ} {evp : Sigevent} (wf : WellFormed t)
    (h : thrTimerTableAlloc t = some (timer, t')) :
    SameTable t (thrTimerTableFree (fill t' timer clockid evp) timer) := by
  obtain ⟨first, rfl⟩ := thrTimerTableAlloc_cases h
  obtain ⟨free, seg, none⟩ := wf
  have noId : t.id timer = TIMER_ID_NONE ∧ (t.data timer).thread = 0 := by
    cases free with
    | nil => cases first.symm.trans seg
    | cons a free =>
        obtain rfl : timer = a := Option.some.inj (first.symm.trans seg.1)
        exact none timer List.mem_cons_self
  constructor
  · exact first.symm
  · show Function.update (Function.update t.next timer .none) timer (t.next timer) = t.next
    rw [Function.update_idem, Function.update_eq_self]
  · show Function.update (Function.update t.id timer (TIMER_ID_WRAP timer)) timer TIMER_ID_NONE = t.id
    rw [Function.update_idem, ← noId.1, Function.update_eq_self]
  · intro other hother
    have ne : other ≠ timer := fun e => hother (e ▸ first)
    exact Function.update_of_ne ne _ _
  · intro other hother
    have ne : other ≠ timer := fun e => hother (e ▸ first)
    exact (Function.update_of_ne ne _ _).trans (Function.update_of_ne ne _ _)
  · intro other
    unfold thrTimerTableFree fill
    dsimp only
    by_cases e : other = timer
    · subst e
      rw [Function.update_self, noId.2]
    · rw [Function.update_of_ne e, Function.update_of_ne e]

/-! ### The outcome -/

/-- The call gets as far as `pthread_create`. -/
def Reaches (env : Env) (table : Option TimerTable) (evp : Sigevent) : Prop :=
  evp.notifyFunction ≠ 0 ∧ env.clockGettime ≠ some EINVAL ∧ ∃ t timer, table = some t ∧ t.freeTimer = some timer

/-- The call returns 0 only if there is a helper thread; and if `pthread_create` fails, it returns -1, and the slot is
back on the free list in a table that is as before. -/
def Atomic (table : Option TimerTable) (o : Outcome) : Prop :=
  (o.ret = 0 → ∃ create, o.create = some create ∧ create.started = true) ∧
    ∀ create, o.create = some create → create.started = false →
      o.ret = -1 ∧ ∃ t t' timer, table = some t ∧ o.table = some t' ∧ t.freeTimer = some timer ∧
        t'.freeTimer = some timer ∧ SameTable t t'

/-- A call that stops before `pthread_create`. -/
theorem timerCreate_of_not_reaches {table : Option TimerTable} (clockid : ℤ) {evp : Sigevent}
    (thread : evp.notify = SIGEV_THREAD) (h : ¬ Reaches env table evp) :
    ∃ errno, timerCreate env table clockid (some evp) = ⟨-1, some errno, none, table, none⟩ := by
  unfold timerCreate
  dsimp only
  rw [if_neg (not_not.2 thread)]
  split
  next => exact ⟨_, rfl⟩
  next function =>
    split
    next => exact ⟨_, rfl⟩
    next clock =>
      have none : table.bind thrTimerTableAlloc = none := by
        cases table with
        | none => rfl
        | some t =>
            apply thrTimerTableAlloc_eq_none.2
            cases first : t.freeTimer with
            | none => rfl
            | some timer => exact absurd ⟨function, clock, t, timer, rfl, first⟩ h
      rw [none]
      exact ⟨_, rfl⟩

/-- A call that gets to `pthread_create`. -/
theorem timerCreate_of_reaches {table : Option TimerTable} (clockid : ℤ) {evp : Sigevent}
    (thread : evp.notify = SIGEV_THREAD) (h : Reaches env table evp) :
    ∃ t timer t₁, table = some t ∧ t.freeTimer = some timer ∧ thrTimerTableAlloc t = some (timer, t₁) ∧
      ∀ create, pthreadCreate env evp.attributes (env.clockGettime.getD env.errno) = create →
        (timerCreate env table clockid (some evp)).create = some create ∧
        (create.ret < 0 → create.thread = none →
          timerCreate env table clockid (some evp) =
            ⟨-1, some ENOMEM, none, some (thrTimerTableFree (fill t₁ timer clockid evp) timer), some create⟩) ∧
        (¬ create.ret < 0 → (timerCreate env table clockid (some evp)).ret = 0) := by
  obtain ⟨function, clock, t, timer, rfl, first⟩ := h
  cases alloc : thrTimerTableAlloc t with
  | none =>
      rw [thrTimerTableAlloc_eq_none.1 alloc] at first
      cases first
  | some taken =>
      obtain ⟨slot, t₁⟩ := taken
      obtain ⟨first', -⟩ := thrTimerTableAlloc_cases alloc
      obtain rfl : timer = slot := Option.some.inj (first.symm.trans first')
      refine ⟨t, timer, t₁, rfl, first, alloc, fun create hc => ?_⟩
      unfold timerCreate
      dsimp only
      rw [if_neg (not_not.2 thread), if_neg function, if_neg clock, Option.bind_some, alloc]
      dsimp only
      rw [hc]
      refine ⟨?_, fun neg none => ?_, fun nonneg => ?_⟩
      · split <;> rfl
      · rw [if_pos neg, none]
      · rw [if_neg nonneg]

/-- The table that a call leaves is well-formed, whatever `pthread_create` does. -/
theorem WellFormed.timerCreate (wf : WellFormed t) (env : Env) (clockid : ℤ) (evp : Option Sigevent)
    (h : (timerCreate env (some t) clockid evp).table = some t') : WellFormed t' := by
  unfold TimerCreate.timerCreate at h
  split at h
  next => cases h; exact wf
  next evp =>
    split at h
    next => cases h; exact wf
    split at h
    next => cases h; exact wf
    split at h
    next => cases h; exact wf
    dsimp only [Option.bind_some] at h
    split at h
    next => cases h; exact wf
    next timer t₁ alloc =>
      have used : ∀ rest, Seg t₁.next t₁.freeTimer rest none → timer ∉ rest :=
        fun rest seg => thrTimerTableAlloc_used wf alloc seg
      have filled : WellFormed (fill t₁ timer clockid evp) := (wf.alloc alloc).setData _ used
      generalize pthreadCreate env evp.attributes (env.clockGettime.getD env.errno) = create at h
      cases create with
      | mk ret thread started =>
          cases thread with
          | none =>
              dsimp only at h
              split at h
              · cases h
                exact filled.free used
              · cases h
                exact filled
          | some thread =>
              dsimp only at h
              split at h
              · cases h
                exact (filled.setData _ used).free used
              · cases h
                exact filled.setData _ used

/-- A call is atomic if and only if it does not get as far as `pthread_create`, or there is a new thread, or
`__pthread_clone` leaves a negative `errno`. -/
theorem atomic_iff (env : Env) (table : Option TimerTable) (wf : ∀ t, table = some t → WellFormed t) (clockid : ℤ)
    (evp : Sigevent) (thread : evp.notify = SIGEV_THREAD) :
    Atomic table (timerCreate env table clockid (some evp)) ↔
      ¬ Reaches env table evp ∨ Starts env evp.attributes ∨
        NegativeErrno env evp.attributes (env.clockGettime.getD env.errno) := by
  by_cases reaches : Reaches env table evp
  · obtain ⟨t, timer, t₁, rfl, first, alloc, outcome⟩ := timerCreate_of_reaches clockid thread reaches
    rcases pthreadCreate_cases env evp.attributes (env.clockGettime.getD env.errno) with
      ⟨starts, thread, hc⟩ | ⟨fails, ret, hc, neg⟩
    · refine iff_of_true ?_ (.inr (.inl starts))
      obtain ⟨create, -, ok⟩ := outcome _ hc
      refine ⟨fun _ => ⟨_, create, rfl⟩, fun create' hc' failed => ?_⟩
      rw [create] at hc'
      cases hc'
      cases failed
    · obtain ⟨create, undone, ok⟩ := outcome _ hc
      constructor
      · intro atomic
        refine .inr (.inr (neg.1 ?_))
        by_contra nonneg
        have minus := (atomic.2 _ create rfl).1
        rw [ok nonneg] at minus
        cases minus
      · rintro (unreached | starts | negative)
        · exact absurd reaches unreached
        · exact absurd starts fails
        · rw [undone (neg.2 negative) rfl]
          refine ⟨(fun zero => by cases zero), fun _ _ _ => ⟨rfl, t, _, timer, rfl, rfl, first, ?_, ?_⟩⟩
          · rfl
          · exact sameTable_free (wf t rfl) alloc
  · refine iff_of_true ?_ (.inl reaches)
    obtain ⟨errno, e⟩ := timerCreate_of_not_reaches clockid thread reaches
    rw [e]
    exact ⟨(fun zero => by cases zero), fun create none => by cases none⟩

/-- The table after `__timer_table_init`. -/
def newTable : TimerTable :=
  ⟨Timers.thrTimerTableInit, fun _ => ⟨0, 0, ⟨0, 0, 0, 0, 0, 0⟩, 0, 0, false, ⟨0, 0⟩, ⟨0, 0⟩, 0⟩⟩

theorem wellFormed_newTable : WellFormed newTable :=
  ⟨_, Timers.seg_following Timers.MAX_THREAD_TIMERS 0 rfl, fun _ _ => ⟨rfl, rfl⟩⟩

/-- A callback at `0x8000`. -/
def callback : Sigevent := ⟨SIGEV_THREAD, 0x8000, none, 0⟩

/-- A PowerPC where the kernel answers `clone` to `clone`. -/
def ppcEnv (clone : Clone) : Env := ⟨.ppc, 0, none, some 0x9000, fun _ _ => some 0x10000000, clone, 0, 0⟩

theorem atomic_started : Atomic (some newTable) (timerCreate (ppcEnv (.started 7)) (some newTable) 0 (some callback)) :=
  (atomic_iff _ _ (fun _ h => Option.some.inj h ▸ wellFormed_newTable) 0 callback rfl).2
    (.inr (.inl ⟨by decide, by decide, 7, rfl⟩))

/-- The kernel answers `EAGAIN`, and the call returns 0; the slot 0 is not free any more. -/
theorem not_atomic_again :
    (timerCreate (ppcEnv (.error 11)) (some newTable) 0 (some callback)).ret = 0 ∧
    (timerCreate (ppcEnv (.error 11)) (some newTable) 0 (some callback)).create = some ⟨11, none, false⟩ ∧
    (timerCreate (ppcEnv (.error 11)) (some newTable) 0 (some callback)).table.map (fun t => t.freeTimer) =
      some (some 1) ∧
    ¬ Atomic (some newTable) (timerCreate (ppcEnv (.error 11)) (some newTable) 0 (some callback)) := by
  have ret : (timerCreate (ppcEnv (.error 11)) (some newTable) 0 (some callback)).ret = 0 := by decide
  have create : (timerCreate (ppcEnv (.error 11)) (some newTable) 0 (some callback)).create =
      some ⟨11, none, false⟩ := by decide
  refine ⟨ret, create, by decide, fun atomic => ?_⟩
  obtain ⟨c, hc, started⟩ := atomic.1 ret
  rw [create] at hc
  cases hc
  cases started

end Bionic.TimerCreate
