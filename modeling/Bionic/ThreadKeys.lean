import Bionic.ThreadJoin

/-! # The writes of `pthread_key_delete`

`pthread_key_delete` holds `gThreadListLock` while it walks through the list and writes into the TLS area of each
thread that is no zombie.  `Walking` says what such a walk knows of the threads ahead; with `Life.Inv` it follows that
a write goes to an unmapped stack only if the thread has exited and is still listed for joiners that are not back yet
(`key_writes_mapped`). -/

namespace Bionic.Threads

variable {T : Type}

/-! ### Who holds the lock -/

/-- What a thread that holds `gThreadListLock` from one step to the next is doing. -/
inductive Role (T : Type)
  | free
  | exit
  | walk (rest : List T)
  | write (thr : T) (rest : List T)

def Pc.role : Pc T → Role T
  | .keyWalk rest => .walk rest
  | .keyWrite thr rest => .write thr rest
  | .exitBroadcast => .exit
  | .exitWake => .exit
  | .exitUnlock => .exit
  | _ => .free

structure Walking (s : Sys T) : Prop where
  lock : ∀ t, (s.pc t).role ≠ .free → s.lock = some t
  walk : ∀ t rest, (s.pc t).role = .walk rest → ∀ u ∈ rest, u ∈ s.list
  write : ∀ t u rest, (s.pc t).role = .write u rest →
    u ∈ s.list ∧ 0 ≤ (s.desc u).joinCount ∧ ∀ v ∈ rest, v ∈ s.list

/-- The step of a thread inside a walk, or out of it. -/
inductive Role.Next (s : Sys T) : Role T → Role T → Prop
  | same {r} : Next s r r
  | free {r} : Next s r .free
  | skip {u rest} : Next s (.walk (u :: rest)) (.walk rest)
  | write {u rest} (count : 0 ≤ (s.desc u).joinCount) : Next s (.walk (u :: rest)) (.write u rest)
  | written {u rest} : Next s (.write u rest) (.walk rest)

/-- What a step of the thread `t` does to the lock and to what it protects. -/
inductive RoleStep (s : Sys T) (t : T) (s' : Sys T) : Prop
  /-- The lock is free; it may be taken for a walk. -/
  | unlocked (free : s.lock = none) (others : ∀ u, u ≠ t → (s'.pc u).role = (s.pc u).role)
      (lock : (s'.pc t).role ≠ .free → s'.lock = some t)
      (walk : ∀ rest, (s'.pc t).role = .walk rest → rest = s'.list)
      (write : ∀ u rest, (s'.pc t).role ≠ .write u rest)
  /-- Nothing that the lock protects is touched; the thread that holds the lock may give it back. -/
  | locked (list : s'.list = s.list) (count : ∀ u, (s'.desc u).joinCount = (s.desc u).joinCount)
      (others : ∀ u, u ≠ t → (s'.pc u).role = (s.pc u).role)
      (next : Role.Next s (s.pc t).role (s'.pc t).role)
      (lock : s'.lock = s.lock ∨ (s.pc t).role ≠ .free ∧ (s'.pc t).role = .free)

variable [DecidableEq T] {s s' : Sys T} {t : T}

omit [DecidableEq T] in
theorem Role.Next.of_free {r r' : Role T} (h : Next s r r') (free : r = .free) : r' = .free := by
  cases h with
  | same => exact free
  | free => rfl
  | _ => cases free

omit [DecidableEq T] in
theorem Walking.next_walk (hi : Walking s) {rest : List T} (next : Role.Next s (s.pc t).role (.walk rest)) :
    ∀ u ∈ rest, u ∈ s.list := by
  generalize hr : (s.pc t).role = r at next
  cases next with
  | same => exact hi.walk t rest hr
  | skip => exact fun u hu => hi.walk t _ hr u (List.mem_cons_of_mem _ hu)
  | written => exact (hi.write t _ rest hr).2.2

omit [DecidableEq T] in
theorem Walking.next_write (hi : Walking s) {u : T} {rest : List T}
    (next : Role.Next s (s.pc t).role (.write u rest)) :
    u ∈ s.list ∧ 0 ≤ (s.desc u).joinCount ∧ ∀ v ∈ rest, v ∈ s.list := by
  generalize hr : (s.pc t).role = r at next
  cases next with
  | same => exact hi.write t u rest hr
  | write count =>
      exact ⟨hi.walk t _ hr u List.mem_cons_self, count,
        fun v hv => hi.walk t _ hr v (List.mem_cons_of_mem _ hv)⟩

omit [DecidableEq T] in
theorem Walking.step (hi : Walking s) (h : RoleStep s t s') : Walking s' := by
  cases h with
  | unlocked free others lock walk write =>
      have idle : ∀ u, u ≠ t → (s'.pc u).role = .free := by
        intro u hu
        rw [others u hu]
        by_contra held
        rw [hi.lock u held] at free
        cases free
      refine ⟨fun u hu => ?_, fun u rest hu => ?_, fun u v rest hu => ?_⟩
      · by_cases hut : u = t
        · subst hut
          exact lock hu
        · exact absurd (idle u hut) hu
      · by_cases hut : u = t
        · subst hut
          rw [walk rest hu]
          exact fun _ => id
        · rw [idle u hut] at hu
          cases hu
      · by_cases hut : u = t
        · subst hut
          exact absurd hu (write v rest)
        · rw [idle u hut] at hu
          cases hu
  | locked list count others next lock =>
      refine ⟨fun u hu => ?_, fun u rest hu => ?_, fun u v rest hu => ?_⟩
      · by_cases hut : u = t
        · subst hut
          have held : (s.pc u).role ≠ .free := fun free => hu (next.of_free free)
          rw [lock.resolve_right fun h => hu h.2]
          exact hi.lock u held
        · rw [others u hut] at hu
          cases lock with
          | inl same => rw [same]; exact hi.lock u hu
          | inr own =>
              have e := (hi.lock u hu).symm.trans (hi.lock t own.1)
              exact absurd (Option.some.inj e) hut
      · rw [list]
        by_cases hut : u = t
        · subst hut
          rw [hu] at next
          exact hi.next_walk next
        · rw [others u hut] at hu
          exact hi.walk u rest hu
      · rw [list, count]
        by_cases hut : u = t
        · subst hut
          rw [hu] at next
          exact hi.next_write next
        · rw [others u hut] at hu
          exact hi.write u v rest hu

/-! ### Each step -/

theorem goto_role {s : Sys T} {pc : Pc T} {u : T} (hu : u ≠ t) : ((s.goto t pc).pc u).role = (s.pc u).role := by
  rw [goto_pc_of_ne s hu]

/-- The thread moves; the lock and what it protects stay as they are. -/
theorem roleStep_goto {s₁ : Sys T} {pc : Pc T} (pcs : s₁.pc = s.pc) (list : s₁.list = s.list)
    (lock : s₁.lock = s.lock) (count : ∀ u, (s₁.desc u).joinCount = (s.desc u).joinCount)
    (next : Role.Next s (s.pc t).role pc.role) : RoleStep s t (s₁.goto t pc) := by
  refine .locked list count (fun u hu => ?_) ?_ (.inl lock)
  · rw [goto_role hu, pcs]
  · rw [goto_pc_self]
    exact next

/-- The thread has the lock for this step only. -/
theorem roleStep_unlocked {s₁ : Sys T} {pc : Pc T} (free : s.lock = none) (pcs : s₁.pc = s.pc)
    (role : pc.role = .free) : RoleStep s t (s₁.goto t pc) := by
  refine .unlocked free (fun u hu => ?_) ?_ ?_ ?_
  · rw [goto_role hu, pcs]
  · rw [goto_pc_self, role]
    exact fun h => absurd rfl h
  · rw [goto_pc_self, role]
    nofun
  · rw [goto_pc_self, role]
    nofun

/-- The removal faults. -/
theorem roleStep_crash {u : T} (free : s.lock = none) (role : (s.pc t).role = .free) : RoleStep s t (s.crash u) := by
  refine .unlocked free (fun _ _ => rfl) ?_ ?_ ?_
  · exact fun h => absurd role h
  · intro rest h
    rw [show (s.pc t).role = .walk rest from h] at role
    cases role
  · intro v rest h
    rw [show (s.pc t).role = .write v rest from h] at role
    cases role

theorem joinCount_setDesc {u : T} {d : Desc} (h : d.joinCount = (s.desc u).joinCount) (v : T) :
    ((s.setDesc u d).desc v).joinCount = (s.desc v).joinCount := by
  by_cases hv : v = u
  · subst hv
    simp [Sys.setDesc, h]
  · simp [Sys.setDesc, hv]

theorem roleStep_joinEnd {u : T} {count : ℤ} (free : s.lock = none) (role : (s.pc t).role = .free) :
    RoleStep s t (s.joinEnd t u count) := by
  unfold Sys.joinEnd
  dsimp only
  split
  next =>
    split
    next => exact roleStep_unlocked free (by rfl) rfl
    next => exact roleStep_crash free role
  next => exact roleStep_unlocked free (by rfl) rfl

theorem joinCount_internalFree (u v : T) : ((s.internalFree u).desc v).joinCount = (s.desc v).joinCount :=
  joinCount_setDesc (d := { s.desc u with intern := false }) rfl v

/-- The thread gives the lock back. -/
theorem roleStep_release {pc : Pc T} (role : (s.pc t).role ≠ .free) (free : pc.role = .free) :
    RoleStep s t ({ s with lock := none }.goto t pc) := by
  refine .locked rfl (fun _ => rfl) (fun u hu => goto_role hu) ?_ (.inr ⟨role, ?_⟩)
  · rw [goto_pc_self, free]
    exact .free
  · rw [goto_pc_self, free]

theorem roleStep_exitStore {retval : Word} (free : s.lock = none) : RoleStep s t (s.exitStore t retval) := by
  unfold Sys.exitStore
  dsimp only
  split
  all_goals
    refine .unlocked free (fun u hu => goto_role hu) (fun _ => rfl) ?_ ?_
    · rw [goto_pc_self]
      nofun
    · rw [goto_pc_self]
      nofun

theorem wakeJoiners_role (s : Sys T) (t u : T) : ((s.wakeJoiners t).pc u).role = (s.pc u).role := by
  show (if s.pc u = .joinAsleep t then Pc.joinLock t else s.pc u).role = (s.pc u).role
  split
  next h => rw [h]; rfl
  next => rfl

theorem roleStep_exec (h : exec s t = some s') : RoleStep s t s' := by
  unfold exec at h
  split at h
  next => cases h
  next pc =>
    cases h
    refine roleStep_goto (by rfl) (by rfl) (by rfl) (joinCount_setDesc rfl) ?_
    rw [pc]; exact .same
  next => cases h
  next u oldvalue pc =>
    split at h <;> cases h
    all_goals
      apply roleStep_goto (by rfl) (by rfl) (by rfl) (fun _ => rfl)
      rw [pc]; exact .same
  next => cases h
  next u pc =>
    split at h <;> cases h
    next free => exact roleStep_joinEnd free (by rw [pc]; rfl)
  next u value pc =>
    cases h
    refine roleStep_goto (by rfl) (by rfl) (by rfl) (fun _ => rfl) ?_
    rw [pc]; exact .same
  next pc =>
    cases h
    exact roleStep_release (by rw [pc]; nofun) rfl
  next u rest pc =>
    split at h <;> cases h
    next =>
      apply roleStep_goto (by rfl) (by rfl) (by rfl) (fun _ => rfl)
      rw [pc]; exact .skip
    next tested =>
      apply roleStep_goto (by rfl) (by rfl) (by rfl) (fun _ => rfl)
      rw [pc]; exact .write (Int.not_lt.1 fun neg => tested (.inl neg))
  next u rest pc =>
    cases h
    refine roleStep_goto (by rfl) (by rfl) (by rfl) (fun _ => rfl) ?_
    rw [pc]; exact .written
  next retval pc =>
    split at h <;> cases h
    all_goals
      apply roleStep_goto (by rfl) (by rfl) (by rfl) (fun _ => rfl)
      rw [pc]; exact .same
  next pc =>
    split at h
    next free =>
      split at h <;> cases h
      next => exact roleStep_unlocked free (by rfl) rfl
      next => exact roleStep_crash free (by rw [pc]; rfl)
    next => cases h
  next pc =>
    cases h
    apply roleStep_goto (by rfl) (by rfl) (by rfl) (joinCount_internalFree t)
    rw [pc]; exact .same
  next retval pc =>
    split at h <;> cases h
    next free => exact roleStep_exitStore free
  next pc =>
    cases h
    refine roleStep_goto (by rfl) (by rfl) (by rfl) (joinCount_setDesc rfl) ?_
    rw [pc]; exact .same
  next pc =>
    cases h
    refine .locked rfl (fun _ => rfl) (fun u hu => ?_) ?_ (.inl rfl)
    · rw [goto_role hu, wakeJoiners_role]
    · rw [goto_pc_self, pc]
      exact .same
  next pc =>
    cases h
    exact roleStep_release (by rw [pc]; nofun) rfl
  next pc =>
    cases h
    refine roleStep_goto (by rfl) (by rfl) (by rfl) (fun _ => rfl) ?_
    rw [pc]; exact .same
  next => cases h

/-- Each step of the system is the step of one thread. -/
theorem roleStep {a : Act T} (h : step s a = some s') : ∃ t, RoleStep s t s' := by
  cases moves_of_step h with
  | @exec t _ h => exact ⟨t, roleStep_exec h⟩
  | @create t u detached userStack fresh unlocked => exact ⟨u, roleStep_unlocked unlocked (by rfl) rfl⟩
  | @exit t retval pc =>
      refine ⟨t, roleStep_goto (by rfl) (by rfl) (by rfl) (fun _ => rfl) ?_⟩
      rw [pc]; exact .same
  | @join t u running unlocked =>
      refine ⟨t, ?_⟩
      obtain e | ⟨-, -, ⟨-, e⟩ | ⟨-, e⟩⟩ := pthreadJoin_cases s t u
      · rw [e]
        exact .locked rfl (fun _ => rfl) (fun _ _ => rfl) .same (.inl rfl)
      · rw [e]
        exact roleStep_unlocked unlocked (by rfl) rfl
      · rw [e]
        exact roleStep_joinEnd unlocked (by rw [running]; rfl)
  | @detach t u =>
      refine ⟨t, ?_⟩
      obtain e | ⟨-, -, e⟩ := pthreadDetach_cases s u
      · rw [e]
        exact .locked rfl (fun _ => rfl) (fun _ _ => rfl) .same (.inl rfl)
      · rw [e]
        exact .locked rfl (joinCount_setDesc rfl) (fun _ _ => rfl) .same (.inl rfl)
  | @keyDelete t running unlocked =>
      refine ⟨t, .unlocked unlocked (fun u hu => goto_role hu) (fun _ => rfl) ?_ ?_⟩
      · rw [goto_pc_self]
        intro rest e
        cases e
        rfl
      · rw [goto_pc_self]
        nofun
  | @spurious t u pc =>
      refine ⟨t, roleStep_goto (by rfl) (by rfl) (by rfl) (fun _ => rfl) ?_⟩
      rw [pc]; exact .same

variable {main : T} {ok : Sys T → Act T → Bool}

theorem Reach.walking (h : Reach main ok s) : Walking s := by
  induction h with
  | start =>
      have free : ∀ t, ((Threads.start main).pc t).role = .free := by
        intro t
        by_cases ht : t = main
        · simp [Threads.start, ht, Pc.role]
        · simp [Threads.start, ht, Pc.role]
      refine ⟨fun t ht => absurd (free t) ht, fun t rest ht => ?_, fun t u rest ht => ?_⟩
      · rw [free t] at ht
        cases ht
      · rw [free t] at ht
        cases ht
  | step _ _ hs ih =>
      obtain ⟨t, ht⟩ := roleStep hs
      exact ih.step ht

/-! ### The writes -/

/-- `pthread_key_delete` does not write into a thread with a stack of its own that has exited and is still listed for
joiners that are not back yet. -/
def writesBeforeExit (s : Sys T) : Act T → Bool
  | .exec t =>
      match s.pc t with
      | .keyWrite u _ => !(s.pc u = .gone && !(s.desc u).userStack && 0 < (s.desc u).joinCount)
      | _ => true
  | _ => true

/-- Whatever the run: the stack of the thread that `pthread_key_delete` is about to write into is unmapped if and only if
the thread has exited, had a stack of its own, and is listed for joiners that are not back yet. -/
theorem Reach.unmapped_iff (h : Reach main ok s) {u : T} {rest : List T} (pc : s.pc t = .keyWrite u rest) :
    s.unmapped u = true ↔ s.pc u = .gone ∧ (s.desc u).userStack = false ∧ 0 < (s.desc u).joinCount := by
  obtain ⟨listed, count, -⟩ := h.walking.write t u rest (by rw [pc]; rfl)
  have inv := h.inv u
  have unmapped : s.unmapped u = true ↔ (s.pc u).phase = .gone ∧ (s.desc u).userStack = false := inv.unmapped
  rw [unmapped, Pc.phase_eq_gone]
  refine ⟨fun ended => ⟨ended.1, ended.2, ?_⟩, fun ended => ⟨ended.1, ended.2.1⟩⟩
  have phase : (life s u).phase = .gone := Pc.phase_eq_gone.2 ended.1
  have stored : (life s u).stored ≠ none := fun none => inv.own (.inr ⟨.inr phase, none⟩) listed
  have waited : (s.desc u).joinCount ≠ 0 := inv.waited listed stored
  omega

theorem joinEnd_wildWrites (s : Sys T) (t u : T) (count : ℤ) :
    (s.joinEnd t u count).wildWrites = s.wildWrites := by
  unfold Sys.joinEnd
  dsimp only
  split
  next => split <;> rfl
  next => rfl

theorem exec_wildWrites (h : exec s t = some s') :
    s'.wildWrites = s.wildWrites ∨
      ∃ u rest, s.pc t = .keyWrite u rest ∧ s'.wildWrites = s.wildWrites + (s.unmapped u).toNat := by
  unfold exec at h
  split at h
  next => cases h
  next => cases h; exact .inl rfl
  next => cases h
  next => split at h <;> cases h <;> exact .inl rfl
  next => cases h
  next u pc =>
    split at h <;> cases h
    exact .inl (joinEnd_wildWrites s t u _)
  next => cases h; exact .inl rfl
  next => cases h; exact .inl rfl
  next => split at h <;> cases h <;> exact .inl rfl
  next u rest pc => cases h; exact .inr ⟨u, rest, pc, rfl⟩
  next => split at h <;> cases h <;> exact .inl rfl
  next =>
    split at h
    next => split at h <;> cases h <;> exact .inl rfl
    next => cases h
  next => cases h; exact .inl rfl
  next =>
    split at h <;> cases h
    unfold Sys.exitStore
    dsimp only
    split <;> exact .inl rfl
  next => cases h; exact .inl rfl
  next => cases h; exact .inl rfl
  next => cases h; exact .inl rfl
  next => cases h; exact .inl rfl
  next => cases h

/-- Only `pthread_key_delete` writes into TLS areas. -/
theorem step_wildWrites {a : Act T} (h : step s a = some s') :
    s'.wildWrites = s.wildWrites ∨
      ∃ t u rest, a = .exec t ∧ s.pc t = .keyWrite u rest ∧
        s'.wildWrites = s.wildWrites + (s.unmapped u).toNat := by
  cases moves_of_step h with
  | @exec t _ h =>
      refine (exec_wildWrites h).imp_right fun write => ?_
      obtain ⟨u, rest, pc, e⟩ := write
      exact ⟨t, u, rest, rfl, pc, e⟩
  | create => exact .inl rfl
  | exit => exact .inl rfl
  | @join t u =>
      left
      obtain e | ⟨-, -, ⟨-, e⟩ | ⟨-, e⟩⟩ := pthreadJoin_cases s t u
      · rw [e]
      · rw [e]
        rfl
      · rw [e]
        exact joinEnd_wildWrites s t u _
  | @detach t u =>
      left
      obtain e | ⟨-, -, e⟩ := pthreadDetach_cases s u
      · rw [e]
      · rw [e]
        rfl
  | keyDelete => exact .inl rfl
  | spurious => exact .inl rfl

/-- In every run that keeps to `writesBeforeExit`, no write of `pthread_key_delete` goes to an unmapped stack. -/
theorem key_writes_mapped (h : Reach main writesBeforeExit s) : s.wildWrites = 0 := by
  induction h with
  | start => rfl
  | @step s₀ s₁ a reach ok hs ih =>
      cases step_wildWrites hs with
      | inl same => rw [same, ih]
      | inr write =>
          obtain ⟨t, u, rest, rfl, pc, e⟩ := write
          have mapped : s₀.unmapped u = false := by
            by_contra unmapped
            obtain ⟨gone, own, waited⟩ := (reach.unmapped_iff pc).1 (by simpa using unmapped)
            simp [writesBeforeExit, pc, gone, own, waited] at ok
          rw [e, ih, mapped]
          rfl

/-- The thread 2 deletes a key; the thread 1 is a zombie. -/
def keyDeleted : Sys (Fin 3) :=
  ((start 0).acts writesBeforeExit
    [.create 0 1 false false, .create 0 2 false false, .exec 1, .exec 2, .exit 1 7, .exec 1, .exec 1, .exec 1,
      .exec 1, .keyDelete 2, .exec 2, .exec 2, .exec 2, .exec 2, .exec 2, .exec 2]).getD (start 0)

theorem key_writes_mapped_keyDeleted :
    keyDeleted.pc 2 = .running ∧ keyDeleted.unmapped 1 = true ∧ keyDeleted.wildWrites = 0 := by
  have reach : Reach 0 writesBeforeExit keyDeleted := Reach.start.getD _
  exact ⟨by decide, by decide, key_writes_mapped reach⟩

/-- The thread 1 has woken the thread 0, which waits for it, and is gone; the thread 2 deletes a key before the
thread 0 is back under the lock. -/
def wildWrite : Sys (Fin 3) :=
  ((start 0).acts always
    [.create 0 1 false false, .create 0 2 false false, .exec 1, .exec 2, .join 0 1, .exec 0, .exit 1 7, .exec 1,
      .exec 1, .exec 1, .exec 1, .exec 1, .exec 1, .keyDelete 2, .exec 2, .exec 2, .exec 2, .exec 2]).getD (start 0)

theorem wildWrite_unmapped : Reach 0 always wildWrite ∧ wildWrite.wildWrites = 1 :=
  ⟨Reach.start.getD _, by decide⟩

end Bionic.Threads
