import Bionic.MutexNormal

/-! # Recursive and errorcheck mutexes

The word of such a mutex changes only between `_recursive_lock()` and
`_recursive_unlock()`, so what a thread has read inside is still there when it
writes.  What it has read before, the type and the owner, stays true until it acts on
it: the type never changes, and a thread that saw itself as the owner is the only one
that can undo that.  `RecursiveInv` says so; `Stored` lists what a critical section
can store. -/

namespace Bionic.Mutex

variable {T : Type*} [DecidableEq T]
variable {ids : KernelIds T} {client : Client T} {s s' : Sys T} {t : T} {ty : MutexType}

/-! ### What a critical section stores -/

/-- The sections entered by a thread that found itself the owner. -/
def Job.owned : Job → Bool
  | .relock _ => true
  | .release _ => true
  | _ => false

/-- The locals of a section on a mutex of type `ty`. -/
def Job.Typed (ty : MutexType) : Job → Prop
  | .relock _ => True
  | .acquire mtype k => mtype = pthreadMutexInit ty ∧ (k = 1 ∨ k = 2)
  | .tryAcquire mtype => mtype = pthreadMutexInit ty
  | .release mtype => mtype = pthreadMutexInit ty

/-- A word a mutex of type `ty` can have. -/
structure WordOk (ty : MutexType) (v : Word) : Prop where
  type : (fields v).type = ty.code
  state : v = pthreadMutexInit ty ∨ (fields v).state = 1 ∨ (fields v).state = 2

/-- What a section of the thread `tid` that reads `v` stores, and the `oldv` it keeps. -/
inductive Stored (ty : MutexType) (tid v : Word) : Job → Word → Word → Prop
  /-- The owner's counter goes up. -/
  | relock (trying : Bool) (newv : Word) (own : tid = mutexOwner v)
      (h : fields newv = ⟨(fields v).owner, (fields v).type, ((fields v).counter + 1) % 4096,
        (fields v).state⟩) :
      Stored ty tid v (.relock trying) newv v
  /-- The free mutex is taken, in the state the caller asks for. -/
  | take (job : Job) (k newv : Word) (h : v = pthreadMutexInit ty) (hk : k = 1 ∨ k = 2)
      (hj : job = .acquire v k ∨ job = .tryAcquire v ∧ k = 1)
      (f : fields newv = ⟨tid.toNat % 65536, ty.code, 0, k.toNat⟩) :
      Stored ty tid v job newv v
  /-- The held mutex is marked as contended. -/
  | promote (k newv : Word) (h : (fields v).state = 1)
      (f : fields newv = ⟨(fields v).owner, (fields v).type, (fields v).counter, 2⟩) :
      Stored ty tid v (.acquire (pthreadMutexInit ty) k) newv newv
  /-- The owner's counter goes down. -/
  | lower (newv : Word) (own : tid = mutexOwner v) (hc : (fields v).counter ≠ 0)
      (h : fields newv = ⟨(fields v).owner, (fields v).type, (fields v).counter - 1,
        (fields v).state⟩) :
      Stored ty tid v (.release (pthreadMutexInit ty)) newv 0
  /-- The owner frees the mutex. -/
  | free (own : tid = mutexOwner v) (hc : (fields v).counter = 0) :
      Stored ty tid v (.release (pthreadMutexInit ty)) (pthreadMutexInit ty) v

theorem stored_of_update {tid v newv oldv : Word} {job : Job} (typed : job.Typed ty)
    (own : job.owned = true → tid = mutexOwner v)
    (h : update tid v job = (some newv, oldv)) : Stored ty tid v job newv oldv := by
  cases job with
  | relock trying =>
      simp only [update, Prod.mk.injEq, Option.some.injEq] at h
      obtain ⟨rfl, rfl⟩ := h
      exact .relock trying _ (own rfl) (fields_relocked v)
  | acquire mtype k =>
      obtain ⟨rfl, hk⟩ := typed
      simp only [update] at h
      split at h
      next hv =>
        simp only [Prod.mk.injEq, Option.some.injEq] at h
        obtain ⟨rfl, rfl⟩ := h
        have hlt : k.toNat < 4 := by
          cases hk with
          | inl hk => rw [hk]; decide
          | inr hk => rw [hk]; decide
        exact .take _ k _ hv hk (.inl (by rw [hv])) (fields_locked tid k ty hlt)
      next hv =>
        split at h
        next h1 =>
          simp only [Prod.mk.injEq, Option.some.injEq] at h
          obtain ⟨rfl, rfl⟩ := h
          exact .promote k _ ((state_eq_iff v 1 (by decide)).mp h1) (fields_promoted h1)
        next h1 => simp at h
  | tryAcquire mtype =>
      obtain rfl : mtype = pthreadMutexInit ty := typed
      simp only [update] at h
      split at h
      next hv =>
        simp only [Prod.mk.injEq, Option.some.injEq] at h
        obtain ⟨rfl, rfl⟩ := h
        exact .take _ 1 _ hv (.inl rfl) (.inr ⟨by rw [hv], rfl⟩) (fields_locked tid 1 ty (by decide))
      next hv => simp at h
  | release mtype =>
      obtain rfl : mtype = pthreadMutexInit ty := typed
      simp only [update] at h
      split at h
      next hc =>
        simp only [Prod.mk.injEq, Option.some.injEq] at h
        obtain ⟨rfl, rfl⟩ := h
        exact .lower _ (own rfl) (fun h0 => hc ((counter_eq_zero_iff v).mpr h0)) (fields_lowered hc)
      next hc =>
        simp only [Prod.mk.injEq, Option.some.injEq] at h
        obtain ⟨rfl, rfl⟩ := h
        exact .free (own rfl) ((counter_eq_zero_iff v).mp (not_not.mp hc))

/-- A section that stores nothing found the mutex held, in `lock` as contended. -/
theorem held_of_skip {tid v oldv : Word} {job : Job} (typed : job.Typed ty) (ok : WordOk ty v)
    (h : update tid v job = (none, oldv)) :
    oldv = v ∧ ((∃ k, job = .acquire (pthreadMutexInit ty) k ∧ (fields v).state = 2) ∨
      job = .tryAcquire (pthreadMutexInit ty) ∧ v ≠ pthreadMutexInit ty) := by
  cases job with
  | relock trying => simp [update] at h
  | acquire mtype k =>
      obtain ⟨rfl, hk⟩ := typed
      simp only [update] at h
      split at h
      next hv => simp at h
      next hv =>
        split at h
        next h1 => simp at h
        next h1 =>
          simp only [Prod.mk.injEq, true_and] at h
          refine ⟨h.symm, .inl ⟨k, rfl, ?_⟩⟩
          have h1' : (fields v).state ≠ 1 := fun e => h1 ((state_eq_iff v 1 (by decide)).mpr e)
          exact (ok.state.resolve_left hv).resolve_left h1'
  | tryAcquire mtype =>
      obtain rfl : mtype = pthreadMutexInit ty := typed
      simp only [update] at h
      split at h
      next hv => simp at h
      next hv =>
        simp only [Prod.mk.injEq, true_and] at h
        exact ⟨h.symm, .inr ⟨rfl, hv⟩⟩
  | release mtype =>
      simp only [update] at h
      split at h <;> simp at h

/-- A word with an owner is not that of a free mutex. -/
theorem ne_init_of_owner {tid v : Word} (h0 : tid ≠ 0) (own : tid = mutexOwner v) :
    v ≠ pthreadMutexInit ty := by
  intro hv
  have h := (owner_eq_iff tid v).mp own
  rw [hv, fields_init] at h
  exact h0 (BitVec.eq_of_toNat_eq h)

theorem ne_init_of_state {v : Word} (h : (fields v).state = 1 ∨ (fields v).state = 2) :
    v ≠ pthreadMutexInit ty := by
  intro hv
  rw [hv, fields_init] at h
  simp at h

theorem Stored.wordOk {tid v newv oldv : Word} {job : Job} (h : Stored ty tid v job newv oldv)
    (h0 : tid ≠ 0) (ok : WordOk ty v) : WordOk ty newv := by
  cases h with
  | relock trying _ own f =>
      have held := ok.state.resolve_left (ne_init_of_owner h0 own)
      exact ⟨by rw [f]; exact ok.type, .inr (by rw [f]; exact held)⟩
  | take _ k _ hv hk hj f =>
      refine ⟨by rw [f], .inr ?_⟩
      rw [f]
      cases hk with
      | inl hk => rw [hk]; exact .inl rfl
      | inr hk => rw [hk]; exact .inr rfl
  | promote k _ h1 f => exact ⟨by rw [f]; exact ok.type, .inr (by rw [f]; exact .inr rfl)⟩
  | lower _ own hc f =>
      have held := ok.state.resolve_left (ne_init_of_owner h0 own)
      exact ⟨by rw [f]; exact ok.type, .inr (by rw [f]; exact held)⟩
  | free own hc => exact ⟨by rw [fields_init], .inl rfl⟩

/-- What another thread knows of the owner survives a store. -/
theorem Stored.owner {tid tid' v newv oldv : Word} {job : Job}
    (h : Stored ty tid v job newv oldv) (h0 : tid' ≠ 0) (hne : tid' ≠ tid)
    (own : tid' = mutexOwner v) : tid' = mutexOwner newv := by
  rw [owner_eq_iff] at own ⊢
  cases h with
  | relock trying _ own' f => rw [f]; exact own
  | take _ k _ hv hk hj f =>
      exact absurd hv (ne_init_of_owner h0 ((owner_eq_iff _ _).mpr own))
  | promote k _ h1 f => rw [f]; exact own
  | lower _ own' hc f => rw [f]; exact own
  | free own' hc => exact absurd (((owner_eq_iff _ _).mpr own).trans own'.symm) hne

/-! ### The invariant -/

/-- What a thread at `pc` may rely on when the word is `v`. -/
def PcOk (ty : MutexType) (tid v : Word) : Pc → Prop
  | .owner _ mtype => mtype = pthreadMutexInit ty
  | .normalLock _ | .normalTrylock | .normalUnlock _ => False
  | .enter job _ | .read job => job.Typed ty ∧ (job.owned = true → tid = mutexOwner v)
  | .write job newv oldv => job.Typed ty ∧ Stored ty tid v job newv oldv
  | .leave job oldv _ => job.Typed ty ∧
      ∀ k, job = .acquire (pthreadMutexInit ty) k →
        oldv = pthreadMutexInit ty ∨ (fields oldv).state = 2
  | .wait mtype oldv => mtype = pthreadMutexInit ty ∧ (fields oldv).state = 2
  | .asleep mtype => mtype = pthreadMutexInit ty
  | .idle | .typeOf _ | .wake | .done _ _ => True

/-- The word and what each thread relies on. -/
structure RecursiveThreads (ids : KernelIds T) (ty : MutexType) (s : Sys T) : Prop where
  word : WordOk ty s.mem.value
  pcs : ∀ t, PcOk ty (ids.tid t) s.mem.value (s.pc t)

/-- The invariant of a recursive or an errorcheck mutex. -/
structure RecursiveInv (ids : KernelIds T) (ty : MutexType) (s : Sys T) : Prop
    extends RecursiveThreads ids ty s where
  lock : FutexLock.Inv (recursiveView s)

/-- A thread that is about to give up a level is the owner in the word. -/
theorem PcOk.owner_of_gives {tid v : Word} {pc : Pc} (ok : PcOk ty tid v pc) (h : pc.gives = true) :
    tid = mutexOwner v := by
  cases pc with
  | normalUnlock p => exact ok.elim
  | write job newv oldv =>
      cases ok.2 with
      | lower _ own hc f => exact own
      | free own hc => exact own
      | relock trying _ own f => exact own
      | take _ k _ hv hk hj f => cases hj with
          | inl hj => rw [hj] at h; simp [Pc.gives] at h
          | inr hj => rw [hj.1] at h; simp [Pc.gives] at h
      | promote k _ h1 f => simp [Pc.gives] at h
  | _ => simp [Pc.gives] at h

theorem afterType_of_ne {v : Word} (hty : ty ≠ .normal) (ok : WordOk ty v) (op : Op) :
    afterType (v &&& MUTEX_TYPE_MASK) op = .owner op (pthreadMutexInit ty) := by
  have hne : pthreadMutexInit ty ≠ MUTEX_TYPE_NORMAL := by
    cases ty with
    | normal => contradiction
    | recursive => decide
    | errorcheck => decide
  rw [(and_typeMask_eq_iff v ty).mpr ok.type]
  cases op <;> simp only [afterType, if_neg hne]

theorem afterType_ok {v : Word} (hty : ty ≠ .normal) (ok : WordOk ty v) (tid : Word) (op : Op) :
    PcOk ty tid v (afterType (v &&& MUTEX_TYPE_MASK) op) := by
  rw [afterType_of_ne hty ok op]
  exact rfl

theorem afterOwner_ok (ty : MutexType) (tid v : Word) (op : Op) :
    PcOk ty tid v (afterOwner (pthreadMutexInit ty) (tid == mutexOwner v) op) := by
  cases hown : tid == mutexOwner v with
  | false =>
      cases op with
      | lock => exact ⟨⟨rfl, .inl rfl⟩, by simp [Job.owned]⟩
      | trylock => exact ⟨rfl, by simp [Job.owned]⟩
      | unlock => trivial
  | true =>
      have own : tid = mutexOwner v := by simpa using hown
      cases op with
      | lock =>
          simp only [afterOwner, if_true]
          split
          · trivial
          · exact ⟨trivial, fun _ => own⟩
      | trylock =>
          simp only [afterOwner, if_true]
          split
          · trivial
          · exact ⟨trivial, fun _ => own⟩
      | unlock => exact ⟨rfl, fun _ => own⟩

theorem afterJob_ok {tid v oldv : Word} {job : Job} {p : UnlockPhase}
    (h : PcOk ty tid v (.leave job oldv p)) : PcOk ty tid v (afterJob oldv job) := by
  cases job with
  | relock trying => trivial
  | acquire mtype k =>
      obtain ⟨⟨rfl, hk⟩, hold⟩ := h
      by_cases hv : oldv = pthreadMutexInit ty
      · simp only [afterJob, if_pos hv]; trivial
      · simp only [afterJob, if_neg hv]
        exact ⟨rfl, (hold k rfl).resolve_left hv⟩
  | tryAcquire mtype =>
      unfold afterJob
      dsimp only
      split <;> trivial
  | release mtype =>
      unfold afterJob
      dsimp only
      split <;> trivial

/-- The thread that runs keeps the word well formed, and what it relies on is true. -/
theorem Run.recursive {tid : Word} {m m' : Mem} {th th' : Thread} (h : Run tid m th m' th')
    (hty : ty ≠ .normal) (h0 : tid ≠ 0) (ok : WordOk ty m.value) (hp : PcOk ty tid m.value th.pc) :
    WordOk ty m'.value ∧ PcOk ty tid m'.value th'.pc := by
  cases h with
  | typeOf op pc => exact ⟨ok, afterType_ok hty ok tid op⟩
  | owner op mtype pc =>
      rw [pc] at hp
      obtain rfl : mtype = pthreadMutexInit ty := hp
      exact ⟨ok, afterOwner_ok ty tid m.value op⟩
  | enterMore job p p' w pc h => rw [pc] at hp; exact ⟨ok, hp⟩
  | enterDone job p w pc h => rw [pc] at hp; exact ⟨ok, hp⟩
  | readStore job newv oldv pc h =>
      rw [pc] at hp
      exact ⟨ok, hp.1, stored_of_update hp.1 hp.2 h⟩
  | readSkip job oldv pc h =>
      rw [pc] at hp
      refine ⟨ok, hp.1, fun k hk => .inr ?_⟩
      obtain ⟨rfl, skip⟩ := held_of_skip hp.1 ok h
      cases skip with
      | inl contended => exact contended.choose_spec.2
      | inr busy => rw [hk] at busy; simp at busy
  | write job newv oldv pc =>
      rw [pc] at hp
      refine ⟨hp.2.wordOk h0 ok, ?_⟩
      rw [wrote_pc]
      refine ⟨hp.1, fun k hk => ?_⟩
      cases hp.2 with
      | relock trying _ own f => simp at hk
      | take _ k _ hv _ hj f => exact .inl hv
      | promote k _ h1 f => exact .inr (by rw [f])
      | lower _ own hc f => simp at hk
      | free own hc => simp at hk
  | leaveMore job oldv p p' w pc h => rw [pc] at hp; exact ⟨ok, hp⟩
  | leaveDone job oldv p w pc h => rw [pc] at hp; exact ⟨ok, afterJob_ok hp⟩
  | waitSleep mtype oldv pc h => rw [pc] at hp; exact ⟨ok, hp.1⟩
  | waitAgain mtype oldv pc h =>
      rw [pc] at hp
      exact ⟨ok, ⟨hp.1, .inr rfl⟩, by simp [Job.owned]⟩
  | done op ret pc => rw [returned_pc]; exact ⟨ok, trivial⟩
  | lockMore p p' w pc h => rw [pc] at hp; exact hp.elim
  | lockDone p w pc h => rw [pc] at hp; exact hp.elim
  | tryDone pc h => rw [pc] at hp; exact hp.elim
  | tryBusy pc h => rw [pc] at hp; exact hp.elim
  | unlockDone p w pc h => rw [pc] at hp; exact hp.elim
  | unlockMore p w pc h => rw [pc] at hp; exact hp.elim
  | unlockStored p w pc h => rw [pc] at hp; exact hp.elim

/-- The word and the depth change only by the store of a critical section. -/
theorem Run.value_cases {tid : Word} {m m' : Mem} {th th' : Thread} (h : Run tid m th m' th')
    (hp : PcOk ty tid m.value th.pc) :
    (m'.value = m.value ∧ th'.depth = th.depth) ∨
      ∃ job newv oldv, th.pc = .write job newv oldv ∧
        Stored ty tid m.value job newv oldv ∧ m'.value = newv ∧ th' = th.wrote oldv job := by
  cases h with
  | write job newv oldv pc =>
      rw [pc] at hp
      exact .inr ⟨job, newv, oldv, pc, hp.2, rfl, rfl⟩
  | lockMore p p' w pc h => rw [pc] at hp; exact hp.elim
  | lockDone p w pc h => rw [pc] at hp; exact hp.elim
  | tryDone pc h => rw [pc] at hp; exact hp.elim
  | unlockDone p w pc h => rw [pc] at hp; exact hp.elim
  | unlockMore p w pc h => rw [pc] at hp; exact hp.elim
  | unlockStored p w pc h => rw [pc] at hp; exact hp.elim
  | done op ret pc => exact .inl ⟨rfl, returned_depth th op ret⟩
  | _ => exact .inl ⟨rfl, rfl⟩

omit [DecidableEq T] in
/-- What the other threads rely on survives the store of `t`: none of them is before a
store of its own. -/
theorem RecursiveInv.frame (hi : RecursiveInv ids ty s) {job : Job} {newv oldv : Word}
    (pc : s.pc t = .write job newv oldv)
    (h : Stored ty (ids.tid t) s.mem.value job newv oldv) {u : T} (hut : u ≠ t) :
    PcOk ty (ids.tid u) newv (s.pc u) := by
  have hid : ids.tid u ≠ ids.tid t := fun e => hut (ids.injective e)
  have ok := hi.pcs u
  cases hp : s.pc u with
  | enter job' p =>
      rw [hp] at ok
      exact ⟨ok.1, fun o => h.owner (ids.ne_zero u) hid (ok.2 o)⟩
  | read job' =>
      rw [hp] at ok
      exact ⟨ok.1, fun o => h.owner (ids.ne_zero u) hid (ok.2 o)⟩
  | write job' newv' oldv' =>
      have hu : (recursiveView s).owns u = true := by simp only [recursiveView, hp]; rfl
      have ht : (recursiveView s).owns t = true := by simp only [recursiveView, pc]; rfl
      exact absurd (hi.lock.unique u t hu ht) hut
  | _ => rw [hp] at ok; exact ok

theorem woken_ok {tid v : Word} {pc : Pc} {a : Addr} (hp : PcOk ty tid v pc)
    (h : pc.sleepsOn = some a) : PcOk ty tid v pc.woken := by
  cases pc with
  | normalLock p => exact hp.elim
  | enter job p =>
      cases p with
      | asleep => exact hp
      | _ => simp [Pc.sleepsOn] at h
  | asleep mtype => exact ⟨⟨hp, .inr rfl⟩, by simp [Job.owned]⟩
  | _ => simp [Pc.sleepsOn] at h

theorem afterWake_ok {tid v : Word} {pc : Pc} {a : Addr} (hp : PcOk ty tid v pc)
    (h : pc.wakes = some a) : PcOk ty tid v pc.afterWake := by
  cases pc with
  | normalUnlock p => exact hp.elim
  | wake => trivial
  | leave job oldv p =>
      cases p with
      | wake => exact afterJob_ok hp
      | _ => simp [Pc.wakes] at h
  | _ => simp [Pc.wakes] at h

theorem RecursiveThreads.goto (hi : RecursiveThreads ids ty s) {pc : Pc}
    (hp : PcOk ty (ids.tid t) s.mem.value pc) :
    RecursiveThreads ids ty (s.set s.mem t ((s.thr t).goto pc)) := by
  refine ⟨hi.word, fun u => ?_⟩
  by_cases hut : u = t
  · subst hut; rw [set_pc_self]; exact hp
  · rw [set_pc_of_ne _ _ _ hut]; exact hi.pcs u

theorem RecursiveInv.run (hty : ty ≠ .normal) (hi : RecursiveInv ids ty s) {m : Mem} {th : Thread}
    (h : Run (ids.tid t) s.mem (s.thr t) m th) : RecursiveThreads ids ty (s.set m t th) := by
  have self := h.recursive hty (ids.ne_zero t) hi.word (hi.pcs t)
  refine ⟨self.1, fun u => ?_⟩
  by_cases hut : u = t
  · subst hut; rw [set_pc_self]; exact self.2
  · rw [set_pc_of_ne _ _ _ hut, set_mem]
    cases h.value_cases (hi.pcs t) with
    | inl same => rw [same.1]; exact hi.pcs u
    | inr store =>
        obtain ⟨job, newv, oldv, pc, stored, e, -⟩ := store
        rw [e]
        exact hi.frame pc stored hut

theorem RecursiveInv.step (hty : ty ≠ .normal) (hi : RecursiveInv ids ty s)
    (h : Step ids client s t s') : RecursiveInv ids ty s' := by
  refine ⟨?_, recursive_inv_step hi.lock h⟩
  have threads := hi.toRecursiveThreads
  cases h with
  | call op idle allowed => exact threads.goto trivial
  | exec m th h => exact hi.run hty (run_of_exec h)
  | spurious a h => exact threads.goto (woken_ok (hi.pcs t) h)
  | wakeNone a ht none => exact threads.goto (afterWake_ok (hi.pcs t) ht)
  | wakeOne a u ht hu =>
      have hut := ne_of_wakes ht hu
      have first := threads.goto (afterWake_ok (hi.pcs t) ht)
      have second := first.goto (t := u) (woken_ok (hi.pcs u) hu)
      rw [set_mem, set_thr_of_ne _ _ _ hut] at second
      exact second

omit [DecidableEq T] in
theorem recursiveInv_start (ids : KernelIds T) (ty : MutexType) :
    RecursiveInv ids ty (start T ty) where
  lock := recursive_inv_start ty
  word := ⟨by show (fields (pthreadMutexInit ty)).type = _; rw [fields_init], .inl rfl⟩
  pcs := fun _ => trivial

theorem RecursiveInv.reach {ok : Sys T → Prop} (hty : ty ≠ .normal)
    (h : Reach ids client ok ty s) : RecursiveInv ids ty s := by
  induction h with
  | start => exact recursiveInv_start ids ty
  | step _ step _ ih => exact ih.step hty step

end Bionic.Mutex
