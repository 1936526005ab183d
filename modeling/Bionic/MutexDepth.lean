import Bionic.MutexCalls

/-! # How deep a recursive mutex nests (`libc/bionic/pthread.c`)

One thread acquires a recursive mutex `n` times and then only unlocks it, while any number of other threads use
the mutex as they like.  The counter of the word has twelve bits and starts at 0 for the first lock, so the word
counts up to 4096 locks (`NestInv.step`).  With one more the counter wraps to 0, and the next unlock frees the mutex
(`exists_freed`). -/

namespace Bionic.Mutex

variable {T : Type*} [DecidableEq T]
variable {ids : KernelIds T} {client : Client T} {s s' : Sys T} {t u : T} {n : ℕ}

/-- The thread `t` calls `lock` or `trylock` until `n` of its calls have returned 0, and then only `unlock`. -/
def nests (t : T) (n : ℕ) : Client T := fun s u op => u = t → (op = .unlock ↔ (s.thr t).locks = n)

/-! ### A thread in its first `n` locks -/

/-- The critical sections of `pthread_mutex_lock` and `pthread_mutex_trylock`. -/
def Job.takes : Job → Bool
  | .release _ => false
  | _ => true

/-- Inside one of the two functions. -/
def Pc.locking : Pc → Bool
  | .typeOf op => op != .unlock
  | .owner op _ => op != .unlock
  | .normalLock _ => true
  | .normalTrylock => true
  | .enter job _ => job.takes
  | .read job => job.takes
  | .write job _ _ => job.takes
  | .leave job _ _ => job.takes
  | .wait _ _ => true
  | .asleep _ => true
  | .done op _ => op != .unlock
  | _ => false

/-- At most `n` locks have returned, and fewer as long as there is one in progress. -/
structure Nesting (n : ℕ) (th : Thread) : Prop where
  le : th.locks ≤ n
  lt : th.pc.locking = true → th.locks < n

section

variable {tid : Word} {m m' : Mem} {th th' : Thread}

theorem locking_afterType (mtype : Word) (op : Op) : (afterType mtype op).locking = (op != .unlock) := by
  cases op <;> unfold afterType <;> dsimp only <;> split <;> rfl

theorem locking_afterOwner (mtype : Word) (own : Bool) (op : Op) :
    (afterOwner mtype own op).locking = (op != .unlock) := by
  cases op <;> unfold afterOwner <;> dsimp only <;> (repeat split) <;> rfl

theorem locking_afterJob (oldv : Word) (job : Job) : (afterJob oldv job).locking = job.takes := by
  cases job with
  | relock trying => cases trying <;> rfl
  | acquire mtype k => unfold afterJob; dsimp only; split <;> rfl
  | tryAcquire mtype => unfold afterJob; dsimp only; split <;> rfl
  | release mtype => unfold afterJob; dsimp only; split <;> rfl

/-- What a call has taken and not yet returned, it has taken inside one of the two functions. -/
theorem owed_le (pc : Pc) : pc.owed ≤ 1 ∧ (0 < pc.owed → pc.locking = true) := by
  cases pc with
  | normalUnlock p => cases p <;> simp [Pc.owed]
  | leave job oldv p => cases job <;> simp only [Pc.owed, Pc.locking, Job.takes] <;> (repeat split) <;> simp
  | done op ret => cases op <;> cases ret <;> simp [Pc.owed, Pc.locking]
  | _ => simp [Pc.owed]

@[simp] theorem goto_locks (th : Thread) (pc : Pc) : (th.goto pc).locks = th.locks := rfl

@[simp] theorem took_locks (th : Thread) (pc : Pc) : (th.took pc).locks = th.locks := rfl

@[simp] theorem gave_locks (th : Thread) (pc : Pc) : (th.gave pc).locks = th.locks := rfl

@[simp] theorem wrote_locks (th : Thread) (oldv : Word) (job : Job) : (th.wrote oldv job).locks = th.locks := by
  cases job with
  | acquire mtype k => unfold Thread.wrote; dsimp only; split <;> rfl
  | tryAcquire mtype => unfold Thread.wrote; dsimp only; split <;> rfl
  | _ => rfl

theorem Nesting.keep (h : Nesting n th) (locks : th'.locks = th.locks)
    (locking : th'.pc.locking = true → th.pc.locking = true) : Nesting n th' where
  le := locks ▸ h.le
  lt hin := locks ▸ h.lt (locking hin)

theorem Nesting.returned {op : Op} {ret : Ret} (h : Nesting n th) (pc : th.pc = .done op ret) :
    Nesting n (th.returned op ret) := by
  refine ⟨?_, fun hin => ?_⟩
  · have lt := h.lt
    have le := h.le
    rw [pc] at lt
    cases op <;> cases ret <;> simp only [Thread.returned] <;> first | exact le | exact lt rfl
  · rw [returned_pc] at hin
    cases hin

theorem Run.nesting (h : Run tid m th m' th') (hn : Nesting n th) : Nesting n th' := by
  cases h with
  | typeOf op pc => exact hn.keep rfl fun hin => by rw [pc]; rwa [goto_pc, locking_afterType] at hin
  | owner op mtype pc => exact hn.keep rfl fun hin => by rw [pc]; rwa [goto_pc, locking_afterOwner] at hin
  | write job newv oldv pc => exact hn.keep (wrote_locks _ _ _) fun hin => by rw [pc]; rwa [wrote_pc] at hin
  | leaveDone job oldv p w pc h => exact hn.keep rfl fun hin => by rw [pc]; rwa [goto_pc, locking_afterJob] at hin
  | done op ret pc => exact hn.returned pc
  | unlockDone p w pc h => exact hn.keep rfl fun hin => by cases hin
  | unlockMore p w pc h => exact hn.keep rfl fun hin => by cases hin
  | unlockStored p w pc h => exact hn.keep rfl fun hin => by cases hin
  | _ => exact hn.keep rfl fun hin => by rw [‹th.pc = _›]; exact hin

theorem locking_woken {a : Addr} {pc : Pc} (h : pc.sleepsOn = some a) : pc.woken.locking = pc.locking := by
  cases pc with
  | normalLock p => cases p <;> rfl
  | enter job p => cases p <;> rfl
  | asleep mtype => rfl
  | _ => simp [Pc.sleepsOn] at h

theorem locking_afterWake {a : Addr} {pc : Pc} (h : pc.wakes = some a) : pc.afterWake.locking = pc.locking := by
  cases pc with
  | normalUnlock p =>
      cases p with
      | wake => rfl
      | _ => simp [Pc.wakes] at h
  | wake => rfl
  | leave job oldv p =>
      cases p with
      | wake => exact locking_afterJob oldv job
      | _ => simp [Pc.wakes] at h
  | _ => simp [Pc.wakes] at h

end

/-- A rule for what a step of any thread `u` does to the thread `t`. -/
theorem Step.thread_rule {I : Thread → Prop} (h : Step ids client s u s') (hI : I (s.thr t))
    (call : ∀ op, (s.thr t).pc = .idle → client s t op → I ((s.thr t).goto (.typeOf op)))
    (run : ∀ m th, Run (ids.tid t) s.mem (s.thr t) m th → I th)
    (woken : ∀ a, (s.thr t).pc.sleepsOn = some a → I ((s.thr t).goto (s.thr t).pc.woken))
    (woke : ∀ a, (s.thr t).pc.wakes = some a → I ((s.thr t).goto (s.thr t).pc.afterWake)) : I (s'.thr t) := by
  have one (h' : ThreadStep ids (fun _ _ _ => False) s s' t) : I (s'.thr t) := by
    cases h' with
    | same h' => exact h' ▸ hI
    | call op never => exact never.elim
    | run h' => exact run _ _ h'
    | woken a h' e => exact e ▸ woken a h'
    | woke a h' e => exact e ▸ woke a h'
  cases h with
  | call op idle allowed =>
      by_cases htu : t = u
      · subst htu
        rw [Sys.call, set_thr_self]
        exact call op idle allowed
      · rw [Sys.call, set_thr_of_ne _ _ _ htu]
        exact hI
  | exec m th h => exact one ((Step.exec m th h).thread t)
  | spurious a h => exact one ((Step.spurious a h).thread t)
  | wakeOne a v ht hv => exact one ((Step.wakeOne a v ht hv).thread t)
  | wakeNone a ht none => exact one ((Step.wakeNone a ht none).thread t)

theorem Step.nesting (h : Step ids (nests t n) s u s') (hn : Nesting n (s.thr t)) : Nesting n (s'.thr t) := by
  refine h.thread_rule (I := Nesting n) hn ?_ ?_ ?_ ?_
  · intro op idle allowed
    refine ⟨hn.le, fun hin => lt_of_le_of_ne hn.le fun all => ?_⟩
    have unlock : op = .unlock := (allowed rfl).2 all
    rw [goto_pc, unlock] at hin
    cases hin
  · exact fun m th run => run.nesting hn
  · exact fun a h => hn.keep rfl fun hin => by rwa [goto_pc, locking_woken h] at hin
  · exact fun a h => hn.keep rfl fun hin => by rwa [goto_pc, locking_afterWake h] at hin

theorem Step.counted (h : Step ids client s u s') (hc : (s.thr t).Counted)
    (hg : (s.thr t).pc.gives = true → 0 < (s.thr t).depth) : (s'.thr t).Counted := by
  refine h.thread_rule (I := Thread.Counted) hc ?_ ?_ ?_ ?_
  · exact fun op idle _ => hc.goto (by rw [idle]; rfl)
  · exact fun m th run => run.counted hc hg
  · exact fun a h => hc.goto (owed_woken h)
  · exact fun a h => hc.goto (owed_afterWake h)

/-- The depth of the thread is at most the number of its locks. -/
theorem Nesting.depth_le {th : Thread} (hn : Nesting n th) (hc : th.Counted) : th.depth ≤ n := by
  obtain ⟨one, inside⟩ := owed_le th.pc
  unfold Thread.Counted at hc
  have le := hn.le
  by_cases pos : 0 < th.pc.owed
  · have lt := hn.lt (inside pos)
    omega
  · omega

/-! ### The word and the depth of one thread -/

/-- The word `v` says that the thread `t` holds the mutex `d` times. -/
def Holds (ids : KernelIds T) (v : Word) (t : T) (d : ℕ) : Prop :=
  (ids.tid t = mutexOwner v ∧ (fields v).counter + 1 = d) ∨ (ids.tid t ≠ mutexOwner v ∧ d = 0)

section

variable {ty : MutexType} {v newv oldv : Word} {job : Job} {th : Thread} {d : ℕ}

omit [DecidableEq T] in
theorem Holds.pos_iff (h : Holds ids v t d) : 0 < d ↔ ids.tid t = mutexOwner v := by
  rcases h with ⟨own, count⟩ | ⟨alien, zero⟩
  · exact ⟨fun _ => own, fun _ => by omega⟩
  · exact ⟨fun pos => by omega, fun own => absurd own alien⟩

omit [DecidableEq T] in
/-- The word names the same owner with the same counter. -/
theorem Holds.congr (h : Holds ids v t d) (owner : (fields newv).owner = (fields v).owner)
    (counter : ids.tid t = mutexOwner v → (fields newv).counter = (fields v).counter) : Holds ids newv t d := by
  have same : ids.tid t = mutexOwner newv ↔ ids.tid t = mutexOwner v := by
    rw [owner_eq_iff, owner_eq_iff, owner]
  rcases h with ⟨own, count⟩ | ⟨alien, zero⟩
  · exact .inl ⟨same.2 own, by rwa [counter own]⟩
  · exact .inr ⟨fun own => alien (same.1 own), zero⟩

omit [DecidableEq T] in
/-- A free mutex is nobody's. -/
theorem not_owner_init (t : T) : ids.tid t ≠ mutexOwner (pthreadMutexInit ty) :=
  fun own => ne_init_of_owner (ids.ne_zero t) own rfl

omit [DecidableEq T] in
/-- A store of the thread itself. -/
theorem Holds.store (h : Holds ids v t th.depth) (range : (ids.tid t).toNat < 65536)
    (stored : Stored ty (ids.tid t) v job newv oldv) (shallow : (th.wrote oldv job).depth ≤ 4096) :
    Holds ids newv t (th.wrote oldv job).depth := by
  cases stored with
  | relock trying _ own f =>
      have count := (h.resolve_right fun alien => alien.1 own).2
      have deeper : (th.wrote v (.relock trying)).depth = th.depth + 1 := rfl
      rw [deeper] at shallow ⊢
      refine .inl ⟨?_, ?_⟩
      · rw [owner_eq_iff] at own ⊢
        rwa [f]
      · rw [f]
        dsimp only
        omega
  | take _ k _ hv hk hj f =>
      subst hv
      have zero := (h.resolve_left fun own => not_owner_init t own.1).2
      have deeper : (th.wrote (pthreadMutexInit ty) job).depth = th.depth + 1 := by
        cases hj with
        | inl hj => rw [hj]; simp [Thread.wrote]
        | inr hj => rw [hj.1]; simp [Thread.wrote]
      rw [deeper]
      refine .inl ⟨?_, ?_⟩
      · rw [owner_eq_iff, f]
        exact (Nat.mod_eq_of_lt range).symm
      · rw [f, zero]
  | promote k _ h1 f =>
      have hnew : newv ≠ pthreadMutexInit ty := ne_init_of_state (.inr (by rw [f]))
      have same : (th.wrote newv (.acquire (pthreadMutexInit ty) k)).depth = th.depth := by
        simp [Thread.wrote, hnew]
      rw [same]
      exact h.congr (by rw [f]) fun _ => by rw [f]
  | lower _ own hc f =>
      have count := (h.resolve_right fun alien => alien.1 own).2
      have less : (th.wrote 0 (.release (pthreadMutexInit ty))).depth = th.depth - 1 := rfl
      rw [less]
      refine .inl ⟨?_, ?_⟩
      · rw [owner_eq_iff] at own ⊢
        rwa [f]
      · rw [f]
        dsimp only
        omega
  | free own hc =>
      have count := (h.resolve_right fun alien => alien.1 own).2
      have less : (th.wrote v (.release (pthreadMutexInit ty))).depth = th.depth - 1 := rfl
      rw [less]
      exact .inr ⟨not_owner_init t, by omega⟩

omit [DecidableEq T] in
/-- A store of another thread. -/
theorem Holds.other (h : Holds ids v t d) (hut : t ≠ u) (range : (ids.tid u).toNat < 65536)
    (stored : Stored ty (ids.tid u) v job newv oldv) : Holds ids newv t d := by
  have alien (own : ids.tid u = mutexOwner v) : ids.tid t ≠ mutexOwner v :=
    fun own' => hut (ids.injective (own'.trans own.symm))
  cases stored with
  | relock trying _ own f => exact h.congr (by rw [f]) fun own' => absurd own' (alien own)
  | take _ k _ hv hk hj f =>
      subst hv
      have zero := (h.resolve_left fun own => not_owner_init t own.1).2
      refine .inr ⟨?_, zero⟩
      rw [ne_eq, owner_eq_iff, f]
      intro same
      have same : (ids.tid t).toNat = (ids.tid u).toNat % 65536 := same
      rw [Nat.mod_eq_of_lt range] at same
      exact hut (ids.injective (BitVec.eq_of_toNat_eq same))
  | promote k _ h1 f => exact h.congr (by rw [f]) fun _ => by rw [f]
  | lower _ own hc f => exact h.congr (by rw [f]) fun own' => absurd own' (alien own)
  | free own hc => exact .inr ⟨not_owner_init t, (h.resolve_left fun own' => alien own own'.1).2⟩

end

/-! ### Up to 4096 locks -/

/-- What holds along a run in which the thread `t` nests `n` locks. -/
structure NestInv (ids : KernelIds T) (t : T) (n : ℕ) (s : Sys T) : Prop extends RecursiveInv ids .recursive s where
  nesting : Nesting n (s.thr t)
  counted : (s.thr t).Counted
  holds : Holds ids s.mem.value t (s.thr t).depth

omit [DecidableEq T] in
theorem nestInv_start (ids : KernelIds T) (t : T) (n : ℕ) : NestInv ids t n (start T .recursive) where
  toRecursiveInv := recursiveInv_start ids .recursive
  nesting := ⟨Nat.zero_le n, fun h => by cases h⟩
  counted := by simp [start, Thread.Counted, Pc.owed]
  holds := .inr ⟨not_owner_init t, rfl⟩

omit [DecidableEq T] in
theorem NestInv.gives (hi : NestInv ids t n s) (h : (s.thr t).pc.gives = true) : 0 < (s.thr t).depth := by
  apply hi.holds.pos_iff.2
  exact (hi.pcs t).owner_of_gives h

theorem NestInv.step (range : ∀ u, (ids.tid u).toNat ≤ 32768) (small : n ≤ 4096) (hi : NestInv ids t n s)
    (h : Step ids (nests t n) s u s') : NestInv ids t n s' := by
  have nesting := h.nesting hi.nesting
  have counted := h.counted hi.counted hi.gives
  have shallow : (s'.thr t).depth ≤ 4096 := (nesting.depth_le counted).trans small
  have lt (v : T) : (ids.tid v).toNat < 65536 := Nat.lt_of_le_of_lt (range v) (by decide)
  refine ⟨hi.toRecursiveInv.step (by decide) h, nesting, counted, ?_⟩
  cases h.depth_cases with
  | inl same =>
      have depth : (s'.thr t).depth = (s.thr t).depth := congrFun same.2 t
      rw [same.1, depth]
      exact hi.holds
  | inr run =>
      obtain ⟨m, th, run, rfl⟩ := run
      rw [set_mem]
      by_cases htu : t = u
      · subst htu
        rw [set_thr_self] at shallow ⊢
        rcases run.value_cases (hi.pcs t) with ⟨value, depth⟩ | ⟨job, newv, oldv, -, stored, e, rfl⟩
        · rw [value, depth]
          exact hi.holds
        · rw [e]
          exact hi.holds.store (lt t) stored shallow
      · rw [set_thr_of_ne _ _ _ htu]
        rcases run.value_cases (hi.pcs u) with ⟨value, -⟩ | ⟨job, newv, oldv, -, stored, e, -⟩
        · rw [value]
          exact hi.holds
        · rw [e]
          exact hi.holds.other htu (lt u) stored

theorem NestInv.reach (range : ∀ u, (ids.tid u).toNat ≤ 32768) (small : n ≤ 4096)
    (h : Reach ids (nests t n) (fun _ => True) .recursive s) : NestInv ids t n s := by
  induction h with
  | start => exact nestInv_start ids t n
  | step _ step _ ih => exact ih.step range small step

omit [DecidableEq T] in
theorem NestInv.owner_iff (hi : NestInv ids t n s) (idle : s.pc t = .idle) (all : (s.thr t).locks = n) :
    ids.tid t = mutexOwner s.mem.value ↔ (s.thr t).unlocks < n := by
  rw [← hi.holds.pos_iff, ← all]
  exact hi.counted.holder_iff idle

/-! ### More than 4096 locks -/

/-- The thread `tid` runs by itself. -/
def Solo (tid : Word) : Mem × Thread → Mem × Thread → Prop :=
  Relation.ReflTransGen fun a b => exec tid a.1 a.2 = some b

theorem Solo.next {tid : Word} {a b c : Mem × Thread} (h : Solo tid a b) (step : exec tid b.1 b.2 = some c) :
    Solo tid a c := Relation.ReflTransGen.tail h step

theorem Reach.solo {ok : Sys T → Prop} {ty : MutexType} {a b : Mem × Thread} (hok : ∀ s, ok s)
    (h : Reach ids client ok ty (s.set a.1 t a.2)) (run : Solo (ids.tid t) a b) :
    Reach ids client ok ty (s.set b.1 t b.2) := by
  induction run with
  | refl => exact h
  | @tail b c _ step ih =>
      have he : exec (ids.tid t) (s.set b.1 t b.2).mem ((s.set b.1 t b.2).thr t) = some (c.1, c.2) := by
        rw [set_mem, set_thr_self]
        exact step
      have next := ih.step (.exec c.1 c.2 he) (hok _)
      rwa [Sys.set, Sys.set, Function.update_idem] at next

/-- A critical section that nobody else wants. -/
theorem solo_section {tid v newv oldv : Word} {job : Job} {th : Thread} (pc : th.pc = .enter job .cas)
    (stored : update tid v job = (some newv, oldv)) :
    Solo tid (⟨v, 0⟩, th) (⟨newv, 0⟩, (th.wrote oldv job).goto (afterJob oldv job)) := by
  have enter : exec tid ⟨v, 0⟩ th = some (⟨v, 1⟩, th.goto (.read job)) := by simp [exec, pc, normalLock]
  have read : exec tid ⟨v, 1⟩ (th.goto (.read job)) = some (⟨v, 1⟩, (th.goto (.read job)).goto (.write job newv oldv)) := by
    simp [exec, stored]
  have write : exec tid ⟨v, 1⟩ ((th.goto (.read job)).goto (.write job newv oldv)) =
      some (⟨newv, 1⟩, ((th.goto (.read job)).goto (.write job newv oldv)).wrote oldv job) := by simp [exec]
  have leave : exec tid ⟨newv, 1⟩ (((th.goto (.read job)).goto (.write job newv oldv)).wrote oldv job) =
      some (⟨newv, 0⟩, (((th.goto (.read job)).goto (.write job newv oldv)).wrote oldv job).goto (afterJob oldv job)) := by
    simp [exec, normalUnlock]
  have same : ((th.goto (.read job)).goto (.write job newv oldv)).wrote oldv job = th.wrote oldv job := by
    cases job <;> rfl
  rw [same] at write leave
  exact (((Solo.next .refl enter).next read).next write).next leave

/-- A whole call, on a recursive mutex that nobody else wants. -/
theorem solo_call {tid v newv oldv : Word} {op : Op} {job : Job} {th : Thread} (pc : th.pc = .typeOf op)
    (type : (fields v).type = MutexType.recursive.code)
    (enters : afterOwner MUTEX_TYPE_RECURSIVE (tid == mutexOwner v) op = .enter job .cas)
    (stored : update tid v job = (some newv, oldv)) (returns : afterJob oldv job = .done op .ok) :
    Solo tid (⟨v, 0⟩, th) (⟨newv, 0⟩, (th.wrote oldv job).returned op .ok) := by
  have look : exec tid ⟨v, 0⟩ th = some (⟨v, 0⟩, th.goto (.owner op MUTEX_TYPE_RECURSIVE)) := by
    have typed : v &&& MUTEX_TYPE_MASK = MUTEX_TYPE_RECURSIVE := (and_typeMask_eq_iff v .recursive).2 type
    have next : afterType MUTEX_TYPE_RECURSIVE op = .owner op MUTEX_TYPE_RECURSIVE := by cases op <;> rfl
    simp only [exec, pc, typed, next]
  have owner : exec tid ⟨v, 0⟩ (th.goto (.owner op MUTEX_TYPE_RECURSIVE)) = some (⟨v, 0⟩, th.goto (.enter job .cas)) := by
    simp only [exec, goto_pc, enters]
    rfl
  have inside := @solo_section tid v newv oldv job (th.goto (.enter job .cas)) rfl stored
  have same : (th.goto (.enter job .cas)).wrote oldv job = th.wrote oldv job := by cases job <;> rfl
  rw [same, returns] at inside
  have done : exec tid ⟨newv, 0⟩ ((th.wrote oldv job).goto (.done op .ok)) =
      some (⟨newv, 0⟩, (th.wrote oldv job).returned op .ok) := by
    simp only [exec, goto_pc]
    cases op <;> rfl
  have before : Solo tid (⟨v, 0⟩, th) (⟨v, 0⟩, th.goto (.enter job .cas)) := (Solo.next .refl look).next owner
  exact Solo.next (Relation.ReflTransGen.trans before inside) done

/-- The state in which the thread `t` is outside the functions, nobody is in them, and the word is `v`. -/
structure Quiet (ids : KernelIds T) (client : Client T) (t : T) (f : Fields) (depth locks unlocks : ℕ) (s : Sys T) :
    Prop where
  reach : Reach ids client (fun _ => True) .recursive s
  thr : s.thr t = ⟨.idle, depth, locks, unlocks⟩
  noSection : s.mem.recursiveLock = 0
  word : fields s.mem.value = f

/-- A call of the thread alone, from one such state to the next. -/
theorem Quiet.call {f : Fields} {depth locks unlocks : ℕ} {newv oldv : Word} {op : Op}
    (h : Quiet ids client t f depth locks unlocks s) (job : Job) (allowed : client s t op)
    (enters : afterOwner MUTEX_TYPE_RECURSIVE (ids.tid t == mutexOwner s.mem.value) op = .enter job .cas)
    (stored : update (ids.tid t) s.mem.value job = (some newv, oldv)) (returns : afterJob oldv job = .done op .ok) :
    ∃ s', Reach ids client (fun _ => True) .recursive s' ∧ s'.mem = ⟨newv, 0⟩ ∧
      s'.thr t = (Thread.wrote ⟨.typeOf op, depth, locks, unlocks⟩ oldv job).returned op .ok := by
  have type := (RecursiveInv.reach (by decide) h.reach).word.type
  have idle : s.pc t = .idle := by rw [Sys.pc, h.thr]
  have called := h.reach.step (.call op idle allowed) trivial
  have thr : (s.thr t).goto (.typeOf op) = ⟨.typeOf op, depth, locks, unlocks⟩ := by
    rw [h.thr]
    rfl
  have mem : s.mem = ⟨s.mem.value, 0⟩ := by
    rw [← h.noSection]
  rw [Sys.call, thr, mem] at called
  exact ⟨_, Reach.solo (fun _ => trivial) called (solo_call rfl type enters stored returns), rfl, set_thr_self _ _ _ _⟩

/-- The four fields make up the word. -/
theorem eq_of_fields {v w : Word} (h : fields v = fields w) : v = w := by
  simp only [fields, Fields.mk.injEq] at h
  apply BitVec.eq_of_toNat_eq
  omega

/-- The first lock. -/
theorem Quiet.first (h : Quiet ids client t ⟨0, MutexType.recursive.code, 0, 0⟩ 0 0 0 s) (allowed : client s t .lock)
    (range : (ids.tid t).toNat < 65536) :
    ∃ s', Quiet ids client t ⟨(ids.tid t).toNat, MutexType.recursive.code, 0, 1⟩ 1 1 0 s' := by
  have alien : ids.tid t ≠ mutexOwner s.mem.value := by
    rw [ne_eq, owner_eq_iff, h.word]
    exact fun zero => ids.ne_zero t (BitVec.eq_of_toNat_eq zero)
  have free : s.mem.value = MUTEX_TYPE_RECURSIVE := eq_of_fields (h.word.trans (fields_init .recursive).symm)
  have stored : update (ids.tid t) s.mem.value (.acquire MUTEX_TYPE_RECURSIVE 1) =
      (some ((ids.tid t <<< 16) ||| MUTEX_TYPE_RECURSIVE ||| 1), MUTEX_TYPE_RECURSIVE) := by
    rw [free]
    simp [update]
  obtain ⟨s', reach, mem, thr⟩ := h.call (.acquire MUTEX_TYPE_RECURSIVE 1) allowed
    (by rw [beq_false_of_ne alien]; rfl) stored (by simp [afterJob])
  refine ⟨s', reach, ?_, by rw [mem], ?_⟩
  · rw [thr]
    simp [Thread.wrote, Thread.took, Thread.returned]
  · have f := fields_locked (ids.tid t) 1 .recursive (by decide)
    rw [mem]
    rw [Nat.mod_eq_of_lt range] at f
    exact f

/-- One lock more. -/
theorem Quiet.lock {o c d : ℕ} (h : Quiet ids client t ⟨o, MutexType.recursive.code, c, 1⟩ d d 0 s)
    (allowed : client s t .lock) (own : (ids.tid t).toNat = o) :
    ∃ s', Quiet ids client t ⟨o, MutexType.recursive.code, (c + 1) % 4096, 1⟩ (d + 1) (d + 1) 0 s' := by
  have own : ids.tid t = mutexOwner s.mem.value := by
    rw [owner_eq_iff, h.word]
    exact own
  obtain ⟨s', reach, mem, thr⟩ := h.call (.relock false) allowed
    (by rw [beq_iff_eq.2 own]; rfl) rfl rfl
  refine ⟨s', reach, thr, by rw [mem], ?_⟩
  rw [mem, fields_relocked, h.word]

/-- An unlock that lowers the counter. -/
theorem Quiet.lower {o c d l k : ℕ} (h : Quiet ids client t ⟨o, MutexType.recursive.code, c + 1, 1⟩ d l k s)
    (allowed : client s t .unlock) (own : (ids.tid t).toNat = o) :
    ∃ s', Quiet ids client t ⟨o, MutexType.recursive.code, c, 1⟩ (d - 1) l (k + 1) s' := by
  have own : ids.tid t = mutexOwner s.mem.value := by
    rw [owner_eq_iff, h.word]
    exact own
  have counted : s.mem.value &&& MUTEX_COUNTER_MASK ≠ 0 := by
    rw [ne_eq, counter_eq_zero_iff, h.word]
    exact Nat.succ_ne_zero c
  obtain ⟨s', reach, mem, thr⟩ := h.call (.release MUTEX_TYPE_RECURSIVE) allowed
    (by rw [beq_iff_eq.2 own]; rfl) (if_pos counted) rfl
  refine ⟨s', reach, thr, by rw [mem], ?_⟩
  rw [mem, fields_lowered counted, h.word]
  rfl

/-- An unlock that frees the mutex. -/
theorem Quiet.free {o d l k : ℕ} (h : Quiet ids client t ⟨o, MutexType.recursive.code, 0, 1⟩ d l k s)
    (allowed : client s t .unlock) (own : (ids.tid t).toNat = o) :
    ∃ s', Quiet ids client t ⟨0, MutexType.recursive.code, 0, 0⟩ (d - 1) l (k + 1) s' := by
  have own : ids.tid t = mutexOwner s.mem.value := by
    rw [owner_eq_iff, h.word]
    exact own
  have counted : ¬ s.mem.value &&& MUTEX_COUNTER_MASK ≠ 0 := by
    rw [not_not, counter_eq_zero_iff, h.word]
  have uncontended : s.mem.value &&& 3 ≠ 2 := by
    have two := state_eq_iff s.mem.value 2 (by decide)
    intro contended
    have state := two.1 contended
    rw [h.word] at state
    cases state
  obtain ⟨s', reach, mem, thr⟩ := h.call (.release MUTEX_TYPE_RECURSIVE) allowed
    (by rw [beq_iff_eq.2 own]; rfl) (if_neg counted) (if_neg uncontended)
  refine ⟨s', reach, thr, by rw [mem], ?_⟩
  rw [mem]
  exact fields_init .recursive

theorem quiet_start (ids : KernelIds T) (client : Client T) (t : T) :
    Quiet ids client t ⟨0, MutexType.recursive.code, 0, 0⟩ 0 0 0 (start T .recursive) :=
  ⟨.start, rfl, rfl, fields_init .recursive⟩

theorem Quiet.allowed_lock {f : Fields} {d l k : ℕ} (h : Quiet ids client t f d l k s) (hl : l < n) :
    nests t n s t .lock := by
  intro _
  rw [h.thr]
  exact ⟨(fun h => nomatch h), fun e => absurd e (Nat.ne_of_lt hl)⟩

theorem Quiet.allowed_unlock {f : Fields} {d k : ℕ} (h : Quiet ids client t f d n k s) :
    nests t n s t .unlock := by
  intro _
  rw [h.thr]
  exact ⟨fun _ => rfl, fun _ => rfl⟩

/-- After `j + 1` locks the counter is what is left of `j`. -/
theorem exists_locked (ids : KernelIds T) (t : T) (range : (ids.tid t).toNat < 65536) {j : ℕ} (hj : j < n) : ∃ s,
    Quiet ids (nests t n) t ⟨(ids.tid t).toNat, MutexType.recursive.code, j % 4096, 1⟩ (j + 1) (j + 1) 0 s := by
  induction j with
  | zero =>
      have fresh : Quiet ids (nests t n) t ⟨0, MutexType.recursive.code, 0, 0⟩ 0 0 0 (start T .recursive) :=
        quiet_start ids (nests t n) t
      exact fresh.first (fresh.allowed_lock hj) range
  | succ j ih =>
      obtain ⟨s, quiet⟩ := ih (Nat.lt_of_succ_lt hj)
      obtain ⟨s', quiet'⟩ := quiet.lock (quiet.allowed_lock hj) rfl
      rw [Nat.mod_add_mod] at quiet'
      exact ⟨s', quiet'⟩

/-- Unlocks, as many as the counter says. -/
theorem exists_lowered {o c d k : ℕ} (own : (ids.tid t).toNat = o) (i : ℕ)
    (h : Quiet ids (nests t n) t ⟨o, MutexType.recursive.code, c + i, 1⟩ d n k s) :
    ∃ s', Quiet ids (nests t n) t ⟨o, MutexType.recursive.code, c, 1⟩ (d - i) n (k + i) s' := by
  induction i generalizing s d k with
  | zero => exact ⟨s, h⟩
  | succ i ih =>
      obtain ⟨s₁, quiet⟩ := h.lower h.allowed_unlock own
      obtain ⟨s', quiet'⟩ := ih quiet
      have depth : d - 1 - i = d - (i + 1) := by omega
      have unlocks : k + 1 + i = k + (i + 1) := by omega
      rw [depth, unlocks] at quiet'
      exact ⟨s', quiet'⟩

/-- The unlock that finds the counter 0 frees the mutex, whatever the number of locks. -/
theorem exists_freed (ids : KernelIds T) (t : T) (n : ℕ) (range : (ids.tid t).toNat < 65536) (pos : 0 < n) : ∃ s d,
    Quiet ids (nests t n) t ⟨0, MutexType.recursive.code, 0, 0⟩ d n ((n - 1) % 4096 + 1) s := by
  obtain ⟨s₁, locked⟩ := exists_locked (n := n) (j := n - 1) ids t range (by omega)
  rw [Nat.sub_add_cancel pos] at locked
  obtain ⟨s₂, lowered⟩ := exists_lowered (c := 0) rfl ((n - 1) % 4096) (by rw [Nat.zero_add]; exact locked)
  obtain ⟨s, freed⟩ := lowered.free lowered.allowed_unlock rfl
  rw [Nat.zero_add] at freed
  exact ⟨s, _, freed⟩

/-! ### The number of locks that the mutex can count -/

/-- Whatever the other threads do: after `n` locks and some unlocks of one thread, the thread is the owner as long
as it has made less than `n` unlocks and not any more when it has made `n`, if and only if `n` is at most 4096. -/
theorem depth_iff (range : ∀ u, (ids.tid u).toNat ≤ 32768) (t : T) (n : ℕ) :
    (∀ s, Reach ids (nests t n) (fun _ => True) .recursive s → s.pc t = .idle → (s.thr t).locks = n →
      (ids.tid t = mutexOwner s.mem.value ↔ (s.thr t).unlocks < n)) ↔ n ≤ 4096 := by
  constructor
  · intro all
    by_contra large
    obtain ⟨s, d, freed⟩ := exists_freed ids t n
      (Nat.lt_of_le_of_lt (range t) (by decide)) (by omega)
    have alien : ids.tid t ≠ mutexOwner s.mem.value := by
      rw [ne_eq, owner_eq_iff, freed.word]
      exact fun zero => ids.ne_zero t (BitVec.eq_of_toNat_eq zero)
    refine alien ((all s freed.reach (by rw [Sys.pc, freed.thr]) (by rw [freed.thr])).2 ?_)
    rw [freed.thr]
    show (n - 1) % 4096 + 1 < n
    omega
  · intro small s reach idle locks
    exact (NestInv.reach range small reach).owner_iff idle locks

theorem range_twoThreads (u : Fin 2) : (twoThreads.tid u).toNat ≤ 32768 := by
  revert u
  decide

/-- Three locks take three unlocks. -/
theorem depth_three : 3 ≤ 4096 ∧
    ∀ s, Reach twoThreads (nests 0 3) (fun _ => True) .recursive s → s.pc 0 = .idle → (s.thr 0).locks = 3 →
      (twoThreads.tid 0 = mutexOwner s.mem.value ↔ (s.thr 0).unlocks < 3) :=
  ⟨by decide, (depth_iff range_twoThreads 0 3).2 (by decide)⟩

/-- After 4097 locks the first unlock frees the mutex. -/
theorem freed_of_4097 : ∃ s, Reach twoThreads (nests 0 4097) (fun _ => True) .recursive s ∧ s.pc 0 = .idle ∧
    (s.thr 0).locks = 4097 ∧ (s.thr 0).unlocks = 1 ∧ twoThreads.tid 0 ≠ mutexOwner s.mem.value := by
  obtain ⟨s, d, freed⟩ := exists_freed twoThreads 0 4097 (by decide) (by decide)
  have alien : twoThreads.tid 0 ≠ mutexOwner s.mem.value := by
    rw [ne_eq, owner_eq_iff, freed.word]
    exact fun zero => twoThreads.ne_zero 0 (BitVec.eq_of_toNat_eq zero)
  refine ⟨s, freed.reach, by rw [Sys.pc, freed.thr], by rw [freed.thr], ?_, alien⟩
  rw [freed.thr]

end Bionic.Mutex
