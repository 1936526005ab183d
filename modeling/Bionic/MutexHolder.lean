import Mathlib.Logic.Relation
import Bionic.MutexRecursive

/-! # The holder of a recursive or an errorcheck mutex

With kernel ids below 2^16 and nesting that fits the counter, the word says who holds
the mutex and how often (`Accounted`): a thread is a holder exactly when the word
names it as the owner (`Accounted.holder_iff`).  So the look at the owner that each
function takes before it enters its critical section answers the question it asks,
and the other threads cannot change the answer.  `Returns` speaks of a call as a
whole, under any interleaving. -/

namespace Bionic.Mutex

variable {T : Type*} [DecidableEq T]
variable {ids : KernelIds T} {client : Client T} {s s' : Sys T} {t : T} {ty : MutexType}

/-! ### The word accounts for the holder -/

/-- No thread nests more than 4096 locks. -/
def Shallow (s : Sys T) : Prop := ∀ t, (s.thr t).depth ≤ 4096

instance (s : Sys (Fin 2)) : Decidable (Shallow s) :=
  inferInstanceAs (Decidable (∀ t, (s.thr t).depth ≤ 4096))

/-- `h` holds the mutex alone, as the word `v` says. -/
structure HeldBy (ids : KernelIds T) (v : Word) (depth : T → ℕ) (h : T) : Prop where
  pos : 0 < depth h
  others : ∀ u, u ≠ h → depth u = 0
  owner : (fields v).owner = (ids.tid h).toNat
  counter : (fields v).counter + 1 = depth h

/-- The word is that of a free mutex and nobody holds it, or it names its holder. -/
def Accounted (ids : KernelIds T) (ty : MutexType) (v : Word) (depth : T → ℕ) : Prop :=
  (v = pthreadMutexInit ty ∧ ∀ t, depth t = 0) ∨
    (v ≠ pthreadMutexInit ty ∧ ∃ h, HeldBy ids v depth h)

def Sys.depth (s : Sys T) (t : T) : ℕ := (s.thr t).depth

omit [DecidableEq T] in
theorem Accounted.heldBy {v : Word} {depth : T → ℕ} (acc : Accounted ids ty v depth)
    (own : ids.tid t = mutexOwner v) : HeldBy ids v depth t := by
  have held := acc.resolve_left fun free => ne_init_of_owner (ids.ne_zero t) own free.1
  obtain ⟨-, h, hh⟩ := held
  have e : ids.tid t = ids.tid h := by
    apply BitVec.eq_of_toNat_eq
    rw [← hh.owner]
    exact (owner_eq_iff _ _).mp own
  rw [ids.injective e]
  exact hh

omit [DecidableEq T] in
/-- A thread is a holder exactly when the word names it. -/
theorem Accounted.holder_iff {v : Word} {depth : T → ℕ} (acc : Accounted ids ty v depth) (t : T) :
    0 < depth t ↔ ids.tid t = mutexOwner v := by
  constructor
  · intro ht
    cases acc with
    | inl free => rw [free.2 t] at ht; contradiction
    | inr held =>
        obtain ⟨-, h, hh⟩ := held
        have : t = h := by
          by_contra hne
          rw [hh.others t hne] at ht
          contradiction
        rw [this, owner_eq_iff, hh.owner]
  · intro own
    exact (acc.heldBy own).pos

/-- A store of a critical section keeps the account. -/
theorem Accounted.store {v newv oldv : Word} {job : Job} {th : Thread} {depth depth' : T → ℕ}
    (acc : Accounted ids ty v depth) (range : (ids.tid t).toNat < 65536)
    (stored : Stored ty (ids.tid t) v job newv oldv) (self : depth t = th.depth)
    (self' : depth' t = (th.wrote oldv job).depth) (shallow : depth' t ≤ 4096)
    (off : ∀ u, u ≠ t → depth' u = depth u) : Accounted ids ty newv depth' := by
  have nonzero := ids.ne_zero t
  cases stored with
  | relock trying _ own f =>
      have hh := acc.heldBy own
      have e' : depth' t = depth t + 1 := by rw [self', self]; rfl
      have own' : ids.tid t = mutexOwner newv := by
        rw [owner_eq_iff] at own ⊢
        rw [f]
        exact own
      refine .inr ⟨ne_init_of_owner nonzero own', t, ?_, ?_, ?_, ?_⟩
      · omega
      · intro u hu
        rw [off u hu, hh.others u hu]
      · rw [f]; exact hh.owner
      · have := hh.counter
        rw [f, e']
        show ((fields v).counter + 1) % 4096 + 1 = depth t + 1
        omega
  | take _ k _ hv hk hj f =>
      have free := acc.resolve_right fun held => held.1 hv
      have e' : depth' t = depth t + 1 := by
        rw [self', self]
        cases hj with
        | inl hj => rw [hj]; simp [Thread.wrote]
        | inr hj => rw [hj.1]; simp [Thread.wrote]
      have state : (fields newv).state = 1 ∨ (fields newv).state = 2 := by
        rw [f]
        cases hk with
        | inl hk => rw [hk]; exact .inl rfl
        | inr hk => rw [hk]; exact .inr rfl
      refine .inr ⟨ne_init_of_state state, t, ?_, ?_, ?_, ?_⟩
      · omega
      · intro u hu
        rw [off u hu, free.2 u]
      · rw [f]
        show (ids.tid t).toNat % 65536 = _
        omega
      · rw [f, e', free.2 t]
  | promote k _ h1 f =>
      have hv : v ≠ pthreadMutexInit ty := ne_init_of_state (.inl h1)
      have hnew : newv ≠ pthreadMutexInit ty := ne_init_of_state (.inr (by rw [f]))
      obtain ⟨-, h, hh⟩ := acc.resolve_left fun free => hv free.1
      have e' : depth' = depth := by
        funext u
        by_cases hu : u = t
        · rw [hu, self', self]
          simp [Thread.wrote, hnew]
        · exact off u hu
      rw [e']
      exact .inr ⟨hnew, h, hh.pos, hh.others, by rw [f]; exact hh.owner, by rw [f]; exact hh.counter⟩
  | lower _ own hc f =>
      have hh := acc.heldBy own
      have e' : depth' t = depth t - 1 := by rw [self', self]; rfl
      have own' : ids.tid t = mutexOwner newv := by
        rw [owner_eq_iff] at own ⊢
        rw [f]
        exact own
      have hcount := hh.counter
      refine .inr ⟨ne_init_of_owner nonzero own', t, ?_, ?_, ?_, ?_⟩
      · omega
      · intro u hu
        rw [off u hu, hh.others u hu]
      · rw [f]; exact hh.owner
      · rw [f, e']
        show (fields v).counter - 1 + 1 = depth t - 1
        omega
  | free own hc =>
      have hh := acc.heldBy own
      have e' : depth' t = depth t - 1 := by rw [self', self]; rfl
      have hcount := hh.counter
      refine .inl ⟨rfl, fun u => ?_⟩
      by_cases hu : u = t
      · rw [hu]; omega
      · rw [off u hu, hh.others u hu]

omit [DecidableEq T] in
theorem accounted_start (ids : KernelIds T) (ty : MutexType) :
    Accounted ids ty (start T ty).mem.value (start T ty).depth :=
  .inl ⟨rfl, fun _ => rfl⟩

theorem depth_set_goto (s : Sys T) (t : T) (pc : Pc) :
    (s.set s.mem t ((s.thr t).goto pc)).depth = s.depth := by
  funext u
  unfold Sys.depth
  by_cases hu : u = t
  · subst hu; rw [set_thr_self, goto_depth]
  · rw [set_thr_of_ne _ _ _ hu]

/-- The wake-up calls, the calls and the returns of `__futex_wait` change neither the
word nor the depths. -/
theorem Step.depth_cases (h : Step ids client s t s') :
    (s'.mem = s.mem ∧ s'.depth = s.depth) ∨
      ∃ m th, Run (ids.tid t) s.mem (s.thr t) m th ∧ s' = s.set m t th := by
  cases h with
  | call op idle allowed => exact .inl ⟨rfl, depth_set_goto s t _⟩
  | exec m th h => exact .inr ⟨m, th, run_of_exec h, rfl⟩
  | spurious a h => exact .inl ⟨rfl, depth_set_goto s t _⟩
  | wakeNone a ht none => exact .inl ⟨rfl, depth_set_goto s t _⟩
  | wakeOne a u ht hu =>
      have hut := ne_of_wakes ht hu
      have second := depth_set_goto (s.set s.mem t ((s.thr t).goto (s.pc t).afterWake)) u
        (s.pc u).woken
      rw [set_mem, set_thr_of_ne _ _ _ hut, depth_set_goto] at second
      exact .inl ⟨rfl, second⟩

theorem Accounted.step (range : ∀ t, (ids.tid t).toNat ≤ 32768) (hi : RecursiveInv ids ty s)
    (acc : Accounted ids ty s.mem.value s.depth) (h : Step ids client s t s')
    (shallow : Shallow s') : Accounted ids ty s'.mem.value s'.depth := by
  cases h.depth_cases with
  | inl same => rw [same.1, same.2]; exact acc
  | inr run =>
      obtain ⟨m, th, run, rfl⟩ := run
      have self : (s.set m t th).depth t = th.depth := by simp [Sys.depth]
      have off : ∀ u, u ≠ t → (s.set m t th).depth u = s.depth u := by
        intro u hu
        simp only [Sys.depth, set_thr_of_ne _ _ _ hu]
      cases run.value_cases (hi.pcs t) with
      | inl same =>
          have e : (s.set m t th).depth = s.depth := by
            funext u
            by_cases hu : u = t
            · rw [hu, self, same.2]; rfl
            · exact off u hu
          rw [e, set_mem, same.1]
          exact acc
      | inr store =>
          obtain ⟨job, newv, oldv, -, stored, e, rfl⟩ := store
          rw [set_mem, e]
          have hlt : (ids.tid t).toNat < 65536 := Nat.lt_of_le_of_lt (range t) (by decide)
          exact acc.store hlt stored rfl self (shallow t) off

/-! ### Runs -/

/-- What holds along a run with small ids and shallow nesting. -/
structure HolderInv (ids : KernelIds T) (ty : MutexType) (s : Sys T) : Prop
    extends RecursiveInv ids ty s where
  account : Accounted ids ty s.mem.value s.depth
  counted : ∀ t, (s.thr t).Counted

omit [DecidableEq T] in
theorem HolderInv.holder_iff (hi : HolderInv ids ty s) (t : T) :
    s.Holder t ↔ ids.tid t = mutexOwner s.mem.value :=
  hi.account.holder_iff t

omit [DecidableEq T] in
theorem HolderInv.gives (hi : HolderInv ids ty s) (h : (s.pc t).gives = true) :
    0 < (s.thr t).depth := by
  apply (hi.holder_iff t).mpr
  exact (hi.pcs t).owner_of_gives h

theorem HolderInv.reach (hty : ty ≠ .normal) (range : ∀ t, (ids.tid t).toNat ≤ 32768)
    (h : Reach ids client Shallow ty s) : HolderInv ids ty s := by
  induction h with
  | start =>
      refine ⟨recursiveInv_start ids ty, accounted_start ids ty, fun t => ?_⟩
      simp [start, Thread.Counted, Pc.owed]
  | step _ step shallow ih =>
      exact ⟨ih.toRecursiveInv.step hty step, ih.account.step range ih.toRecursiveInv step shallow,
        counted_step ih.counted step ih.gives⟩

/-- No step of another thread touches the owner or the counter of a held mutex. -/
theorem HolderInv.keeps (hi : HolderInv ids ty s) (h : Step ids client s t s')
    (hn : ¬ s.Holder t) (held : ∃ u, s.Holder u) :
    mutexOwner s'.mem.value = mutexOwner s.mem.value ∧
      mutexCounter s'.mem.value = mutexCounter s.mem.value := by
  rw [hi.holder_iff t] at hn
  cases h.depth_cases with
  | inl same => rw [same.1]; exact ⟨rfl, rfl⟩
  | inr run =>
      obtain ⟨m, th, run, rfl⟩ := run
      rw [set_mem]
      cases run.value_cases (hi.pcs t) with
      | inl same => rw [same.1]; exact ⟨rfl, rfl⟩
      | inr store =>
          obtain ⟨job, newv, oldv, -, stored, e, -⟩ := store
          rw [e]
          cases stored with
          | relock trying _ own f => exact absurd own hn
          | lower _ own hc f => exact absurd own hn
          | free own hc => exact absurd own hn
          | take _ k _ hv hk hj f =>
              obtain ⟨u, hu⟩ := held
              exact absurd hv (ne_init_of_owner (ids.ne_zero u) ((hi.holder_iff u).mp hu))
          | promote k _ h1 f =>
              simp only [fields, Fields.mk.injEq] at f
              constructor
              · rw [← BitVec.toNat_inj, toNat_mutexOwner, toNat_mutexOwner, f.1]
              · rw [← BitVec.toNat_inj, toNat_mutexCounter, toNat_mutexCounter, f.2.2.1]

/-! ### Calls that are refused -/

/-- Steps of threads other than `t`. -/
def Others (ids : KernelIds T) (client : Client T) (ok : Sys T → Prop) (t : T) :
    Sys T → Sys T → Prop :=
  Relation.ReflTransGen fun s s' => ∃ u, u ≠ t ∧ Step ids client s u s' ∧ ok s'

/-- `t` comes to the `return ret` of its call of `op` in `n` steps of its own, whatever
the other threads do before, between and after them, and none of these steps changes
`mutex->value`. -/
def Returns (ids : KernelIds T) (client : Client T) (ok : Sys T → Prop) (t : T) (op : Op)
    (ret : Ret) : ℕ → Sys T → Prop
  | 0, s => ∀ s₁, Others ids client ok t s s₁ → s₁.pc t = .done op ret
  | n + 1, s => ∀ s₁, Others ids client ok t s s₁ →
      (∃ s₂, Step ids client s₁ t s₂) ∧
        ∀ s₂, Step ids client s₁ t s₂ →
          s₂.mem.value = s₁.mem.value ∧ Returns ids client ok t op ret n s₂

/-- A step of another thread leaves a thread that does not sleep where it is. -/
theorem Step.thr_of_ne {u : T} (h : Step ids client s u s') (hne : t ≠ u)
    (awake : (s.pc t).sleepsOn = none) : s'.thr t = s.thr t := by
  cases h with
  | call op idle allowed => exact set_thr_of_ne _ _ _ hne
  | exec m th h => exact set_thr_of_ne _ _ _ hne
  | spurious a h => exact set_thr_of_ne _ _ _ hne
  | wakeNone a ht none => exact set_thr_of_ne _ _ _ hne
  | wakeOne a v ht hv =>
      have htv : t ≠ v := by
        intro e
        rw [e, hv] at awake
        contradiction
      rw [set_thr_of_ne _ _ _ htv, set_thr_of_ne _ _ _ hne]

theorem Others.frame {ok : Sys T → Prop} {s₁ : Sys T} (h : Others ids client ok t s s₁)
    (reach : Reach ids client ok ty s) (awake : (s.pc t).sleepsOn = none) :
    Reach ids client ok ty s₁ ∧ s₁.thr t = s.thr t := by
  induction h with
  | refl => exact ⟨reach, rfl⟩
  | tail _ step ih =>
      obtain ⟨u, hu, step, ok⟩ := step
      refine ⟨ih.1.step step ok, ?_⟩
      have awake' := awake
      unfold Sys.pc at awake'
      rw [← ih.2] at awake'
      rw [step.thr_of_ne hu.symm awake', ih.2]

/-- A thread that runs has one step: that of `exec`. -/
theorem Step.eq_of_exec {m : Mem} {th : Thread}
    (e : Mutex.exec (ids.tid t) s.mem (s.thr t) = some (m, th)) (h : Step ids client s t s') :
    s' = s.set m t th := by
  cases h with
  | exec m' th' h =>
      rw [e] at h
      simp only [Option.some.injEq, Prod.mk.injEq] at h
      rw [h.1, h.2]
  | call op idle allowed =>
      unfold Sys.pc at idle
      simp [Mutex.exec, idle] at e
  | spurious a h => rw [exec_of_sleepsOn h] at e; contradiction
  | wakeOne a u ht hu => rw [exec_of_wakes ht] at e; contradiction
  | wakeNone a ht none => rw [exec_of_wakes ht] at e; contradiction

theorem Shallow.goto (h : Shallow s) (pc : Pc) : Shallow (s.set s.mem t ((s.thr t).goto pc)) := by
  intro u
  have e := congrFun (depth_set_goto s t pc) u
  unfold Sys.depth at e
  rw [e]
  exact h u

theorem Reach.shallow (h : Reach ids client Shallow ty s) : Shallow s := by
  cases h with
  | start => exact fun _ => Nat.zero_le _
  | step _ _ shallow => exact shallow

/-- Before its next step `t` only has to be where it is. -/
theorem returns_succ {op : Op} {ret : Ret} {n : ℕ} (reach : Reach ids client Shallow ty s)
    (awake : (s.pc t).sleepsOn = none)
    (next : ∀ s₁, Reach ids client Shallow ty s₁ → s₁.thr t = s.thr t →
      ∃ pc, exec (ids.tid t) s₁.mem (s₁.thr t) = some (s₁.mem, (s₁.thr t).goto pc) ∧
        Returns ids client Shallow t op ret n (s₁.set s₁.mem t ((s₁.thr t).goto pc))) :
    Returns ids client Shallow t op ret (n + 1) s := by
  intro s₁ others
  obtain ⟨reach₁, same⟩ := others.frame reach awake
  obtain ⟨pc, e, rest⟩ := next s₁ reach₁ same
  refine ⟨⟨_, .exec _ _ e⟩, ?_⟩
  intro s₂ step
  rw [step.eq_of_exec e]
  exact ⟨rfl, rest⟩

/-- A call whose look at the owner ends it, at any time, returns after two steps. -/
theorem returns_of_refused {op : Op} {ret : Ret} (hty : ty ≠ .normal)
    (reach : Reach ids client Shallow ty s) (idle : s.pc t = .idle) (allowed : client s t op)
    (refused : ∀ s₁, Reach ids client Shallow ty s₁ → s₁.depth t = s.depth t →
      afterOwner (pthreadMutexInit ty) (ids.tid t == mutexOwner s₁.mem.value) op = .done op ret) :
    Returns ids client Shallow t op ret 2 (s.call t op) := by
  have called : (s.call t op).thr t = (s.thr t).goto (.typeOf op) := set_thr_self _ _ _ _
  have reach₀ := reach.step (.call op idle allowed) (reach.shallow.goto (.typeOf op))
  apply returns_succ reach₀ (by rw [Sys.pc, called]; rfl)
  intro s₁ reach₁ same₁
  rw [called] at same₁
  have word := (RecursiveInv.reach hty reach₁).word
  have e₁ : exec (ids.tid t) s₁.mem (s₁.thr t) =
      some (s₁.mem, (s₁.thr t).goto (.owner op (pthreadMutexInit ty))) := by
    rw [← afterType_of_ne hty word op]
    simp [exec, same₁]
  refine ⟨_, e₁, ?_⟩
  have reach₁' := reach₁.step (.exec _ _ e₁) (reach₁.shallow.goto _)
  apply returns_succ reach₁' (by rw [set_pc_self]; rfl)
  intro s₂ reach₂ same₂
  rw [set_thr_self, same₁] at same₂
  have e₂ : exec (ids.tid t) s₂.mem (s₂.thr t) = some (s₂.mem, (s₂.thr t).goto (.done op ret)) := by
    have depth : s₂.depth t = s.depth t := by unfold Sys.depth; rw [same₂]; rfl
    rw [← refused s₂ reach₂ depth]
    simp [exec, same₂]
  refine ⟨_, e₂, ?_⟩
  intro s₃ others
  have reach₂' := reach₂.step (.exec _ _ e₂) (reach₂.shallow.goto _)
  rw [Sys.pc, (others.frame reach₂' (by rw [set_pc_self]; rfl)).2, set_thr_self, goto_pc]

/-! ### The three functions on such a mutex -/

/-- Along every run of a recursive or an errorcheck mutex, whoever calls what, with
kernel ids in 1..32768 and no thread nested deeper than 4096: there is one holder at
most; outside the functions a thread is a holder exactly when more of its locks than
of its unlocks have returned `0`; the unlock of a thread that is not the holder
returns `EPERM`; the lock or trylock of an errorcheck mutex by its holder returns
`EDEADLK`, both without a change of `mutex->value`; and while the mutex is held no
step of another thread changes its owner or its counter. -/
theorem recursive_mutex_holder (hty : ty ≠ .normal) (range : ∀ t, (ids.tid t).toNat ≤ 32768)
    (h : Reach ids anyCall Shallow ty s) :
    (∀ t u, s.Holder t → s.Holder u → t = u) ∧
      (∀ t, s.pc t = .idle → (s.Holder t ↔ (s.thr t).unlocks < (s.thr t).locks)) ∧
      (∀ t, s.pc t = .idle → ¬ s.Holder t →
        Returns ids anyCall Shallow t .unlock .EPERM 2 (s.call t .unlock)) ∧
      (∀ t op, ty = .errorcheck → s.pc t = .idle → s.Holder t → op ≠ .unlock →
        Returns ids anyCall Shallow t op .EDEADLK 2 (s.call t op)) ∧
      ∀ t s', Step ids anyCall s t s' → ¬ s.Holder t → (∃ u, s.Holder u) →
        mutexOwner s'.mem.value = mutexOwner s.mem.value ∧
          mutexCounter s'.mem.value = mutexCounter s.mem.value := by
  have hi := HolderInv.reach hty range h
  refine ⟨?_, ?_, ?_, ?_, ?_⟩
  · intro t u ht hu
    rw [hi.holder_iff] at ht hu
    exact ids.injective (ht.trans hu.symm)
  · exact fun t idle => (hi.counted t).holder_iff idle
  · intro t idle hn
    apply returns_of_refused hty h idle trivial
    intro s₁ reach₁ depth
    have hi₁ := HolderInv.reach hty range reach₁
    have foreign : ids.tid t ≠ mutexOwner s₁.mem.value := by
      intro own
      have ht : 0 < s₁.depth t := (hi₁.holder_iff t).mpr own
      rw [depth] at ht
      exact hn ht
    simp [afterOwner, foreign]
  · intro t op herr idle ht hop
    apply returns_of_refused hty h idle trivial
    intro s₁ reach₁ depth
    have hi₁ := HolderInv.reach hty range reach₁
    have own : ids.tid t = mutexOwner s₁.mem.value := by
      apply (hi₁.holder_iff t).mp
      show 0 < s₁.depth t
      rw [depth]
      exact ht
    subst herr
    cases op with
    | lock => rw [own]; simp [afterOwner, pthreadMutexInit]
    | trylock => rw [own]; simp [afterOwner, pthreadMutexInit]
    | unlock => contradiction
  · exact fun t s' step hn held => hi.keeps step hn held

/-- Thread 0 has locked an errorcheck mutex. -/
def errorcheckHeld : Sys (Fin 2) :=
  schedule twoThreads ((start (Fin 2) .errorcheck).call 0 .lock) [0, 0, 0, 0, 0, 0, 0]

theorem recursive_mutex_holder_errorcheck :
    (errorcheckHeld.Holder 0 ∧ ¬ errorcheckHeld.Holder 1) ∧
      Returns twoThreads anyCall Shallow 0 .lock .EDEADLK 2 (errorcheckHeld.call 0 .lock) ∧
      Returns twoThreads anyCall Shallow 1 .unlock .EPERM 2 (errorcheckHeld.call 1 .unlock) := by
  have reach : Reach twoThreads anyCall Shallow .errorcheck errorcheckHeld := by
    refine Reach.schedule ?_ _ (by decide)
    exact Reach.start.step (.call .lock (by decide) trivial) (by decide)
  have held := recursive_mutex_holder (by decide) (by decide) reach
  exact ⟨by decide, held.2.2.2.1 0 .lock rfl (by decide) (by decide) (by decide),
    held.2.2.1 1 (by decide) (by decide)⟩

end Bionic.Mutex
