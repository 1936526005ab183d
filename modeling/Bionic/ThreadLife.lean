import Bionic.Threads

/-! # The life of one descriptor

What the threads do to one descriptor, seen from that descriptor: its fields, whether it is listed, where its
own thread stands (`Phase`), and where each other thread stands in a `pthread_join` on it (`Joiner`).
`Life.Step` is the list of everything that can happen to it; `life_step` says that each step of the system is one of
these for each descriptor, or nothing.  The lock does not show here. -/

namespace Bionic.Threads

variable {T : Type}

/-- Where the thread of the descriptor stands. -/
inductive Phase
  | fresh
  | starting
  /-- In the functions of the program, or in a call other than `pthread_exit`. -/
  | live
  | test
  | remove
  | free
  | lock
  | broadcast
  | wake
  | unlock
  | leave
  | gone
deriving DecidableEq, Repr

/-- Where a thread stands in a `pthread_join` on the descriptor. -/
inductive Joiner
  | out
  | wait (oldvalue : Word)
  | asleep
  | lock
  | done (value : Word)
deriving DecidableEq, Repr

/-- The thread is counted in `join_count`. -/
def Joiner.counted : Joiner → Bool
  | .wait _ => true
  | .asleep => true
  | .lock => true
  | _ => false

@[ext] structure Life (T : Type) where
  desc : Desc
  listed : Prop
  phase : Phase
  joiner : T → Joiner
  stored : Option Word
  removed : ℕ
  freed : ℕ
  joins : ℕ
  unmapped : Bool

/-- The steps that the conditions on runs are about. -/
inductive Kind
  /-- A thread begins to wait in `pthread_join`. -/
  | wait
  /-- A `pthread_detach` sets the flag. -/
  | detach
  /-- A sleep in `pthread_join` ends by itself. -/
  | spurious
  /-- The last joiner frees the descriptor. -/
  | last
  | other
deriving DecidableEq, Repr

namespace Life

variable [DecidableEq T] (l : Life T)

def setJoiner (t : T) (j : Joiner) : Life T := { l with joiner := Function.update l.joiner t j }

def setDesc (d : Desc) : Life T := { l with desc := d }

def setPhase (p : Phase) : Life T := { l with phase := p }

def unlinked : Life T := { l with listed := False, removed := l.removed + 1 }

def internalFree : Life T := { l with desc := { l.desc with intern := false }, freed := l.freed + 1 }

/-- What can happen to a descriptor. -/
inductive Step (l : Life T) : Kind → Life T → Prop
  | create (detached userStack : Bool) (h : l.phase = .fresh) :
      Step l .other { (l.setDesc (initThread detached userStack)).setPhase .starting with listed := True }
  | initTls (h : l.phase = .starting) :
      Step l .other ((l.setDesc { l.desc with tls := true }).setPhase .live)
  | exit (h : l.phase = .live) : Step l .other (l.setPhase .test)
  | testDetached (h : l.phase = .test) (detached : l.desc.detached = true) :
      Step l .other (l.setPhase .remove)
  | testJoinable (h : l.phase = .test) (joinable : l.desc.detached = false) :
      Step l .other (l.setPhase .lock)
  | remove (h : l.phase = .remove) (listed : l.listed) :
      Step l .other (l.unlinked.setPhase .free)
  /-- The removal finds the descriptor removed already. -/
  | removeTwice (h : l.phase = .remove) (unlisted : ¬ l.listed) : Step l .other l.unlinked
  | free (h : l.phase = .free) : Step l .other (l.internalFree.setPhase .leave)
  | storeWaited (retval : Word) (h : l.phase = .lock) (waited : 0 < l.desc.joinCount) :
      Step l .other { (l.setDesc { l.desc with returnValue := retval }).setPhase .broadcast with
        stored := some retval }
  | storeZombie (retval : Word) (h : l.phase = .lock) (alone : ¬ 0 < l.desc.joinCount) :
      Step l .other { (l.setDesc { l.desc with returnValue := retval, joinCount := -1 }).setPhase .unlock with
        stored := some retval }
  | broadcast (h : l.phase = .broadcast) :
      Step l .other ((l.setDesc { l.desc with joinCond := l.desc.joinCond - 1 }).setPhase .wake)
  | wake (h : l.phase = .wake) :
      Step l .other { l.setPhase .unlock with
        joiner := fun t => if l.joiner t = .asleep then .lock else l.joiner t }
  | unlock (h : l.phase = .unlock) : Step l .other (l.setPhase .leave)
  | leave (h : l.phase = .leave) :
      Step l .other { l.setPhase .gone with unmapped := !l.desc.userStack }
  | detach (listed : l.listed) (joinable : l.desc.detached = false) :
      Step l .detach (l.setDesc { l.desc with detached := true })
  | wait (t : T) (h : l.joiner t = .out) (listed : l.listed) (joinable : l.desc.detached = false)
      (count : 0 ≤ l.desc.joinCount) :
      Step l .wait ((l.setDesc { l.desc with joinCount := l.desc.joinCount + 1 }).setJoiner t
        (.wait l.desc.joinCond))
  /-- `pthread_join` on a zombie. -/
  | zombie (t : T) (h : l.joiner t = .out) (listed : l.listed) (joinable : l.desc.detached = false)
      (count : l.desc.joinCount < 0) :
      Step l .other (l.unlinked.internalFree.setJoiner t (.done l.desc.returnValue))
  | sleep (t : T) (h : l.joiner t = .wait l.desc.joinCond) : Step l .other (l.setJoiner t .asleep)
  | again (t : T) (oldvalue : Word) (h : l.joiner t = .wait oldvalue) (moved : l.desc.joinCond ≠ oldvalue) :
      Step l .other (l.setJoiner t .lock)
  | spurious (t : T) (h : l.joiner t = .asleep) : Step l .spurious (l.setJoiner t .lock)
  | last (t : T) (h : l.joiner t = .lock) (count : l.desc.joinCount - 1 ≤ 0) (listed : l.listed) :
      Step l .last ((l.setDesc { l.desc with joinCount := l.desc.joinCount - 1 }).unlinked.internalFree.setJoiner
        t (.done l.desc.returnValue))
  /-- The last joiner finds the descriptor removed already. -/
  | lastTwice (t : T) (h : l.joiner t = .lock) (count : l.desc.joinCount - 1 ≤ 0)
      (unlisted : ¬ l.listed) : Step l .other l.unlinked
  | more (t : T) (h : l.joiner t = .lock) (count : ¬ l.desc.joinCount - 1 ≤ 0) :
      Step l .other ((l.setDesc { l.desc with joinCount := l.desc.joinCount - 1 }).setJoiner t
        (.done l.desc.returnValue))
  | returns (t : T) (value : Word) (h : l.joiner t = .done value) :
      Step l .other { l.setJoiner t .out with joins := l.joins + 1 }

end Life

/-! ### The lives in a system -/

def Pc.phase : Pc T → Phase
  | .fresh => .fresh
  | .starting => .starting
  | .exitTest _ => .test
  | .exitRemove => .remove
  | .exitFree => .free
  | .exitLock _ => .lock
  | .exitBroadcast => .broadcast
  | .exitWake => .wake
  | .exitUnlock => .unlock
  | .exitLeave => .leave
  | .gone => .gone
  | _ => .live

variable [DecidableEq T]

def Pc.joiner (u : T) : Pc T → Joiner
  | .joinWait v oldvalue => if v = u then .wait oldvalue else .out
  | .joinAsleep v => if v = u then .asleep else .out
  | .joinLock v => if v = u then .lock else .out
  | .joined v value => if v = u then .done value else .out
  | _ => .out

/-- The life of the descriptor `u`. -/
def life (s : Sys T) (u : T) : Life T where
  desc := s.desc u
  listed := u ∈ s.list
  phase := (s.pc u).phase
  joiner := fun t => (s.pc t).joiner u
  stored := s.stored u
  removed := s.removed u
  freed := s.freed u
  joins := s.joins u
  unmapped := s.unmapped u

/-! ### Updates of the system, seen from one descriptor -/

section

variable (s : Sys T) {t u v : T} {pc : Pc T}

@[simp] theorem goto_pc_self : (s.goto t pc).pc t = pc := by
  simp [Sys.goto]

theorem goto_pc_of_ne (h : u ≠ t) : (s.goto t pc).pc u = s.pc u := by
  simp [Sys.goto, h]

/-- A thread moves, and its place in `pthread_exit` is the same. -/
theorem life_goto (phase : pc.phase = (s.pc t).phase) (u : T) :
    life (s.goto t pc) u = (life s u).setJoiner t (pc.joiner u) := by
  ext r <;> try rfl
  · show ((s.goto t pc).pc u).phase = (s.pc u).phase
    by_cases h : u = t
    · rw [h, goto_pc_self, phase]
    · rw [goto_pc_of_ne s h]
  · show ((s.goto t pc).pc r).joiner u = Function.update (life s u).joiner t (pc.joiner u) r
    by_cases h : r = t
    · rw [h, goto_pc_self, Function.update_self]
    · rw [goto_pc_of_ne s h, Function.update_of_ne h]
      rfl

/-- A thread moves outside `pthread_join`. -/
theorem life_goto_exit (out : (s.pc t).joiner u = .out) (out' : pc.joiner u = .out) :
    life (s.goto t pc) u = (life s u).setPhase (if u = t then pc.phase else (s.pc u).phase) := by
  ext r <;> try rfl
  · show ((s.goto t pc).pc u).phase = if u = t then pc.phase else (s.pc u).phase
    by_cases h : u = t
    · rw [h, goto_pc_self, if_pos rfl]
    · rw [goto_pc_of_ne s h, if_neg h]
  · show ((s.goto t pc).pc r).joiner u = (s.pc r).joiner u
    by_cases h : r = t
    · rw [h, goto_pc_self, out, out']
    · rw [goto_pc_of_ne s h]

theorem setJoiner_self {j : Joiner} (h : (s.pc t).joiner u = j) : (life s u).setJoiner t j = life s u := by
  subst h
  ext r <;> try rfl
  show Function.update (life s u).joiner t ((life s u).joiner t) r = (life s u).joiner r
  rw [Function.update_eq_self]

theorem life_setDesc_self (d : Desc) : life (s.setDesc u d) u = (life s u).setDesc d := by
  simp only [life, Sys.setDesc, Life.setDesc, Function.update_self]

theorem life_setDesc_of_ne (d : Desc) (h : v ≠ u) : life (s.setDesc u d) v = life s v := by
  simp only [life, Sys.setDesc, Function.update_of_ne h]

theorem life_internalFree_self : life (s.internalFree u) u = (life s u).internalFree := by
  simp only [life, Sys.internalFree, Life.internalFree, Function.update_self]

theorem life_internalFree_of_ne (h : v ≠ u) : life (s.internalFree u) v = life s v := by
  simp only [life, Sys.internalFree, Function.update_of_ne h]

theorem mem_of_removeLocked {list list' : List T} (h : removeLocked list u = some list') : u ∈ list := by
  unfold removeLocked at h
  split at h
  next hu => exact hu.1
  next => cases h

theorem mem_removeLocked {list list' : List T} (h : removeLocked list u = some list') :
    v ∈ list' ↔ v ∈ list ∧ v ≠ u := by
  unfold removeLocked at h
  split at h
  next =>
    cases h
    simp
  next => cases h

theorem life_unlinked_self {list : List T} (h : removeLocked s.list u = some list) :
    life (s.unlinked u list) u = (life s u).unlinked := by
  have out : (u ∈ list) = False := by simp [mem_removeLocked h]
  simp only [life, Sys.unlinked, Life.unlinked, Function.update_self, out]

theorem life_unlinked_of_ne {list : List T} (h : removeLocked s.list u = some list) (hv : v ≠ u) :
    life (s.unlinked u list) v = life s v := by
  have same : (v ∈ list) = (v ∈ s.list) := by simp [mem_removeLocked h, hv]
  simp only [life, Sys.unlinked, Function.update_of_ne hv, same]

theorem life_crash (h : u ∈ s.list) (v : T) : life (s.crash u) v = life s v := by
  simp only [life, Sys.crash, if_pos h]

theorem life_crash_self (h : u ∉ s.list) : life (s.crash u) u = (life s u).unlinked := by
  have out : (u ∈ s.list) = False := by simp [h]
  simp only [life, Sys.crash, Life.unlinked, Function.update_self, out, if_false]

theorem life_crash_of_ne (hv : v ≠ u) : life (s.crash u) v = life s v := by
  by_cases h : u ∈ s.list
  · exact life_crash s h v
  · simp only [life, Sys.crash, if_neg h, Function.update_of_ne hv]

end

/-! ### Each step of the system is a step of a life -/

/-- The action a step of a life comes from. -/
def Labels (s : Sys T) (a : Act T) (u : T) : Kind → Prop
  | .wait => ∃ t, a = .join t u
  | .detach => ∃ t, a = .detach t u
  | .spurious => ∃ t, a = .spurious t ∧ s.pc t = .joinAsleep u
  | .last => ∃ t, a = .exec t ∧ s.pc t = .joinLock u
  | .other => True

/-- What the action `a` does to the descriptor `u`. -/
inductive LifeStep (s : Sys T) (a : Act T) (s' : Sys T) (u : T) : Prop
  | same (h : life s' u = life s u)
  | step (k : Kind) (h : (life s u).Step k (life s' u)) (label : Labels s a u k)

variable {s s' : Sys T} {a : Act T} {t u : T}

/-- The thread `t` makes a step of its own life, and nothing else happens. -/
theorem lifeStep_own {pc : Pc T} {s₁ : Sys T} (pcs : s₁.pc = s.pc) (out : ∀ v, (s.pc t).joiner v = .out)
    (out' : ∀ v, pc.joiner v = .out) (others : ∀ v, v ≠ t → life s₁ v = life s v)
    (own : (life s t).Step .other ((life s₁ t).setPhase pc.phase)) (v : T) :
    LifeStep s a (s₁.goto t pc) v := by
  have out₁ : (s₁.pc t).joiner v = .out := by
    rw [pcs]
    exact out v
  have e := life_goto_exit s₁ out₁ (out' v)
  by_cases h : v = t
  · subst h
    rw [if_pos rfl] at e
    exact .step .other (e ▸ own) trivial
  · rw [if_neg h] at e
    exact .same (e.trans (others v h))

/-- The thread `t` makes a step in a `pthread_join` on `u`. -/
theorem lifeStep_join {pc : Pc T} {s₁ : Sys T} {k : Kind} (pcs : s₁.pc = s.pc)
    (phase : pc.phase = (s.pc t).phase)
    (others : ∀ v, v ≠ u → life s₁ v = life s v ∧ pc.joiner v = (s.pc t).joiner v)
    (own : (life s u).Step k ((life s₁ u).setJoiner t (pc.joiner u))) (label : Labels s a u k) (v : T) :
    LifeStep s a (s₁.goto t pc) v := by
  have phase₁ : pc.phase = (s₁.pc t).phase := by
    rw [pcs]
    exact phase
  have e := life_goto s₁ phase₁ v
  by_cases h : v = u
  · subst h
    exact .step k (e ▸ own) label
  · obtain ⟨same, out⟩ := others v h
    rw [out, same, setJoiner_self s rfl] at e
    exact .same e

/-- The thread `t` moves, and nobody sees it. -/
theorem lifeStep_quiet {pc : Pc T} {s₁ : Sys T} (pcs : s₁.pc = s.pc) (phase : pc.phase = (s.pc t).phase)
    (others : ∀ v, life s₁ v = life s v) (out : ∀ v, pc.joiner v = (s.pc t).joiner v) (v : T) :
    LifeStep s a (s₁.goto t pc) v := by
  have phase₁ : pc.phase = (s₁.pc t).phase := by
    rw [pcs]
    exact phase
  have e := life_goto s₁ phase₁ v
  rw [out, others, setJoiner_self s rfl] at e
  exact .same e

/-- The removal of `u` faults. -/
theorem lifeStep_crash (h : u ∉ s.list → (life s u).Step .other (life s u).unlinked) (v : T) :
    LifeStep s a (s.crash u) v := by
  by_cases hu : u ∈ s.list
  · exact .same (life_crash s hu v)
  · by_cases hv : v = u
    · subst hv
      refine .step .other ?_ trivial
      rw [life_crash_self s hu]
      exact h hu
    · exact .same (life_crash_of_ne s hv)

theorem joiner_other {v : T} (hv : v ≠ u) :
    (∀ w, Pc.joiner v (.joinWait u w) = .out) ∧ Pc.joiner v (.joinAsleep u) = .out ∧
      Pc.joiner v (.joinLock u) = .out ∧ ∀ w, Pc.joiner v (.joined u w) = .out := by
  simp [Pc.joiner, Ne.symm hv]

/-- The end of `pthread_join`. -/
theorem lifeStep_joinEnd {count : ℤ} {k : Kind} (live : (s.pc t).phase = .live)
    (out : ∀ v, v ≠ u → (s.pc t).joiner v = .out) (label : Labels s a u k)
    (last : count ≤ 0 → (life s u).listed → (life s u).Step k
      (((life s u).setDesc { s.desc u with joinCount := count }).unlinked.internalFree.setJoiner t
        (.done (s.desc u).returnValue)))
    (twice : count ≤ 0 → ¬ (life s u).listed → (life s u).Step .other (life s u).unlinked)
    (more : ¬ count ≤ 0 → (life s u).Step .other
      (((life s u).setDesc { s.desc u with joinCount := count }).setJoiner t
        (.done (s.desc u).returnValue))) (v : T) :
    LifeStep s a (s.joinEnd t u count) v := by
  have self : Pc.joiner u (.joined u (s.desc u).returnValue) = .done (s.desc u).returnValue := by
    simp [Pc.joiner]
  unfold Sys.joinEnd
  dsimp only
  split
  next le =>
    split
    next list removed =>
      refine lifeStep_join (u := u) (by rfl) ?_ ?_ ?_ label v
      · rw [live]; rfl
      · intro w hw
        rw [life_internalFree_of_ne _ hw, life_unlinked_of_ne (s.setDesc u _) removed hw,
          life_setDesc_of_ne s _ hw, out w hw, (joiner_other hw).2.2.2]
        exact ⟨rfl, rfl⟩
      · rw [life_internalFree_self, life_unlinked_self (s.setDesc u _) removed, life_setDesc_self, self]
        exact last le (mem_of_removeLocked removed)
    next => exact lifeStep_crash (twice le) v
  next gt =>
    refine lifeStep_join (k := .other) (u := u) (by rfl) ?_ ?_ ?_ trivial v
    · rw [live]; rfl
    · intro w hw
      rw [life_setDesc_of_ne s _ hw, out w hw, (joiner_other hw).2.2.2]
      exact ⟨rfl, rfl⟩
    · rw [life_setDesc_self, self]
      exact more gt

/-- The section of `pthread_exit` under the lock. -/
theorem lifeStep_exitStore {retval : Word} (pc : s.pc t = .exitLock retval) (v : T) :
    LifeStep s a (s.exitStore t retval) v := by
  have stored (d : Desc) : life (({ s with
      lock := some t
      stored := Function.update s.stored t (some retval) } : Sys T).setDesc t d) t =
        { (life s t).setDesc d with stored := some retval } := by
    rw [life_setDesc_self]
    simp only [life, Life.setDesc, Function.update_self]
  have others (d : Desc) (w : T) (hw : w ≠ t) : life (({ s with
      lock := some t
      stored := Function.update s.stored t (some retval) } : Sys T).setDesc t d) w = life s w := by
    rw [life_setDesc_of_ne _ _ hw]
    simp only [life, Function.update_of_ne hw]
  unfold Sys.exitStore
  dsimp only
  split
  next waited =>
    refine lifeStep_own (by rfl) (by simp [pc, Pc.joiner]) (by simp [Pc.joiner]) (others _) ?_ v
    rw [stored]
    exact .storeWaited retval (by simp only [life, pc]; rfl) waited
  next alone =>
    refine lifeStep_own (by rfl) (by simp [pc, Pc.joiner]) (by simp [Pc.joiner]) (others _) ?_ v
    rw [stored]
    exact .storeZombie retval (by simp only [life, pc]; rfl) alone

theorem joiner_eq_asleep {pc : Pc T} : pc.joiner u = .asleep ↔ pc = .joinAsleep u := by
  cases pc with
  | joinWait v w => simp only [Pc.joiner]; split <;> simp
  | joinAsleep v => simp [Pc.joiner]
  | joinLock v => simp only [Pc.joiner]; split <;> simp
  | joined v w => simp only [Pc.joiner]; split <;> simp
  | _ => simp [Pc.joiner]

theorem wakeJoiners_phase (s : Sys T) (t r : T) : ((s.wakeJoiners t).pc r).phase = (s.pc r).phase := by
  show (if s.pc r = .joinAsleep t then Pc.joinLock t else s.pc r).phase = (s.pc r).phase
  split
  next h => rw [h]; rfl
  next => rfl

theorem wakeJoiners_joiner (s : Sys T) (t r : T) : ((s.wakeJoiners t).pc r).joiner t =
    if (s.pc r).joiner t = .asleep then .lock else (s.pc r).joiner t := by
  show (if s.pc r = .joinAsleep t then Pc.joinLock t else s.pc r).joiner t = _
  by_cases h : s.pc r = .joinAsleep t
  · rw [if_pos h, if_pos (joiner_eq_asleep.2 h)]
    simp [Pc.joiner]
  · rw [if_neg h, if_neg fun e => h (joiner_eq_asleep.1 e)]

theorem wakeJoiners_joiner_of_ne (s : Sys T) {t v : T} (hv : v ≠ t) (r : T) :
    ((s.wakeJoiners t).pc r).joiner v = (s.pc r).joiner v := by
  show (if s.pc r = .joinAsleep t then Pc.joinLock t else s.pc r).joiner v = _
  split
  next h => rw [h, (joiner_other hv).2.1, (joiner_other hv).2.2.1]
  next => rfl

/-- The wake-up call of `pthread_exit`. -/
theorem lifeStep_wake (pc : s.pc t = .exitWake) (v : T) :
    LifeStep s a ((s.wakeJoiners t).goto t .exitUnlock) v := by
  have out : ((s.wakeJoiners t).pc t).joiner v = .out := by
    by_cases hv : v = t
    · rw [hv, wakeJoiners_joiner, pc]
      rfl
    · rw [wakeJoiners_joiner_of_ne s hv, pc]
      rfl
  have out' : (Pc.exitUnlock : Pc T).joiner v = .out := rfl
  have e := life_goto_exit (s.wakeJoiners t) out out'
  by_cases hv : v = t
  · subst hv
    refine .step .other ?_ trivial
    rw [e, if_pos rfl]
    have woken : (life (s.wakeJoiners v) v).setPhase (Pc.phase (T := T) .exitUnlock) = { (life s v).setPhase .unlock with
        joiner := fun r => if (life s v).joiner r = .asleep then .lock else (life s v).joiner r } := by
      ext r <;> try rfl
      exact wakeJoiners_joiner s v r
    rw [woken]
    exact .wake (by simp only [life, pc]; rfl)
  · refine .same (e.trans ?_)
    rw [if_neg hv]
    ext r <;> try rfl
    · exact wakeJoiners_phase s t v
    · exact wakeJoiners_joiner_of_ne s hv r

theorem lifeStep_create {detached userStack : Bool} (fresh : s.pc u = .fresh) (v : T) :
    LifeStep s a (s.create u detached userStack) v := by
  refine lifeStep_own (by rfl) (by simp [fresh, Pc.joiner]) (by simp [Pc.joiner]) ?_ ?_ v
  · intro w hw
    rw [life_setDesc_of_ne _ _ hw]
    simp only [life, List.mem_cons, hw, false_or]
  · have new : life ({ s with list := u :: s.list }.setDesc u (initThread detached userStack)) u =
        { (life s u).setDesc (initThread detached userStack) with listed := True } := by
      rw [life_setDesc_self]
      simp only [life, Life.setDesc, List.mem_cons, true_or]
    rw [new]
    exact .create detached userStack (by simp only [life, fresh]; rfl)

theorem lifeStep_pthreadJoin (running : s.pc t = .running) (v : T) :
    LifeStep s (.join t u) (s.pthreadJoin t u) v := by
  have out : (life s u).joiner t = .out := by simp [life, running, Pc.joiner]
  obtain e | ⟨listed, joinable, ⟨count, e⟩ | ⟨count, e⟩⟩ := pthreadJoin_cases s t u
  · rw [e]
    exact .same rfl
  · rw [e]
    refine lifeStep_join (k := .wait) (u := u) (by rfl) ?_ ?_ ?_ ⟨t, rfl⟩ v
    · rw [running]; rfl
    · intro w hw
      rw [life_setDesc_of_ne s _ hw, running, (joiner_other hw).1]
      exact ⟨rfl, rfl⟩
    · have self : Pc.joiner u (.joinWait u (s.desc u).joinCond) = .wait (s.desc u).joinCond := by
        simp [Pc.joiner]
      rw [life_setDesc_self, self]
      exact .wait t out listed joinable count
  · rw [e]
    refine lifeStep_joinEnd (k := .other) ?_ ?_ trivial ?_ ?_ ?_ v
    · rw [running]; rfl
    · exact fun w _ => by rw [running]; rfl
    · exact fun _ _ => .zombie t out listed joinable count
    · exact fun _ unlisted => absurd listed unlisted
    · exact fun gt => absurd (Int.le_of_lt count) gt

theorem lifeStep_pthreadDetach (v : T) : LifeStep s (.detach t u) (s.pthreadDetach u) v := by
  obtain e | ⟨listed, joinable, e⟩ := pthreadDetach_cases s u
  · rw [e]
    exact .same rfl
  · rw [e]
    by_cases hv : v = u
    · subst hv
      refine .step .detach ?_ ⟨t, rfl⟩
      rw [life_setDesc_self]
      exact .detach listed joinable
    · exact .same (life_setDesc_of_ne s _ hv)

theorem lifeStep_exec (h : exec s t = some s') (v : T) : LifeStep s (.exec t) s' v := by
  unfold exec at h
  split at h
  next => cases h
  next pc =>
    cases h
    refine lifeStep_own (by rfl) ?_ ?_ ?_ ?_ v
    · exact fun w => by rw [pc]; rfl
    · exact fun w => rfl
    · exact fun w hw => life_setDesc_of_ne s _ hw
    · rw [life_setDesc_self]
      exact .initTls (by simp only [life, pc]; rfl)
  next => cases h
  next u oldvalue pc =>
    have wait : (life s u).joiner t = .wait oldvalue := by simp [life, pc, Pc.joiner]
    split at h <;> cases h
    next same =>
      subst same
      refine lifeStep_join (k := .other) (u := u) (by rfl) ?_ ?_ ?_ trivial v
      · rw [pc]; rfl
      · intro w hw
        rw [pc, (joiner_other hw).1, (joiner_other hw).2.1]
        exact ⟨rfl, rfl⟩
      · have self : Pc.joiner u (.joinAsleep u) = .asleep := by simp [Pc.joiner]
        rw [self]
        exact .sleep t wait
    next moved =>
      refine lifeStep_join (k := .other) (u := u) (by rfl) ?_ ?_ ?_ trivial v
      · rw [pc]; rfl
      · intro w hw
        rw [pc, (joiner_other hw).1, (joiner_other hw).2.2.1]
        exact ⟨rfl, rfl⟩
      · have self : Pc.joiner u (.joinLock u) = .lock := by simp [Pc.joiner]
        rw [self]
        exact .again t oldvalue wait moved
  next => cases h
  next u pc =>
    have lock : (life s u).joiner t = .lock := by simp [life, pc, Pc.joiner]
    split at h <;> cases h
    refine lifeStep_joinEnd (k := .last) ?_ ?_ ⟨t, rfl, pc⟩ ?_ ?_ ?_ v
    · rw [pc]; rfl
    · exact fun w hw => by rw [pc]; exact (joiner_other hw).2.2.1
    · exact fun le listed => .last t lock le listed
    · exact fun le unlisted => .lastTwice t lock le unlisted
    · exact fun gt => .more t lock gt
  next u value pc =>
    cases h
    have done : (life s u).joiner t = .done value := by simp [life, pc, Pc.joiner]
    refine lifeStep_join (k := .other) (u := u) (by rfl) ?_ ?_ ?_ trivial v
    · rw [pc]; rfl
    · intro w hw
      rw [pc, (joiner_other hw).2.2.2]
      exact ⟨by simp only [life, Function.update_of_ne hw], rfl⟩
    · have one : life { s with joins := Function.update s.joins u (s.joins u + 1) } u =
          { life s u with joins := (life s u).joins + 1 } := by
        simp only [life, Function.update_self]
      rw [one]
      exact .returns t value done
  next pc =>
    cases h
    refine lifeStep_quiet (by rfl) ?_ ?_ ?_ v
    · rw [pc]; rfl
    · exact fun w => rfl
    · exact fun w => by rw [pc]; rfl
  next u rest pc =>
    split at h <;> cases h
    all_goals
      refine lifeStep_quiet (by rfl) ?_ ?_ ?_ v
      · rw [pc]; rfl
      · exact fun w => rfl
      · exact fun w => by rw [pc]; rfl
  next u rest pc =>
    cases h
    refine lifeStep_quiet (by rfl) ?_ ?_ ?_ v
    · rw [pc]; rfl
    · exact fun w => rfl
    · exact fun w => by rw [pc]; rfl
  next retval pc =>
    split at h <;> cases h
    next detached =>
      refine lifeStep_own (by rfl) (by simp [pc, Pc.joiner]) (by simp [Pc.joiner]) (fun w _ => rfl) ?_ v
      exact .testDetached (by simp only [life, pc]; rfl) detached
    next joinable =>
      refine lifeStep_own (by rfl) (by simp [pc, Pc.joiner]) (by simp [Pc.joiner]) (fun w _ => rfl) ?_ v
      exact .testJoinable (by simp only [life, pc]; rfl) (Bool.not_eq_true _ ▸ joinable)
  next pc =>
    split at h
    next =>
      split at h <;> cases h
      next list removed =>
        refine lifeStep_own (by rfl) (by simp [pc, Pc.joiner]) (by simp [Pc.joiner]) ?_ ?_ v
        · exact fun w hw => life_unlinked_of_ne s removed hw
        · rw [life_unlinked_self s removed]
          exact .remove (by simp only [life, pc]; rfl) (mem_of_removeLocked removed)
      next =>
        refine lifeStep_crash (fun unlisted => ?_) v
        exact .removeTwice (by simp only [life, pc]; rfl) unlisted
    next => cases h
  next pc =>
    cases h
    refine lifeStep_own (by rfl) (by simp [pc, Pc.joiner]) (by simp [Pc.joiner]) ?_ ?_ v
    · exact fun w hw => life_internalFree_of_ne s hw
    · rw [life_internalFree_self]
      exact .free (by simp only [life, pc]; rfl)
  next retval pc =>
    split at h <;> cases h
    exact lifeStep_exitStore pc v
  next pc =>
    cases h
    refine lifeStep_own (by rfl) (by simp [pc, Pc.joiner]) (by simp [Pc.joiner]) ?_ ?_ v
    · exact fun w hw => life_setDesc_of_ne s _ hw
    · rw [life_setDesc_self]
      exact .broadcast (by simp only [life, pc]; rfl)
  next pc =>
    cases h
    exact lifeStep_wake pc v
  next pc =>
    cases h
    refine lifeStep_own (by rfl) (by simp [pc, Pc.joiner]) (by simp [Pc.joiner]) ?_ ?_ v
    · exact fun w _ => rfl
    · exact .unlock (by simp only [life, pc]; rfl)
  next pc =>
    cases h
    refine lifeStep_own (by rfl) (by simp [pc, Pc.joiner]) (by simp [Pc.joiner]) ?_ ?_ v
    · exact fun w hw => by simp only [life, Function.update_of_ne hw]
    · have torn : life { s with unmapped := Function.update s.unmapped t (!(s.desc t).userStack) } t =
          { life s t with unmapped := !(life s t).desc.userStack } := by
        simp only [life, Function.update_self]
      rw [torn]
      exact .leave (by simp only [life, pc]; rfl)
  next => cases h

/-- Each step of the system is, for each descriptor, a step of its life or nothing. -/
theorem life_step (h : step s a = some s') (v : T) : LifeStep s a s' v := by
  cases moves_of_step h with
  | exec h => exact lifeStep_exec h v
  | create fresh => exact lifeStep_create fresh v
  | exit pc =>
      refine lifeStep_own (by rfl) (by simp [pc, Pc.joiner]) (by simp [Pc.joiner]) (fun w _ => rfl) ?_ v
      exact .exit (by simp only [life, pc]; rfl)
  | join running => exact lifeStep_pthreadJoin running v
  | detach => exact lifeStep_pthreadDetach v
  | keyDelete pc =>
      refine lifeStep_quiet (by rfl) ?_ ?_ ?_ v
      · rw [pc]; rfl
      · exact fun w => rfl
      · exact fun w => by rw [pc]; rfl
  | @spurious t u pc =>
      refine lifeStep_join (k := .spurious) (u := u) (by rfl) ?_ ?_ ?_ ⟨t, rfl, pc⟩ v
      · rw [pc]; rfl
      · intro w hw
        rw [pc, (joiner_other hw).2.1, (joiner_other hw).2.2.1]
        exact ⟨rfl, rfl⟩
      · have self : Pc.joiner u (.joinLock u) = .lock := by simp [Pc.joiner]
        rw [self]
        exact .spurious t (by simp [life, pc, Pc.joiner])

/-! ### Invariants of lives -/

/-- The life of a descriptor before its thread is created. -/
def Life.unborn (T : Type) : Life T where
  desc := initThread false false
  listed := False
  phase := .fresh
  joiner := fun _ => .out
  stored := none
  removed := 0
  freed := 0
  joins := 0
  unmapped := false

/-- The life of the main thread after `__libc_init_common`. -/
def Life.ofMain (T : Type) : Life T :=
  { Life.unborn T with desc := mainThread, listed := True, phase := .live }

theorem life_start (main u : T) :
    life (start main) u = Life.ofMain T ∨ life (start main) u = Life.unborn T := by
  have out (t : T) : ((start main).pc t).joiner u = .out := by
    by_cases h : t = main
    · simp [start, h, Pc.joiner]
    · simp [start, h, Pc.joiner]
  by_cases h : u = main
  · left
    subst h
    ext r <;> try rfl
    · simp [life, start, Life.ofMain]
    · simp [life, start, Life.ofMain]
    · simp [life, start, Life.ofMain, Pc.phase]
    · exact out r
  · right
    ext r <;> try rfl
    · simp [life, start, h, Life.unborn]
    · simp [life, start, h, Life.unborn]
    · simp [life, start, h, Life.unborn, Pc.phase]
    · exact out r

/-- What holds at the start and survives the steps of a life that are allowed holds of every descriptor in every
run. -/
theorem life_invariant {main : T} {ok : Sys T → Act T → Bool} {P : Life T → Prop} (allowed : Kind → Life T → Prop)
    (ofMain : P (Life.ofMain T)) (unborn : P (Life.unborn T))
    (step : ∀ l k l', P l → Life.Step l k l' → allowed k l → P l')
    (labels : ∀ s a u k, ok s a = true → Labels s a u k → allowed k (life s u))
    (h : Reach main ok s) (u : T) : P (life s u) := by
  induction h with
  | start =>
      cases life_start main u with
      | inl e => rw [e]; exact ofMain
      | inr e => rw [e]; exact unborn
  | step _ hok hs ih =>
      cases life_step hs u with
      | same e => rw [e]; exact ih
      | step k h label => exact step _ k _ ih h (labels _ _ u k hok label)

end Bionic.Threads
