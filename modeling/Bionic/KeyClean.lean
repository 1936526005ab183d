import Bionic.TlsMap

/-! # The destructors of a thread that exits (`libc/bionic/pthread.c`)

`pthread_key_clean_all` walks through the keys with the lock of the map in its hands and gives it back for the call of
each destructor.  While it holds the lock nobody else writes the map or the slots of the thread.  While it does not,
the other threads may change the map as they like and clear slots of the thread (`pthread_key_delete`), and a
destructor may in addition store what it likes into the slots. -/

namespace Bionic.KeyClean

open TlsMap

def PTHREAD_DESTRUCTOR_ITERATIONS : ℕ := 4

/-- Where the thread is in `pthread_key_clean_all`. -/
inductive Pc
  /-- Before the first `tlsmap_lock`. -/
  | lock
  /-- At the condition of the inner loop. -/
  | scan (rounds kk count : ℕ)
  /-- The lock is given back, and the next step calls `dtor` with `data`. -/
  | call (rounds kk count : ℕ) (dtor data : Word)
  /-- In the destructor. -/
  | dtor (rounds kk count : ℕ)
  /-- The destructor has returned. -/
  | relock (rounds kk count : ℕ)
  /-- Behind the outer loop. -/
  | unlock (rounds : ℕ)
  | done
deriving DecidableEq, Repr

/-- The thread holds the lock of the map. -/
def Pc.holds : Pc → Bool
  | .scan _ _ _ => true
  | .unlock _ => true
  | _ => false

structure State where
  tlsmap : Map
  /-- The slots of the thread. -/
  tls : ℕ → Word
  pc : Pc
  /-- The number of rounds that have begun. -/
  begun : ℕ

/-- The condition of the outer loop. -/
def State.round (s : State) (rounds : ℕ) : State :=
  if 0 < rounds then { s with pc := .scan rounds TLSMAP_START 0, begun := s.begun + 1 }
  else { s with pc := .unlock rounds }

/-- A step of the thread in `pthread_key_clean_all`. -/
def exec (s : State) : Option State :=
  match s.pc with
  | .lock => some (State.round { s with tlsmap := tlsmapLock s.tlsmap } PTHREAD_DESTRUCTOR_ITERATIONS)
  | .scan rounds kk count =>
      if kk < TLSMAP_SIZE then
        if tlsmapTest s.tlsmap kk then
          let data := s.tls kk
          let dtor := s.tlsmap.dtors kk
          if data ≠ 0 ∧ dtor ≠ 0 then
            -- The slot is cleared before the lock is given back.
            some { s with tls := Function.update s.tls kk 0, pc := .call rounds kk count dtor data }
          else some { s with pc := .scan rounds (kk + 1) count }
        else some { s with pc := .scan rounds (kk + 1) count }
      else if count = 0 then some { s with pc := .unlock rounds }
      else some (s.round (rounds - 1))
  | .call rounds kk count _ _ => some { s with pc := .dtor rounds kk count }
  | .dtor rounds kk count => some { s with pc := .relock rounds kk count }
  | .relock rounds kk count =>
      some { s with tlsmap := tlsmapLock s.tlsmap, pc := .scan rounds (kk + 1) (count + 1) }
  | .unlock _ => some { s with pc := .done }
  | .done => none

/-- What other threads may have done from `s` to `s'`. -/
structure Others (s s' : State) : Prop where
  tls : ∀ k, s'.tls k = s.tls k ∨ s'.tls k = 0
  pc : s'.pc = s.pc
  begun : s'.begun = s.begun

inductive Step (s : State) : State → Prop
  | exec (s' : State) (h : exec s = some s') : Step s s'
  | others (s' : State) (free : s.pc.holds = false) (h : Others s s') : Step s s'
  | dtor (tlsmap : Map) (tls : ℕ → Word) {rounds kk count : ℕ} (inside : s.pc = .dtor rounds kk count) :
      Step s { s with tlsmap := tlsmap, tls := tls }

/-- The states that the call of `pthread_key_clean_all` on a map and on slots can reach. -/
inductive Reach (tlsmap : Map) (tls : ℕ → Word) : State → Prop
  | start : Reach tlsmap tls ⟨tlsmap, tls, .lock, 0⟩
  | step {s s' : State} : Reach tlsmap tls s → Step s s' → Reach tlsmap tls s'

variable {s s' : State} {tlsmap : Map} {tls : ℕ → Word}

theorem Others.refl (s : State) : Others s s := ⟨fun _ => .inl rfl, rfl, rfl⟩

theorem Others.trans {s₁ s₂ s₃ : State} (h : Others s₁ s₂) (h' : Others s₂ s₃) : Others s₁ s₃ where
  tls k := by
    cases h'.tls k with
    | inl kept => rw [kept]; exact h.tls k
    | inr null => exact .inr null
  pc := h'.pc.trans h.pc
  begun := h'.begun.trans h.begun

/-! ### The calls of the other threads and of the destructors -/

section

variable {T : Type} [DecidableEq T] {sys sys' : Sys T} {t : T}

theorem clearIn_kept (sys : Sys T) (key : ℕ) (slots : T → ℕ → Word) (thr u : T) (k : ℕ) :
    clearIn sys key slots thr u k = slots u k ∨ clearIn sys key slots thr u k = 0 := by
  by_cases same : k = key ∧ u = thr
  · obtain ⟨rfl, rfl⟩ := same
    by_cases hc : sys.Clearable u
    · exact .inr (clearIn_self sys k slots u hc)
    · rw [clearIn, if_pos (not_not.1 hc)]
      exact .inl rfl
  · exact .inl (clearIn_other sys key slots thr u k same)

theorem foldl_clearIn_kept (sys : Sys T) (key : ℕ) (list : List T) (u : T) (k : ℕ) (slots : T → ℕ → Word) :
    list.foldl (clearIn sys key) slots u k = slots u k ∨ list.foldl (clearIn sys key) slots u k = 0 := by
  induction list generalizing slots with
  | nil => exact .inl rfl
  | cons thr list ih =>
      rw [List.foldl_cons]
      cases clearIn_kept sys key slots thr u k with
      | inl kept =>
          rw [← kept]
          exact ih _
      | inr null => exact .inr (foldl_clearIn_null sys key list u k _ null)

/-- What a call of any thread does to the slots of a running thread `t`, except for `pthread_setspecific` in `t`
itself, which is a step of a destructor. -/
theorem others_of_step (h : TlsMap.Step sys sys') (running : sys.pc t = .running) (pc : Pc) (n : ℕ) :
    Others ⟨sys.tlsmap, sys.slots t, pc, n⟩ ⟨sys'.tlsmap, sys'.slots t, pc, n⟩ ∨
      ∃ key ptr, sys' = (pthreadSetspecific sys t key ptr).2 := by
  have of_slots (kept : ∀ k, sys'.slots t k = sys.slots t k ∨ sys'.slots t k = 0) :
      Others ⟨sys.tlsmap, sys.slots t, pc, n⟩ ⟨sys'.tlsmap, sys'.slots t, pc, n⟩ := ⟨kept, rfl, rfl⟩
  cases h with
  | keyCreate u dtor hu =>
      refine .inl (of_slots fun k => .inl ?_)
      unfold pthreadKeyCreate
      dsimp only
      split <;> rfl
  | keyDelete u key hu =>
      refine .inl (of_slots fun k => ?_)
      unfold pthreadKeyDelete
      dsimp only
      split
      · split
        · exact foldl_clearIn_kept sys key.toNat sys.list t k sys.slots
        · exact .inl rfl
      · exact .inl rfl
  | setspecific u key ptr hu =>
      by_cases htu : u = t
      · subst htu
        exact .inr ⟨key, ptr, rfl⟩
      · refine .inl (of_slots fun k => .inl ?_)
        unfold pthreadSetspecific
        dsimp only
        split
        · split
          · exact congrFun (Function.update_of_ne (Ne.symm htu) _ _) k
          · rfl
        · rfl
  | create u v detached userStack area hu fresh =>
      have hv : t ≠ v := by
        rintro rfl
        rw [running] at fresh
        cases fresh
      exact .inl (of_slots fun k => .inl (congrFun (Function.update_of_ne hv _ _) k))
  | initTls u sys' h =>
      have hu : t ≠ u := by
        rintro rfl
        simp [initTls, running] at h
      refine .inl (of_slots fun k => .inl ?_)
      unfold initTls at h
      split at h
      · cases h; rfl
      · split at h
        · cases h
          exact congrFun (Function.update_of_ne hu _ _) k
        · cases h; rfl
      · cases h

end

/-! ### What a step does -/

/-- What the thread reads of the key `kk` before it clears the slot. -/
structure Reads (s : State) (kk : ℕ) (dtor data : Word) : Prop where
  holds : s.pc.holds = true
  range : InRange kk
  allocated : tlsmapTest s.tlsmap kk = true
  dtor_eq : s.tlsmap.dtors kk = dtor
  data_eq : s.tls kk = data
  dtor_ne : dtor ≠ 0
  data_ne : data ≠ 0

/-- Below `kk`, no allocated key with a destructor has a value. -/
def CleanTo (s : State) (kk : ℕ) : Prop :=
  ∀ k, TLSMAP_START ≤ k → k < kk → tlsmapTest s.tlsmap k = true → s.tlsmap.dtors k ≠ 0 → s.tls k = 0

/-- In the body of the outer loop. -/
def InRound (s : State) (rounds : ℕ) : Prop := 0 < rounds ∧ s.begun + rounds = PTHREAD_DESTRUCTOR_ITERATIONS + 1

/-- What is known at each place. -/
def Ok (s : State) : Pc → Prop
  | .lock => s.begun = 0
  | .scan rounds kk count => InRound s rounds ∧ TLSMAP_START ≤ kk ∧ (count = 0 → CleanTo s kk)
  | .call rounds kk _ _ _ => InRound s rounds ∧ TLSMAP_START ≤ kk
  | .dtor rounds kk _ => InRound s rounds ∧ TLSMAP_START ≤ kk
  | .relock rounds kk _ => InRound s rounds ∧ TLSMAP_START ≤ kk
  | .unlock rounds =>
      s.begun ≤ PTHREAD_DESTRUCTOR_ITERATIONS ∧
        (s.begun < PTHREAD_DESTRUCTOR_ITERATIONS ∨ 0 < rounds → CleanTo s TLSMAP_SIZE)
  | .done => s.begun ≤ PTHREAD_DESTRUCTOR_ITERATIONS

/-- The condition of the outer loop, after a round that has called destructors or before the first. -/
theorem ok_round {rounds : ℕ} (h : s.begun + rounds = PTHREAD_DESTRUCTOR_ITERATIONS) :
    Ok (s.round rounds) (s.round rounds).pc := by
  unfold State.round
  split
  next pos =>
    refine ⟨⟨pos, ?_⟩, Nat.le_refl _, fun _ k ge lt => absurd lt (Nat.not_lt.2 ge)⟩
    show s.begun + 1 + rounds = PTHREAD_DESTRUCTOR_ITERATIONS + 1
    omega
  next zero =>
    have all : s.begun = PTHREAD_DESTRUCTOR_ITERATIONS := by omega
    refine ⟨Nat.le_of_eq all, fun left => ?_⟩
    rcases left with few | pos
    · exact absurd all (Nat.ne_of_lt few)
    · exact absurd pos zero

theorem CleanTo.next {kk : ℕ} (h : CleanTo s kk)
    (clean : tlsmapTest s.tlsmap kk = true → s.tlsmap.dtors kk ≠ 0 → s.tls kk = 0) : CleanTo s (kk + 1) := by
  intro k ge lt
  rcases Nat.lt_succ_iff_lt_or_eq.1 lt with below | rfl
  · exact h k ge below
  · exact clean

theorem exec_ok (hi : Ok s s.pc) (h : exec s = some s') : Ok s' s'.pc := by
  unfold exec at h
  split at h
  next pc =>
    rw [pc] at hi
    cases h
    apply ok_round
    show s.begun + PTHREAD_DESTRUCTOR_ITERATIONS = PTHREAD_DESTRUCTOR_ITERATIONS
    rw [hi, Nat.zero_add]
  next rounds kk count pc =>
    rw [pc] at hi
    obtain ⟨round, ge, clean⟩ := hi
    split at h
    next lt =>
      dsimp only at h
      split at h
      next allocated =>
        split at h
        next both =>
          cases h
          exact ⟨round, ge⟩
        next either =>
          cases h
          refine ⟨round, Nat.le_succ_of_le ge, fun zero => (clean zero).next fun _ dtor => ?_⟩
          by_contra data
          exact either ⟨data, dtor⟩
      next free =>
        cases h
        exact ⟨round, Nat.le_succ_of_le ge, fun zero => (clean zero).next fun allocated => absurd allocated free⟩
    next all =>
      split at h
      next zero =>
        cases h
        refine ⟨?_, fun _ k ge lt => clean zero k ge (Nat.lt_of_lt_of_le lt (Nat.not_lt.1 all))⟩
        show s.begun ≤ PTHREAD_DESTRUCTOR_ITERATIONS
        have sum := round.2
        have pos := round.1
        omega
      next called =>
        cases h
        apply ok_round
        have sum := round.2
        have pos := round.1
        omega
  next rounds kk count dtor data pc =>
    rw [pc] at hi
    cases h
    exact hi
  next rounds kk count pc =>
    rw [pc] at hi
    cases h
    exact hi
  next rounds kk count pc =>
    rw [pc] at hi
    cases h
    exact ⟨hi.1, Nat.le_succ_of_le hi.2, fun zero => absurd zero (Nat.succ_ne_zero count)⟩
  next rounds pc =>
    rw [pc] at hi
    cases h
    exact hi.1
  next pc => cases h

/-- Nothing is known of the map and of the slots where the thread does not hold the lock. -/
theorem Ok.of_free {pc : Pc} (hi : Ok s pc) (free : pc.holds = false) (begun : s'.begun = s.begun) : Ok s' pc := by
  cases pc with
  | scan rounds kk count => cases free
  | unlock rounds => cases free
  | lock => exact begun.trans hi
  | done => exact Nat.le_trans (Nat.le_of_eq begun) hi
  | _ => exact ⟨⟨hi.1.1, begun ▸ hi.1.2⟩, hi.2⟩

theorem Step.ok (h : Step s s') (hi : Ok s s.pc) : Ok s' s'.pc := by
  cases h with
  | exec s' h => exact exec_ok hi h
  | others s' free h =>
      rw [h.pc]
      exact hi.of_free free h.begun
  | dtor tlsmap tls inside =>
      have free : s.pc.holds = false := by rw [inside]; rfl
      exact hi.of_free free rfl

theorem Reach.ok (h : Reach tlsmap tls s) : Ok s s.pc := by
  induction h with
  | start => exact rfl
  | step _ step ih => exact step.ok ih

/-! ### The calls -/

/-- The step that clears a slot is the only one to a call. -/
theorem exec_call {rounds kk count : ℕ} {dtor data : Word} (hi : Ok s s.pc) (h : exec s = some s')
    (pc : s'.pc = .call rounds kk count dtor data) :
    Reads s kk dtor data ∧ s'.tls = Function.update s.tls kk 0 := by
  have other {n : ℕ} {a : State} (e : a.round n = s') : False := by
    unfold State.round at e
    split at e <;> (rw [← e] at pc; cases pc)
  unfold exec at h
  split at h
  next pc' => exact (other (Option.some.inj h)).elim
  next rounds' kk' count' pc' =>
    rw [pc'] at hi
    split at h
    next lt =>
      dsimp only at h
      split at h
      next allocated =>
        split at h
        next both =>
          cases h
          cases pc
          exact ⟨⟨by rw [pc']; rfl, ⟨hi.2.1, lt⟩, allocated, rfl, rfl, both.2, both.1⟩, rfl⟩
        next => cases h; cases pc
      next => cases h; cases pc
    next =>
      split at h
      next => cases h; cases pc
      next => exact (other (Option.some.inj h)).elim
  all_goals cases h <;> cases pc

/-- Where a call is next, its key was read and cleared in one step of the thread, and only other threads have run since
then. -/
theorem Reach.call {rounds kk count : ℕ} {dtor data : Word} (h : Reach tlsmap tls s)
    (pc : s.pc = .call rounds kk count dtor data) :
    ∃ s₁ s₂, Reach tlsmap tls s₁ ∧ Reads s₁ kk dtor data ∧ exec s₁ = some s₂ ∧
      s₂.tls = Function.update s₁.tls kk 0 ∧ Others s₂ s := by
  induction h with
  | start => cases pc
  | @step s s' reach step ih =>
      cases step with
      | exec s' h =>
          obtain ⟨reads, cleared⟩ := exec_call reach.ok h pc
          exact ⟨s, s', reach, reads, h, cleared, .refl s'⟩
      | others s' free h =>
          obtain ⟨s₁, s₂, reach₁, reads, next, cleared, others⟩ := ih (h.pc ▸ pc)
          exact ⟨s₁, s₂, reach₁, reads, next, cleared, others.trans h⟩
      | dtor tlsmap tls inside =>
          rw [inside] at pc
          cases pc

/-- A slot that is NULL stays so as long as only other threads run. -/
theorem Others.null {k : ℕ} (h : Others s s') (null : s.tls k = 0) : s'.tls k = 0 := by
  cases h.tls k with
  | inl kept => rw [kept, null]
  | inr zero => exact zero

/-- Each destructor is called with the value of its own key, which is not NULL and which the thread has cleared before;
there are at most `PTHREAD_DESTRUCTOR_ITERATIONS` rounds; and if the loop stops before that many rounds have run, or
because a round has called no destructor, then no allocated key with a destructor has a value. -/
theorem key_clean_all (h : Reach tlsmap tls s) :
    (∀ rounds kk count dtor data, s.pc = .call rounds kk count dtor data → s.tls kk = 0 ∧
      ∃ s₁ s₂, Reach tlsmap tls s₁ ∧ Reads s₁ kk dtor data ∧ exec s₁ = some s₂ ∧
        s₂.tls = Function.update s₁.tls kk 0 ∧ Others s₂ s) ∧
    s.begun ≤ PTHREAD_DESTRUCTOR_ITERATIONS ∧
    ∀ rounds, s.pc = .unlock rounds → s.begun < PTHREAD_DESTRUCTOR_ITERATIONS ∨ 0 < rounds →
      ∀ k, InRange k → tlsmapTest s.tlsmap k = true → s.tlsmap.dtors k ≠ 0 → s.tls k = 0 := by
  have ok := h.ok
  refine ⟨fun rounds kk count dtor data pc => ?_, ?_, fun rounds pc stopped k range => ?_⟩
  · obtain ⟨s₁, s₂, reach₁, reads, next, cleared, others⟩ := h.call pc
    have null : s₂.tls kk = 0 := by rw [cleared, Function.update_self]
    exact ⟨others.null null, s₁, s₂, reach₁, reads, next, cleared, others⟩
  · have inRound {rounds : ℕ} (round : InRound s rounds) : s.begun ≤ PTHREAD_DESTRUCTOR_ITERATIONS := by
      have sum := round.2
      have pos := round.1
      omega
    cases pc : s.pc with
    | lock =>
        rw [pc] at ok
        exact ok ▸ Nat.zero_le _
    | unlock rounds =>
        rw [pc] at ok
        exact ok.1
    | done =>
        rw [pc] at ok
        exact ok
    | _ =>
        rw [pc] at ok
        exact inRound ok.1
  · rw [pc] at ok
    exact ok.2 stopped k range.1 range.2

/-- The key 5 has a destructor at `0x8000`. -/
def keyFive : Map := tlsmapSet ⟨true, fun _ => 0, fun _ => 0⟩ 5 0x8000

/-- The thread has the value 7 for it. -/
def seven : ℕ → Word := Function.update (fun _ => 0) 5 7

/-- The destructor is called with 7. -/
def called : State := ⟨keyFive, Function.update seven 5 0, .call 4 5 0 0x8000 7, 1⟩

theorem reach_called : Reach keyFive seven called := by
  have third : Reach keyFive seven ⟨keyFive, seven, .scan 4 3 0, 1⟩ := Reach.start.step (.exec _ rfl)
  have fourth : Reach keyFive seven ⟨keyFive, seven, .scan 4 4 0, 1⟩ := third.step (.exec _ rfl)
  have fifth : Reach keyFive seven ⟨keyFive, seven, .scan 4 5 0, 1⟩ := fourth.step (.exec _ rfl)
  exact fifth.step (.exec _ rfl)

theorem key_clean_all_called : called.tls 5 = 0 ∧ ∃ s₁ s₂, Reach keyFive seven s₁ ∧ Reads s₁ 5 0x8000 7 ∧
    exec s₁ = some s₂ ∧ s₂.tls = Function.update s₁.tls 5 0 ∧ Others s₂ called :=
  (key_clean_all reach_called).1 4 5 0 0x8000 7 rfl

end Bionic.KeyClean
