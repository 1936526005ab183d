import Mathlib.Algebra.GroupWithZero.Nat
import Mathlib.Algebra.Order.BigOperators.Group.Finset
import Bionic.Semaphore

/-! # Units of a semaphore and its sleepers

`Seen` is the invariant: every sleeper has a wake-up call, or the units are no more
than the threads that are awake, or about to be woken, to take them.  A step keeps it
(`Inv.step`), given `PostOk` at each post. -/

namespace Bionic.Semaphore

variable {T : Type*} [DecidableEq T] [Fintype T] {s s' : Sys T} {t : T}

/-! ### The numbers after a step -/

theorem sum_update (f : T → ℕ) (t : T) (v : ℕ) : ∑ u, Function.update f t v u + f t = ∑ u, f u + v := by
  rw [Finset.sum_update_of_mem (Finset.mem_univ t), ← Finset.sum_sdiff (Finset.subset_univ {t}),
    Finset.sum_singleton]
  omega

/-- The thread that moves leaves one kind of program counter for another. -/
theorem number_set (s : Sys T) (count : Count) (t : T) (pc : Pc) (kind : Pc → Bool) :
    (s.set count t pc).number kind + (kind (s.pc t)).toNat = s.number kind + (kind pc).toNat := by
  have moved : (fun u => (kind ((s.set count t pc).pc u)).toNat) =
      Function.update (fun u => (kind (s.pc u)).toNat) t (kind pc).toNat := by
    funext u
    by_cases hu : u = t
    · subst hu; simp [Sys.set]
    · simp [Sys.set, hu]
  unfold Sys.number
  rw [moved]
  exact sum_update _ t _

omit [DecidableEq T] in
theorem number_pos {kind : Pc → Bool} (h : kind (s.pc t) = true) : 0 < s.number kind := by
  unfold Sys.number
  apply Finset.sum_pos'
  · exact fun _ _ => Nat.zero_le _
  · exact ⟨t, Finset.mem_univ t, by simp [h]⟩

omit [DecidableEq T] in
theorem number_eq_zero {kind : Pc → Bool} (h : ∀ t, kind (s.pc t) = false) : s.number kind = 0 := by
  simp [Sys.number, h]

/-! ### The invariant -/

/-- Every sleeper has a wake-up call, or every unit has a taker. -/
def Seen (s : Sys T) : Prop :=
  s.number Pc.sleeps ≤ s.number Pc.wakes ∨
    s.count.toNat ≤ s.number Pc.wakes + s.number Pc.retries

structure Inv (s : Sys T) : Prop where
  seen : Seen s
  /-- `__atomic_cmpxchg` is tried only from a count that is not zero. -/
  cas : ∀ t c old, s.pc t = .cas c old → old ≠ 0

omit [DecidableEq T] in
theorem inv_start (value : Count) : Inv (start T value) where
  seen := by
    have h : (start T value).number Pc.sleeps = 0 := number_eq_zero fun _ => rfl
    exact .inl (by omega)
  cas := by simp [start]

/-- What a step does to the count and to the kind of the thread that makes it. -/
inductive Effect (count : Count) (pc : Pc) (count' : Count) (pc' : Pc) : Prop
  /-- The count is zero. -/
  | none (zero : count' = 0)
  /-- A post finds the count at zero. -/
  | wake (one : count' = 1) (asleep : pc'.sleeps = false) (hw : pc'.wakes = true)
  /-- A post finds units. -/
  | post (h : pc = .inc) (inc : count' = count + 1) (ne : count ≠ 0) (hs : pc'.sleeps = false)
      (hw : pc'.wakes = false) (hr : pc'.retries = false)
  /-- A unit is taken. -/
  | take (ne : count ≠ 0) (dec : count' = count - 1) (hs : pc'.sleeps = false)
      (hw : pc'.wakes = pc.wakes)
  /-- Nothing is lost: a taker stays one, a wake-up call stays ahead, nobody falls asleep. -/
  | keep (same : count' = count) (hs : pc'.sleeps = false) (hw : pc'.wakes = pc.wakes)
      (hr : pc.retries = true → pc'.retries = true)

theorem Seen.effect {count : Count} {pc : Pc} (h : Seen s) (hp : PostOk s t)
    (e : Effect s.count (s.pc t) count pc) : Seen (s.set count t pc) := by
  have hS := number_set s count t pc Pc.sleeps
  have hW := number_set s count t pc Pc.wakes
  have hR := number_set s count t pc Pc.retries
  have hS1 := Bool.toNat_le (Pc.sleeps (s.pc t))
  have hR1 := Bool.toNat_le (Pc.retries (s.pc t))
  have hc : (s.set count t pc).count = count := rfl
  unfold Seen at h ⊢
  rw [hc]
  cases e with
  | none zero => right; rw [zero]; simp
  | wake one asleep hw =>
      right
      rw [hw] at hW
      have hpos : 0 < (s.set count t pc).number Pc.wakes := by
        apply number_pos (t := t)
        simpa [Sys.set] using hw
      have h1 : count.toNat = 1 := by rw [one]; rfl
      omega
  | post hpc inc ne hs hw hr =>
      have old : (s.pc t).sleeps = false ∧ (s.pc t).wakes = false ∧ (s.pc t).retries = false := by
        rw [hpc]; exact ⟨rfl, rfl, rfl⟩
      rw [hs, old.1] at hS
      rw [hw, old.2.1] at hW
      rw [hr, old.2.2] at hR
      have hle : count.toNat ≤ s.count.toNat + 1 := by
        rw [inc, BitVec.toNat_add]
        exact Nat.mod_le _ _
      have hok := (hp hpc).resolve_left ne
      omega
  | take ne dec hs hw =>
      rw [hs] at hS
      rw [hw] at hW
      have hlt : count.toNat + 1 = s.count.toNat := by
        have hne : s.count.toNat ≠ 0 := fun h0 => ne (BitVec.eq_of_toNat_eq h0)
        have := s.count.isLt
        have e : (s.count - 1).toNat = (2 ^ 32 - 1 + s.count.toNat) % 2 ^ 32 :=
          BitVec.toNat_sub s.count 1
        rw [dec]
        omega
      simp only [Bool.toNat_false] at hS
      omega
  | keep same hs hw hr =>
      rw [hs] at hS
      rw [hw] at hW
      subst same
      simp only [Bool.toNat_false] at hS
      have hR' : (s.pc t).retries.toNat ≤ pc.retries.toNat := by
        cases hb : (s.pc t).retries with
        | false => exact Nat.zero_le _
        | true => rw [hr hb]
      omega

/-! ### One thread moves -/

/-- After `__atomic_dec_if_positive` a thread returns, or goes on to the clock or to
`__futex_wait`. -/
theorem afterDec_cases (old : Count) (c : Caller) :
    (∃ ret, afterDec old c = .done ret) ∨ (∃ ts, afterDec old c = .clock ts) ∨
      afterDec old c = .wait := by
  cases c with
  | wait =>
      unfold afterDec
      dsimp only
      split
      · exact .inl ⟨_, rfl⟩
      · exact .inr (.inr rfl)
  | timedFirst absTimeout =>
      unfold afterDec
      dsimp only
      split
      · exact .inl ⟨_, rfl⟩
      · split
        · exact .inl ⟨_, rfl⟩
        · exact .inr (.inl ⟨_, rfl⟩)
  | timedAgain ts =>
      unfold afterDec
      dsimp only
      split
      · exact .inl ⟨_, rfl⟩
      · exact .inr (.inl ⟨_, rfl⟩)
  | trywait =>
      unfold afterDec
      dsimp only
      split
      · exact .inl ⟨_, rfl⟩
      · exact .inl ⟨_, rfl⟩

theorem afterDec_sleeps (old : Count) (c : Caller) : (afterDec old c).sleeps = false := by
  obtain ⟨_, h⟩ | ⟨_, h⟩ | h := afterDec_cases old c <;> rw [h] <;> rfl

theorem afterDec_wakes (old : Count) (c : Caller) : (afterDec old c).wakes = false := by
  obtain ⟨_, h⟩ | ⟨_, h⟩ | h := afterDec_cases old c <;> rw [h] <;> rfl

theorem effect_of_exec {count count' : Count} {pc pc' : Pc}
    (h : exec count pc = some (count', pc')) (hcas : ∀ c old, pc = .cas c old → old ≠ 0) :
    Effect count pc count' pc' := by
  cases pc with
  | inc =>
      simp only [exec, Option.some.injEq, Prod.mk.injEq] at h
      obtain ⟨rfl, rfl⟩ := h
      by_cases h0 : count = 0
      · subst h0; exact .wake rfl rfl rfl
      · rw [if_neg h0]; exact .post rfl rfl h0 rfl rfl rfl
  | read c =>
      simp only [exec, Option.some.injEq, Prod.mk.injEq] at h
      obtain ⟨rfl, rfl⟩ := h
      by_cases h0 : count = 0
      · exact .none h0
      · rw [if_pos h0]
        exact .keep rfl rfl rfl id
  | cas c old =>
      simp only [exec] at h
      split at h
      next same =>
        simp only [Option.some.injEq, Prod.mk.injEq] at h
        obtain ⟨rfl, rfl⟩ := h
        subst same
        exact .take (hcas c count rfl) rfl (afterDec_sleeps _ _) (afterDec_wakes _ _)
      next differs =>
        simp only [Option.some.injEq, Prod.mk.injEq] at h
        obtain ⟨rfl, rfl⟩ := h
        exact .keep rfl rfl rfl id
  | wait =>
      simp only [exec, Option.some.injEq, Prod.mk.injEq] at h
      obtain ⟨rfl, rfl⟩ := h
      by_cases h0 : count = 0
      · exact .none h0
      · rw [if_neg h0]; exact .keep rfl rfl rfl fun _ => rfl
  | timedWait ts =>
      simp only [exec, Option.some.injEq, Prod.mk.injEq] at h
      obtain ⟨rfl, rfl⟩ := h
      by_cases h0 : count = 0
      · exact .none h0
      · rw [if_neg h0]; exact .keep rfl rfl rfl fun _ => rfl
  | done ret =>
      simp only [exec, Option.some.injEq, Prod.mk.injEq] at h
      obtain ⟨rfl, rfl⟩ := h
      exact .keep rfl rfl rfl (by simp [Pc.retries])
  | _ => simp [exec] at h

/-- The count that `__atomic_cmpxchg` expects was read, and was not zero. -/
theorem exec_cas {count count' old : Count} {pc : Pc} {c : Caller}
    (h : exec count pc = some (count', .cas c old)) : old ≠ 0 := by
  have never (old' : Count) (c' : Caller) : afterDec old' c' ≠ .cas c old := by
    obtain ⟨_, e⟩ | ⟨_, e⟩ | e := afterDec_cases old' c' <;> rw [e] <;> simp
  cases pc with
  | inc => simp only [exec] at h; split at h <;> simp at h
  | read c' =>
      simp only [exec, Option.some.injEq, Prod.mk.injEq] at h
      obtain ⟨-, h⟩ := h
      split at h
      next ne =>
        simp only [Pc.cas.injEq] at h
        rw [← h.2]
        exact ne
      next zero => exact absurd h (never _ _)
  | cas c' old' =>
      simp only [exec] at h
      split at h
      · simp only [Option.some.injEq, Prod.mk.injEq] at h
        exact absurd h.2 (never _ _)
      · simp at h
  | wait => simp only [exec] at h; split at h <;> simp at h
  | timedWait ts => simp only [exec] at h; split at h <;> simp at h
  | _ => simp [exec] at h

theorem sleeps_woken {pc : Pc} (h : pc.sleeps = true) :
    pc.wakes = false ∧ pc.retries = false ∧ pc.woken.sleeps = false ∧ pc.woken.wakes = false ∧
      pc.woken.retries = true := by
  cases pc with
  | asleep => exact ⟨rfl, rfl, rfl, rfl, rfl⟩
  | timedAsleep ts => exact ⟨rfl, rfl, rfl, rfl, rfl⟩
  | _ => simp [Pc.sleeps] at h

theorem woken_ne_cas {pc : Pc} {c : Caller} {old : Count} (h : pc.sleeps = true) :
    pc.woken ≠ .cas c old := by
  cases pc with
  | asleep => simp [Pc.woken]
  | timedAsleep ts => simp [Pc.woken]
  | _ => simp [Pc.sleeps] at h

/-- A wake-up call moves a sleeper to the takers. -/
theorem Seen.wakeOne {u : T} (h : Seen s) (ht : s.pc t = .wake) (hu : (s.pc u).sleeps = true) :
    Seen (s.wakeUp t u) := by
  have hut : u ≠ t := by
    intro e
    rw [e, ht] at hu
    simp [Pc.sleeps] at hu
  have same : (s.set s.count t (.done .zero)).pc u = s.pc u := by simp [Sys.set, hut]
  obtain ⟨w, r, s', w', r'⟩ := sleeps_woken hu
  have hS := number_set s s.count t (.done .zero) Pc.sleeps
  have hW := number_set s s.count t (.done .zero) Pc.wakes
  have hR := number_set s s.count t (.done .zero) Pc.retries
  have hS' := number_set (s.set s.count t (.done .zero)) s.count u (s.pc u).woken Pc.sleeps
  have hW' := number_set (s.set s.count t (.done .zero)) s.count u (s.pc u).woken Pc.wakes
  have hR' := number_set (s.set s.count t (.done .zero)) s.count u (s.pc u).woken Pc.retries
  rw [ht] at hS hW hR
  rw [same, hu, s'] at hS'
  rw [same, w, w'] at hW'
  rw [same, r, r'] at hR'
  simp only [Pc.sleeps, Pc.wakes, Pc.retries, Bool.toNat_false, Bool.toNat_true] at hS hW hR hS' hW' hR'
  unfold Sys.wakeUp
  unfold Seen at h ⊢
  show _ ∨ s.count.toNat ≤ _
  omega

theorem Inv.step (hi : Inv s) (hp : PostOk s t) (h : Step s t s') : Inv s' := by
  have effect {count : Count} {pc : Pc} (e : Effect s.count (s.pc t) count pc)
      (hcas : ∀ c old, pc = .cas c old → old ≠ 0) : Inv (s.set count t pc) := by
    refine ⟨hi.seen.effect hp e, fun u c old hu => ?_⟩
    by_cases hut : u = t
    · subst hut
      exact hcas c old (by simpa [Sys.set] using hu)
    · exact hi.cas u c old (by simpa [Sys.set, hut] using hu)
  cases h with
  | call op idle =>
      apply effect
      · rw [idle]
        cases op with
        | timedwait ts => exact .keep rfl rfl rfl (by simp [Pc.retries])
        | _ => exact .keep rfl rfl rfl (by simp [Pc.retries])
      · cases op <;> simp [Op.entry]
  | exec count pc h =>
      apply effect (effect_of_exec h (hi.cas t))
      intro c old e
      rw [e] at h
      exact exec_cas h
  | clock abs now h =>
      apply effect
      · rw [h]
        unfold afterClock
        split
        · exact .keep rfl rfl rfl (by simp [Pc.retries])
        · exact .keep rfl rfl rfl (by simp [Pc.retries])
      · intro c old e
        unfold afterClock at e
        split at e <;> simp at e
  | spurious h =>
      obtain ⟨w, r, s', w', r'⟩ := sleeps_woken h
      apply effect
      · exact .keep rfl s' (by rw [w, w']) (fun _ => r')
      · exact fun c old e => absurd e (woken_ne_cas h)
  | expired ts errno h he =>
      apply effect
      · rw [h]; exact .keep rfl rfl rfl (by simp [Pc.retries])
      · simp
  | wakeOne u ht hu =>
      refine ⟨hi.seen.wakeOne ht hu, fun v c old hv => ?_⟩
      by_cases hvu : v = u
      · subst hvu
        exact absurd (by simpa [Sys.wakeUp, Sys.set] using hv) (woken_ne_cas hu)
      · by_cases hvt : v = t
        · subst hvt
          simp [Sys.wakeUp, Sys.set, hvu] at hv
        · exact hi.cas v c old (by simpa [Sys.wakeUp, Sys.set, hvu, hvt] using hv)
  | wakeNone ht none =>
      have awake : ∀ u, ((s.set s.count t (.done .zero)).pc u).sleeps = false := by
        intro u
        by_cases hut : u = t
        · simp [Sys.set, hut, Pc.sleeps]
        · simpa [Sys.set, hut] using none u
      refine ⟨.inl (by rw [number_eq_zero awake]; exact Nat.zero_le _), fun v c old hv => ?_⟩
      by_cases hvt : v = t
      · subst hvt
        simp [Sys.set] at hv
      · exact hi.cas v c old (by simpa [Sys.set, hvt] using hv)

theorem Inv.reach {value : Count} (h : Reach PostOk value s) : Inv s := by
  induction h with
  | start => exact inv_start value
  | step _ ok step ih => exact ih.step ok step

/-! ### Posts that are seen, and one that is not -/

/-- In every run in which each post finds the count at zero, or a wake-up call for every
sleeper, or takers for all units, no unit is left to a sleeper. -/
theorem posted_units_seen {value : Count} (h : Reach PostOk value s) : ¬ Lost s := by
  intro lost
  obtain ⟨units, ⟨u, hu⟩, wakes, retries⟩ := lost
  have hs := number_pos hu
  have hw := number_eq_zero wakes
  have hr := number_eq_zero retries
  have seen := (Inv.reach h).seen
  unfold Seen at seen
  omega

/-- For the numerals of two threads. -/
scoped instance neZero_two : NeZero 2 := ⟨by decide⟩

/-- Thread 0 sleeps in `sem_wait` on an empty semaphore, thread 1 has posted a unit. -/
def unitPosted : Sys (Fin 2) :=
  schedule ((schedule ((start (Fin 2) 0).call 0 .wait) [0, 0]).call 1 .post) [1]

theorem posted_units_seen_one :
    (unitPosted.count = 1 ∧ (unitPosted.pc 0).sleeps = true) ∧ ¬ Lost unitPosted := by
  have reach : Reach PostOk 0 unitPosted := by
    apply Reach.schedule
    · apply Reach.step (t := 1) _ (by decide) (.call .post (by decide))
      apply Reach.schedule
      · exact Reach.start.step (by decide) (.call .wait rfl)
      · intro n t hn
        match n, hn with
        | 0, hn => cases hn; decide
        | 1, hn => cases hn; decide
    · intro n t hn
      match n, hn with
      | 0, hn => cases hn; decide
  exact ⟨by decide, posted_units_seen reach⟩

/-- Threads 0 and 1 sleep in `sem_wait` on an empty semaphore.  Threads 2 and 3 post, and
only thread 2 wakes a sleeper: thread 0, which takes one unit of the two. -/
def secondPost : Sys (Fin 4) :=
  let asleep := schedule ((schedule ((start (Fin 4) 0).call 0 .wait) [0, 0]).call 1 .wait) [1, 1]
  let posted := schedule ((schedule (asleep.call 2 .post) [2]).call 3 .post) [3, 3]
  schedule (posted.wakeUp 2 0) [2, 0, 0, 0]

/-- A unit is left to a sleeper that nobody will wake. -/
theorem second_post_lost : Reach (fun _ _ => True) 0 secondPost ∧ Lost secondPost := by
  refine ⟨?_, by decide⟩
  refine Reach.schedule ?_ _ fun _ _ _ => trivial
  apply Reach.step (t := 2) _ trivial (.wakeOne 0 (by decide) (by decide))
  refine Reach.schedule ?_ _ fun _ _ _ => trivial
  apply Reach.step (t := 3) _ trivial (.call .post (by decide))
  refine Reach.schedule ?_ _ fun _ _ _ => trivial
  apply Reach.step (t := 2) _ trivial (.call .post (by decide))
  refine Reach.schedule ?_ _ fun _ _ _ => trivial
  apply Reach.step (t := 1) _ trivial (.call .wait (by decide))
  refine Reach.schedule ?_ _ fun _ _ _ => trivial
  exact Reach.start.step trivial (.call .wait rfl)

end Bionic.Semaphore
