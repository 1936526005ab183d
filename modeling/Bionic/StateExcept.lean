import Mathlib.Tactic.Basic
import Mathlib.Data.Nat.Notation

/-! # Total correctness for stateful programs that can fault

A program of type `StateT σ (Except ε) α` reads and writes a state and may stop with a fault.
`Total x s Q` says that `x`, started in `s`, does not fault and ends with a value and a state that
satisfy `Q`.  Specifications have the form `Pre s → Total x s Q`; the rules below take a program
apart along its `do` block.

Programs without a state, of type `Except ε α`, are taken apart by what their success implies. -/

namespace StateExcept

universe u

variable {σ ε α β : Type u}

/-- `x` run from `s` returns `a` in `s'`. -/
def Returns (x : StateT σ (Except ε) α) (s : σ) (a : α) (s' : σ) : Prop := x s = .ok (a, s')

/-- `x` run from `s` returns, with a result that satisfies `Q`. -/
def Total (x : StateT σ (Except ε) α) (s : σ) (Q : α → σ → Prop) : Prop :=
  ∃ a s', Returns x s a s' ∧ Q a s'

theorem Total.mono {x : StateT σ (Except ε) α} {s : σ} {P Q : α → σ → Prop} (h : Total x s P)
    (hpq : ∀ a s', P a s' → Q a s') : Total x s Q := by
  obtain ⟨a, s', hx, hp⟩ := h
  exact ⟨a, s', hx, hpq a s' hp⟩

theorem Total.of_returns {x : StateT σ (Except ε) α} {s s' : σ} {a : α} {Q : α → σ → Prop}
    (h : Total x s Q) (hx : Returns x s a s') : Q a s' := by
  obtain ⟨b, t, hb, hq⟩ := h
  have he : (b, t) = (a, s') := Except.ok.inj (hb.symm.trans hx)
  cases he
  exact hq

theorem Returns.total {x : StateT σ (Except ε) α} {s s' : σ} {a : α} {Q : α → σ → Prop}
    (hx : Returns x s a s') (hq : Q a s') : Total x s Q := ⟨a, s', hx, hq⟩

/-! ### Rules -/

@[simp] theorem total_pure {a : α} {s : σ} {Q : α → σ → Prop} :
    Total (ε := ε) (pure a) s Q ↔ Q a s := by
  constructor
  · intro h
    exact h.of_returns rfl
  · intro hq
    exact ⟨a, s, rfl, hq⟩

theorem returns_bind {x : StateT σ (Except ε) α} {f : α → StateT σ (Except ε) β} {s t s' : σ}
    {a : α} {b : β} (hx : Returns x s a t) (hf : Returns (f a) t b s') :
    Returns (x >>= f) s b s' := by
  have h : (x >>= f) s = (x s).bind fun p => f p.1 p.2 := rfl
  rw [Returns, h, hx]
  exact hf

theorem total_bind {x : StateT σ (Except ε) α} {f : α → StateT σ (Except ε) β} {s : σ}
    {Q : β → σ → Prop} (h : Total x s fun a s' => Total (f a) s' Q) : Total (x >>= f) s Q := by
  obtain ⟨a, t, hx, b, s', hf, hq⟩ := h
  exact ⟨b, s', returns_bind hx hf, hq⟩

@[simp] theorem total_get {s : σ} {Q : σ → σ → Prop} :
    Total (ε := ε) (get : StateT σ (Except ε) σ) s Q ↔ Q s s := by
  constructor
  · intro h
    exact h.of_returns rfl
  · intro hq
    exact ⟨s, s, rfl, hq⟩

@[simp] theorem total_modify {g : σ → σ} {s : σ} {Q : PUnit → σ → Prop} :
    Total (ε := ε) (modify g : StateT σ (Except ε) PUnit) s Q ↔ Q ⟨⟩ (g s) := by
  constructor
  · intro h
    exact h.of_returns rfl
  · intro hq
    exact ⟨⟨⟩, g s, rfl, hq⟩

/-! ### Programs without a state -/

section Pure

variable {ε α β : Type u}

@[simp] theorem bind_eq_ok {x : Except ε α} {f : α → Except ε β} {b : β} :
    (x >>= f) = .ok b ↔ ∃ a, x = .ok a ∧ f a = .ok b := by
  cases x <;> simp [bind, Except.bind]

@[simp] theorem pure_eq_ok {a b : α} : (pure a : Except ε α) = .ok b ↔ a = b := by
  simp [pure, Except.pure]

@[simp] theorem throw_ne_ok {e : ε} {a : α} : (throw e : Except ε α) ≠ .ok a := by
  simp [throw, throwThe, MonadExceptOf.throw]

/-- A check that throws does not stop a run that succeeds. -/
theorem guard_eq_ok {c : Prop} [Decidable c] {e : ε} {f : α → Except ε β} {x : Except ε β} {b : β} :
    (if c then throw e >>= f else x) = .ok b ↔ ¬ c ∧ x = .ok b := by
  by_cases h : c
  · rw [if_pos h]
    constructor
    · intro run
      obtain ⟨_, stops, -⟩ := bind_eq_ok.1 run
      exact absurd stops throw_ne_ok
    · rintro ⟨hn, -⟩
      exact absurd h hn
  · rw [if_neg h]
    exact (and_iff_right h).symm

@[simp] theorem map_eq_ok {x : Except ε α} {f : α → β} {b : β} :
    (f <$> x) = .ok b ↔ ∃ a, x = .ok a ∧ f a = b := by
  cases x <;> simp [Functor.map, Except.map]

theorem ok_bind {a : α} {f : α → Except ε β} : (Except.ok a >>= f) = f a := rfl

theorem error_bind {e : ε} {f : α → Except ε β} : (Except.error e >>= f) = .error e := rfl

/-- What every element of a list preserves, a loop over the list preserves. -/
theorem foldlM_invariant {f : β → α → Except ε β} {I : β → Prop} {l : List α} {s s' : β}
    (hrun : l.foldlM f s = .ok s') (hs : I s)
    (hstep : ∀ a ∈ l, ∀ t t', I t → f t a = .ok t' → I t') : I s' := by
  induction l generalizing s with
  | nil =>
      rw [List.foldlM_nil, pure_eq_ok] at hrun
      rwa [← hrun]
  | cons a l ih =>
      rw [List.foldlM_cons, bind_eq_ok] at hrun
      obtain ⟨t, ha, hl⟩ := hrun
      apply ih hl (hstep a List.mem_cons_self s t hs ha)
      exact fun b hb => hstep b (List.mem_cons_of_mem _ hb)

/-- A loop whose steps all return returns. -/
theorem exists_foldlM_ok {f : β → α → Except ε β} {l : List α} (hstep : ∀ a ∈ l, ∀ s, ∃ s', f s a = .ok s') (s : β) :
    ∃ s', l.foldlM f s = .ok s' := by
  induction l generalizing s with
  | nil => exact ⟨s, rfl⟩
  | cons a l ih =>
      obtain ⟨t, ht⟩ := hstep a List.mem_cons_self s
      obtain ⟨s', hs'⟩ := ih (fun b hb => hstep b (List.mem_cons_of_mem _ hb)) t
      exact ⟨s', by rw [List.foldlM_cons, ht]; exact hs'⟩

/-- A loop over a list that has `a` in it passes through a step for `a`. -/
theorem foldlM_append_cons {f : β → α → Except ε β} {l₁ l₂ : List α} {a : α} {s s' : β}
    (hrun : (l₁ ++ a :: l₂).foldlM f s = .ok s') :
    ∃ t t', l₁.foldlM f s = .ok t ∧ f t a = .ok t' ∧ l₂.foldlM f t' = .ok s' := by
  rw [List.foldlM_append, bind_eq_ok] at hrun
  obtain ⟨t, h₁, hrun⟩ := hrun
  rw [List.foldlM_cons, bind_eq_ok] at hrun
  obtain ⟨t', ha, h₂⟩ := hrun
  exact ⟨t, t', h₁, ha, h₂⟩

theorem exists_ok_of_isOk {x : Except ε α} (h : x.isOk = true) : ∃ a, x = .ok a := by
  cases x with
  | error e => cases h
  | ok a => exact ⟨a, rfl⟩

/-- A run that is evaluated. -/
theorem exists_ok_of_any {x : Except ε α} {p : α → Bool} (h : x.toOption.any p = true) :
    ∃ a, x = .ok a ∧ p a = true := by
  cases x with
  | error e => cases h
  | ok a => exact ⟨a, rfl, h⟩

/-- `x` returns a value that satisfies `Q`, or stops with one of the faults `A`. -/
def Ends (A : ε → Prop) (x : Except ε α) (Q : α → Prop) : Prop :=
  match x with
  | .ok a => Q a
  | .error e => A e

section Ends

variable {A : ε → Prop} {x : Except ε α} {P Q : α → Prop}

@[simp] theorem ends_pure {a : α} : Ends A (pure a) Q ↔ Q a := Iff.rfl

@[simp] theorem ends_ok {a : α} : Ends A (.ok a) Q ↔ Q a := Iff.rfl

@[simp] theorem ends_throw {e : ε} : Ends A (throw e) Q ↔ A e := Iff.rfl

@[simp] theorem ends_error {e : ε} : Ends A (.error e) Q ↔ A e := Iff.rfl

theorem Ends.mono (h : Ends A x P) (hpq : ∀ a, P a → Q a) : Ends A x Q := by
  cases x with
  | error e => exact h
  | ok a => exact hpq a h

theorem Ends.bind {f : α → Except ε β} {R : β → Prop} (h : Ends A x P) (hf : ∀ a, P a → Ends A (f a) R) :
    Ends A (x >>= f) R := by
  cases x with
  | error e => exact h
  | ok a => exact hf a h

theorem Ends.of_ok {a : α} (h : Ends A x Q) (hx : x = .ok a) : Q a := by
  rw [hx] at h
  exact h

theorem Ends.of_error {e : ε} (h : Ends A x Q) (hx : x = .error e) : A e := by
  rw [hx] at h
  exact h

end Ends

end Pure

end StateExcept
