import Mathlib.Data.Nat.Notation
import Mathlib.Logic.Relation

/-! # Loops

A loop is a step on its states that either goes on, to a next state, or ends with a result.  It may go on for ever:
`run` is bounded by a number of steps, and `Returns` says that some number is enough. -/

namespace Iterate

variable {σ α : Type*} (step : σ → σ ⊕ α)

/-- The result within `n` steps. -/
def run : ℕ → σ → Option α
  | 0, _ => none
  | n + 1, s =>
    match step s with
    | .inl s' => run n s'
    | .inr a => some a

/-- The loop ends with `a`. -/
def Returns (s : σ) (a : α) : Prop := ∃ n, run step n s = some a

/-- The loop comes from `s` to `s'`. -/
def Leads : σ → σ → Prop := Relation.ReflTransGen fun s s' => step s = .inl s'

variable {step} {s s' t : σ} {a b : α}

theorem run_done (h : step s = .inr a) (n : ℕ) : run step (n + 1) s = some a := by rw [run, h]

theorem run_next (h : step s = .inl s') (n : ℕ) : run step (n + 1) s = run step n s' := by rw [run, h]

theorem Returns.done (h : step s = .inr a) : Returns step s a := ⟨1, run_done h 0⟩

theorem returns_done_iff (h : step s = .inr a) : Returns step s b ↔ b = a := by
  constructor
  · rintro ⟨n, hn⟩
    cases n with
    | zero => cases hn
    | succ n => exact (Option.some.inj ((run_done h n).symm.trans hn)).symm
  · rintro rfl
    exact .done h

theorem returns_next_iff (h : step s = .inl s') : Returns step s a ↔ Returns step s' a := by
  constructor
  · rintro ⟨n, hn⟩
    cases n with
    | zero => cases hn
    | succ n => exact ⟨n, (run_next h n).symm.trans hn⟩
  · rintro ⟨n, hn⟩
    exact ⟨n + 1, (run_next h n).trans hn⟩

@[refl] theorem Leads.refl (s : σ) : Leads step s s := Relation.ReflTransGen.refl

theorem Leads.trans (h : Leads step s s') (h' : Leads step s' t) : Leads step s t := Relation.ReflTransGen.trans h h'

theorem Leads.next (h : step s = .inl s') (ht : Leads step s' t) : Leads step s t := Relation.ReflTransGen.head h ht

theorem Leads.returns_iff (h : Leads step s t) : Returns step s a ↔ Returns step t a := by
  induction h using Relation.ReflTransGen.head_induction_on with
  | refl => rfl
  | head hs _ ih => exact (returns_next_iff hs).trans ih

/-- A loop comes to the state in which it ends from every state on its way. -/
theorem Leads.to_end (h : Leads step s t) (ht : step t = .inr a) (hu : Leads step s s') : Leads step s' t := by
  have unique : Relator.RightUnique fun s s' : σ => step s = .inl s' := fun _ _ _ h h' => Sum.inl.inj (h.symm.trans h')
  rcases Relation.ReflTransGen.total_of_right_unique unique h hu with hback | hto
  · rcases Relation.ReflTransGen.cases_head hback with rfl | ⟨t', ht', -⟩
    · exact .refl t
    · cases ht.symm.trans ht'
  · exact hto

theorem Returns.exists_end (h : Returns step s a) : ∃ t, Leads step s t ∧ step t = .inr a := by
  obtain ⟨n, hn⟩ := h
  induction n generalizing s with
  | zero => cases hn
  | succ n ih =>
    cases hstep : step s with
    | inl s' =>
      obtain ⟨t, ht, hend⟩ := ih ((run_next hstep n).symm.trans hn)
      exact ⟨t, .next hstep ht, hend⟩
    | inr b => exact ⟨s, .refl s, hstep.trans (congrArg _ (Option.some.inj ((run_done hstep n).symm.trans hn)))⟩

theorem Returns.unique (h : Returns step s a) (h' : Returns step s b) : a = b := by
  obtain ⟨t, hlead, hend⟩ := h.exists_end
  exact ((returns_done_iff hend).mp (hlead.returns_iff.mp h')).symm

/-- A loop inside of another one. -/
theorem Leads.lift {τ β : Type*} {step' : τ → τ ⊕ β} (g : σ → τ)
    (hg : ∀ s s', step s = .inl s' → step' (g s) = .inl (g s')) (h : Leads step s s') : Leads step' (g s) (g s') := by
  induction h using Relation.ReflTransGen.head_induction_on with
  | refl => exact .refl _
  | head hs _ ih => exact .next (hg _ _ hs) ih

/-- What a loop that keeps an invariant returns. -/
theorem Returns.of_invariant {I : σ → Prop} {Q : α → Prop} (h : Returns step s a)
    (hI : ∀ s, I s → (∀ s', step s = .inl s' → I s') ∧ ∀ a, step s = .inr a → Q a) (hs : I s) : Q a := by
  obtain ⟨n, hn⟩ := h
  induction n generalizing s with
  | zero => cases hn
  | succ n ih =>
    cases hstep : step s with
    | inl s' => exact ih ((hI s hs).1 s' hstep) ((run_next hstep n).symm.trans hn)
    | inr b =>
      rw [← Option.some.inj ((run_done hstep n).symm.trans hn)]
      exact (hI s hs).2 b hstep

/-- A loop that keeps an invariant and decreases a measure ends. -/
theorem exists_returns {I : σ → Prop} {Q : α → Prop} (μ : σ → ℕ)
    (hI : ∀ s, I s → (∃ a, step s = .inr a ∧ Q a) ∨ ∃ s', step s = .inl s' ∧ I s' ∧ μ s' < μ s) (hs : I s) :
    ∃ a, Returns step s a ∧ Q a := by
  induction hm : μ s using Nat.strongRecOn generalizing s with
  | _ m ih =>
    rcases hI s hs with ⟨a, ha, hq⟩ | ⟨s', hs', hi, hlt⟩
    · exact ⟨a, .done ha, hq⟩
    · obtain ⟨a, ha, hq⟩ := ih (μ s') (hm ▸ hlt) hi rfl
      exact ⟨a, (returns_next_iff hs').mpr ha, hq⟩

/-- A loop that keeps an invariant and decreases a measure comes to its goal. -/
theorem exists_leads {I P : σ → Prop} (μ : σ → ℕ) (hI : ∀ s, I s → P s ∨ ∃ s', step s = .inl s' ∧ I s' ∧ μ s' < μ s)
    (hs : I s) : ∃ t, Leads step s t ∧ I t ∧ P t := by
  induction hm : μ s using Nat.strongRecOn generalizing s with
  | _ m ih =>
    rcases hI s hs with hp | ⟨s', hs', hi, hlt⟩
    · exact ⟨s, .refl s, hs, hp⟩
    · obtain ⟨t, ht, hit, hpt⟩ := ih (μ s') (hm ▸ hlt) hi rfl
      exact ⟨t, .next hs' ht, hit, hpt⟩

/-- A loop that can always go on does not end. -/
theorem not_returns {I : σ → Prop} (hI : ∀ s, I s → ∃ s', step s = .inl s' ∧ I s') (hs : I s) : ¬ Returns step s a := by
  rintro ⟨n, hn⟩
  induction n generalizing s with
  | zero => cases hn
  | succ n ih =>
    obtain ⟨s', hs', hi⟩ := hI s hs
    exact ih hi ((run_next hs' n).symm.trans hn)

theorem not_returns_of_fixed (h : step s = .inl s) : ¬ Returns step s a := by
  refine not_returns (I := (· = s)) ?_ rfl
  rintro _ rfl
  exact ⟨_, h, rfl⟩

end Iterate
