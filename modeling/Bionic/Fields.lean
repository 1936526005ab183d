import Mathlib.Data.List.Basic

/-! # Fields of a text

A separator cuts a text into fields, one more than there are separators; all but the last one are ended by a
separator (`ended`).  Text that comes behind does not change the ended fields (`splitOn_append_eq`), and one more
symbol ends the last field or makes it longer (`splitOn_concat_self`, `splitOn_concat`). -/

namespace Bionic.Fields

variable {α : Type*} [DecidableEq α] {sep a : α} {t u c : List α}

/-- The fields of `t` that a separator ends. -/
def ended (sep : α) (t : List α) : List (List α) := (t.splitOn sep).dropLast

@[simp] theorem ended_nil (sep : α) : ended sep [] = [] := rfl

theorem ended_of_notMem (h : sep ∉ t) : ended sep t = [] := by
  rw [ended, List.splitOn_eq_singleton h]
  rfl

theorem ended_append (h : sep ∉ c) : ended sep (c ++ sep :: t) = c :: ended sep t := by
  rw [ended, List.splitOn_append_cons_self_of_not_mem h, List.dropLast_cons_of_ne_nil (List.splitOn_ne_nil sep t), ended]

theorem ended_cons (sep a : α) (t : List α) :
    ended sep (a :: t) = if a = sep then [] :: ended sep t else (ended sep t).modifyHead (List.cons a) := by
  rw [ended, List.splitOn_cons_eq_if_modifyHead]
  by_cases h : a = sep
  · rw [if_pos h, if_pos (beq_iff_eq.mpr h), List.dropLast_cons_of_ne_nil (List.splitOn_ne_nil sep t), ended]
  · rw [if_neg h, if_neg (mt beq_iff_eq.mp h), ended]
    rcases hs : t.splitOn sep with - | ⟨x, - | ⟨y, l⟩⟩ <;> rfl

theorem splitOn_eq_ended (sep : α) (t : List α) : ∃ c, t.splitOn sep = ended sep t ++ [c] :=
  ⟨_, (List.dropLast_concat_getLast (List.splitOn_ne_nil sep t)).symm⟩

/-- A text has no separator, or a first one. -/
theorem first_separator (sep : α) (t : List α) : sep ∉ t ∨ ∃ c t', sep ∉ c ∧ t = c ++ sep :: t' := by
  by_cases h : sep ∈ t
  · obtain ⟨c, t', rfl, hc⟩ := List.eq_append_cons_of_mem h
    exact Or.inr ⟨c, t', hc, rfl⟩
  · exact Or.inl h

theorem ended_eq_nil : ended sep t = [] ↔ sep ∉ t := by
  rcases first_separator sep t with h | ⟨c, t', hc, rfl⟩
  · exact iff_of_true (ended_of_notMem h) h
  · rw [ended_append hc]
    exact iff_of_false (by simp) (by simp)

/-- Induction along the separators. -/
theorem separator_induction {P : List α → Prop} (sep : α) (last : ∀ t, sep ∉ t → P t)
    (cut : ∀ c t, sep ∉ c → P t → P (c ++ sep :: t)) (t : List α) : P t := by
  induction hn : t.length using Nat.strongRecOn generalizing t with
  | ind n ih =>
    rcases first_separator sep t with h | ⟨c, t', hc, rfl⟩
    · exact last t h
    · rw [List.length_append, List.length_cons] at hn
      exact cut c t' hc (ih t'.length (by omega) t' rfl)

theorem splitOn_append_eq (sep : α) (t r : List α) : ∃ cs, (t ++ r).splitOn sep = ended sep t ++ cs := by
  induction t using separator_induction sep with
  | last t h => exact ⟨_, by rw [ended_of_notMem h, List.nil_append]⟩
  | cut c t hc ih =>
    obtain ⟨cs, hcs⟩ := ih
    refine ⟨cs, ?_⟩
    rw [List.append_assoc, List.cons_append, List.splitOn_append_cons_self_of_not_mem hc, hcs, ended_append hc,
      List.cons_append]

theorem splitOn_concat_self (sep : α) (u : List α) : (u ++ [sep]).splitOn sep = u.splitOn sep ++ [[]] :=
  List.splitOn_append_cons_self u []

theorem splitOn_concat (ha : a ≠ sep) (u : List α) : ∃ x, (u ++ [a]).splitOn sep = ended sep u ++ [x ++ [a]] := by
  induction u using separator_induction sep with
  | last u h =>
    refine ⟨u, ?_⟩
    rw [ended_of_notMem h, List.nil_append, List.splitOn_eq_singleton]
    simp [h, Ne.symm ha]
  | cut c u hc ih =>
    obtain ⟨x, hx⟩ := ih
    refine ⟨x, ?_⟩
    rw [List.append_assoc, List.cons_append, List.splitOn_append_cons_self_of_not_mem hc, hx, ended_append hc,
      List.cons_append]

end Bionic.Fields
