import Mathlib.Data.List.Perm.Subperm
import Mathlib.Data.Set.Lattice
import Mathlib.Logic.Relation
import Mathlib.Order.Bounds.Basic

/-! # Worklists

A worklist takes the elements of a queue one after another, and appends those successors that it has not met yet.  What
it has met in the end is the least set that contains the elements it has started with and is closed under successors
(`Inv.mem_iff`), and it ends since it never appends an element twice (`Inv.length_le`). -/

namespace Bionic.Worklist

universe u

variable {α : Type u}

/-- The set contains the start and all successors. -/
def Closed (start : Set α) (succ : α → Set α) (S : Set α) : Prop := start ⊆ S ∧ ∀ x ∈ S, succ x ⊆ S

/-- What can be reached from the start. -/
def Reach (start : Set α) (succ : α → Set α) : Set α :=
  {x | ∃ a ∈ start, Relation.ReflTransGen (fun x y => y ∈ succ x) a x}

section

variable {start : Set α} {succ : α → Set α} {x y : α}

theorem reach_start (h : x ∈ start) : x ∈ Reach start succ := ⟨x, h, .refl⟩

theorem reach_next (h : x ∈ Reach start succ) (hy : y ∈ succ x) : y ∈ Reach start succ := by
  obtain ⟨a, ha, path⟩ := h
  exact ⟨a, ha, path.tail hy⟩

theorem Closed.reach_subset {S : Set α} (closed : Closed start succ S) : Reach start succ ⊆ S := by
  rintro x ⟨a, ha, path⟩
  induction path with
  | refl => exact closed.1 ha
  | tail _ hy ih => exact closed.2 _ ih hy

theorem isLeast_reach (start : Set α) (succ : α → Set α) :
    IsLeast {S | Closed start succ S} (Reach start succ) :=
  ⟨⟨fun _ => reach_start, fun _ h _ hy => reach_next h hy⟩, fun _ closed => closed.reach_subset⟩

end

/-! ### The queue -/

/-- The queue holds the start and elements that were appended, from a finite number of them, and the successors of its
first `i` elements. -/
structure Inv (start : List α) (succ : α → Set α) (all : List α) (queue : List α) (i : ℕ) : Prop where
  reach : ∀ x ∈ queue, x ∈ Reach {x | x ∈ start} succ
  appended : ∃ extra, queue = start ++ extra ∧ extra.Nodup ∧ ∀ x ∈ extra, x ∈ all
  succs : ∀ x ∈ queue.take i, ∀ y ∈ succ x, y ∈ queue

section

variable {start all queue new : List α} {succ : α → Set α} {i : ℕ} {x : α}

theorem Inv.zero (start : List α) (succ : α → Set α) (all : List α) : Inv start succ all start 0 where
  reach _ h := reach_start h
  appended := ⟨[], (List.append_nil _).symm, .nil, nofun⟩
  succs := nofun

theorem Inv.next (inv : Inv start succ all queue i) (at_i : queue[i]? = some x) (nodup : new.Nodup)
    (fresh : ∀ y ∈ new, y ∉ queue) (known : ∀ y ∈ new, y ∈ all) (reach : ∀ y ∈ new, y ∈ Reach {x | x ∈ start} succ)
    (done : ∀ y ∈ succ x, y ∈ queue ++ new) : Inv start succ all (queue ++ new) (i + 1) where
  reach y hy := (List.mem_append.1 hy).elim (inv.reach y) (reach y)
  appended := by
    obtain ⟨extra, rfl, unique, old⟩ := inv.appended
    refine ⟨extra ++ new, List.append_assoc .., ?_, ?_⟩
    · refine List.nodup_append.2 ⟨unique, nodup, fun a ha b hb same => ?_⟩
      exact fresh b hb (List.mem_append_right _ (same ▸ ha))
    · exact fun y hy => (List.mem_append.1 hy).elim (old y) (known y)
  succs := by
    intro y hy z hz
    have lt : i < queue.length := (List.getElem?_eq_some_iff.1 at_i).1
    rw [List.take_append_of_le_length lt, List.take_add_one, at_i] at hy
    rcases List.mem_append.1 hy with old | last
    · exact List.mem_append_left _ (inv.succs y old z hz)
    · rw [List.mem_singleton.1 last] at hz
      exact done z hz

theorem Inv.length_le (inv : Inv start succ all queue i) : queue.length ≤ start.length + all.length := by
  obtain ⟨extra, rfl, unique, known⟩ := inv.appended
  rw [List.length_append]
  exact Nat.add_le_add_left (List.subperm_of_subset unique known).length_le _

/-- At the end the queue is the least closed set. -/
theorem Inv.mem_iff (inv : Inv start succ all queue i) (ended : queue.length ≤ i) :
    x ∈ queue ↔ x ∈ Reach {x | x ∈ start} succ := by
  refine ⟨inv.reach x, fun h => ?_⟩
  have closed : Closed {x | x ∈ start} succ {x | x ∈ queue} := by
    refine ⟨fun y hy => ?_, fun y hy z hz => ?_⟩
    · obtain ⟨extra, rfl, -⟩ := inv.appended
      exact List.mem_append_left _ hy
    · exact inv.succs y (by rwa [List.take_of_length_le ended]) z hz
  exact closed.reach_subset h

end

/-! ### The loop -/

section

variable {σ : Type u} (more : σ → Prop) [DecidablePred more] (step : σ → σ)

/-- A loop that goes on while there is more.  None if it has not ended after so many rounds. -/
def loop : ℕ → σ → Option σ
  | 0, _ => none
  | fuel + 1, s => if more s then loop fuel (step s) else some s

variable {more step}

/-- A loop with an invariant ends if a number falls with each round. -/
theorem loop_ends {P : σ → Prop} {m : σ → ℕ} (next : ∀ s, P s → more s → P (step s) ∧ m (step s) < m s)
    {fuel : ℕ} {s : σ} (holds : P s) (enough : m s < fuel) :
    ∃ s', loop more step fuel s = some s' ∧ P s' ∧ ¬ more s' := by
  induction fuel generalizing s with
  | zero => exact absurd enough (Nat.not_lt_zero _)
  | succ fuel ih =>
      rw [loop]
      by_cases go : more s
      · obtain ⟨holds', less⟩ := next s holds go
        rw [if_pos go]
        exact ih holds' (by omega)
      · exact ⟨s, if_neg go, holds, go⟩

end

end Bionic.Worklist
