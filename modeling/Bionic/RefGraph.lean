import Mathlib.Data.Fintype.Card
import Mathlib.Data.Fintype.Sets
import Mathlib.Data.Fintype.EquivFin
import Mathlib.Data.List.Perm.Basic
import Mathlib.Logic.Relation
import Mathlib.Tactic.ByContra

/-! # Reference-counted graphs

Every node `y` holds the references `out y`, with repetitions; further references `E` are held
from outside.  A node is *anchored* when a chain of references leads to it from a root, *grounded*
when no infinite chain of references starts at it.

* `anchored_of_grounded`: where all nodes are grounded, every node is anchored from the outside
  references and the nodes that nothing refers to.
* `Supported.two_le_refs`: a set of nodes that supports itself loses none of them when an outside
  reference is dropped, because the count of a member is not yet down to one. -/

namespace RefGraph

variable {α : Type*} {out : α → List α}

/-! ### Counting references -/

section Count

variable [DecidableEq α]

/-- The references held by the nodes of `l`. -/
def held (out : α → List α) (l : List α) : List α := l.flatMap out

/-- The number of references to `x`, from the nodes of `l` and from outside. -/
def refs (out : α → List α) (l E : List α) (x : α) : ℕ := E.count x + (held out l).count x

omit [DecidableEq α] in
theorem mem_held {l : List α} {x : α} : x ∈ held out l ↔ ∃ y ∈ l, x ∈ out y := List.mem_flatMap

omit [DecidableEq α] in
theorem held_append (l l' : List α) : held out (l ++ l') = held out l ++ held out l' :=
  List.flatMap_append

omit [DecidableEq α] in
theorem held_congr {out' : α → List α} {l : List α} (h : ∀ y ∈ l, out' y = out y) :
    held out' l = held out l := List.flatMap_congr h

/-- Setting a node aside turns the references it holds into outside ones. -/
theorem count_held_erase {l : List α} {y : α} (hy : y ∈ l) (x : α) :
    (held out l).count x = (out y).count x + (held out (l.erase y)).count x := by
  have hp : (held out l).Perm (held out (y :: l.erase y)) :=
    (List.perm_cons_erase hy).flatMap_right out
  rw [hp.count_eq, held, List.flatMap_cons, List.count_append]
  rfl

theorem refs_erase {l E : List α} {y : α} (hy : y ∈ l) (x : α) :
    refs out (l.erase y) (out y ++ E) x = refs out l E x := by
  have h : (held out l).count x = (out y).count x + (held out (l.erase y)).count x :=
    count_held_erase hy x
  simp only [refs, List.count_append]
  omega

theorem refs_cons (l E : List α) (y x : α) :
    refs out l (y :: E) x = refs out l E x + if y = x then 1 else 0 := by
  by_cases h : y = x
  · subst h
    simp only [refs, List.count_cons_self, if_true]
    omega
  · simp [refs, h]

theorem refs_eq_zero {l E : List α} {x : α} :
    refs out l E x = 0 ↔ x ∉ E ∧ ∀ y ∈ l, x ∉ out y := by
  rw [refs, Nat.add_eq_zero_iff, List.count_eq_zero, List.count_eq_zero, mem_held]
  simp

end Count

/-! ### Grounded nodes -/

/-- `y` holds a reference to `x`. -/
def Edge (out : α → List α) (x y : α) : Prop := x ∈ out y

/-- No infinite chain of references starts at `y`. -/
def Grounded (out : α → List α) (y : α) : Prop := Acc (Edge out) y

theorem Grounded.intro {y : α} (h : ∀ x ∈ out y, Grounded out x) : Grounded out y := Acc.intro y h

/-- Inside a set that references do not leave, only the references of its nodes matter. -/
theorem Grounded.congr {out' : α → List α} {N : α → Prop}
    (hcl : ∀ y, N y → ∀ x ∈ out y, N x) (hout : ∀ y, N y → out' y = out y) {y : α}
    (h : Grounded out y) (hy : N y) : Grounded out' y := by
  induction h with
  | intro y _ ih =>
      refine Grounded.intro fun x hx => ?_
      rw [hout y hy] at hx
      exact ih x hx (hcl y hy x hx)

/-- Two nodes do not reach each other. -/
theorem Grounded.not_transGen_self {y : α} (h : Grounded out y) :
    ¬ Relation.TransGen (Edge out) y y := by
  have ht : Acc (Relation.TransGen (Edge out)) y := Acc.transGen h
  induction ht with
  | intro y _ ih =>
      intro hyy
      exact ih y hyy (Acc.inv_of_transGen h hyy) hyy

/-! ### Orders that respect references -/

/-- Every node of `l` refers only to `old` nodes and to nodes before it. -/
def Topo (out : α → List α) (old l : List α) : Prop :=
  ∀ a y b, l = a ++ y :: b → ∀ x ∈ out y, x ∈ old ∨ x ∈ a

theorem Topo.nil (old : List α) : Topo out old [] := by
  intro a y b h
  exact absurd h.symm (by simp)

theorem Topo.append {old l l' : List α} (h : Topo out old l) (h' : Topo out (old ++ l) l') :
    Topo out old (l ++ l') := by
  intro a y b he x hx
  rcases List.append_eq_append_iff.1 he with ⟨c, rfl, hc⟩ | ⟨c, rfl, hc⟩
  · rcases h' c y b hc x hx with hx | hx
    · exact (List.mem_append.1 hx).imp_right (List.mem_append_left _)
    · exact Or.inr (List.mem_append_right _ hx)
  · cases c with
    | nil =>
        rcases h' [] y b hc.symm x hx with hx | hx
        · simpa using hx
        · cases hx
    | cons z c =>
        obtain ⟨rfl, -⟩ := List.cons.inj hc
        exact h a y c rfl x hx

theorem Topo.single {old : List α} {y : α} (h : ∀ x ∈ out y, x ∈ old) : Topo out old [y] := by
  intro a z b he x hx
  rcases List.cons_eq_append_iff.1 he with ⟨rfl, hz⟩ | ⟨c, rfl, hc⟩
  · obtain ⟨rfl, -⟩ := List.cons.inj hz
    exact Or.inl (h _ hx)
  · exact absurd hc (by simp)

theorem Topo.congr {out' : α → List α} {old old' l : List α} (h : Topo out old l)
    (ho : ∀ y ∈ l, out' y = out y) (hold : ∀ y ∈ l, ∀ x ∈ out y, x ∈ old → x ∈ old') :
    Topo out' old' l := by
  rintro a y b rfl x hx
  have hy : y ∈ a ++ y :: b := by simp
  rw [ho y hy] at hx
  exact (h a y b rfl x hx).imp_left (hold y hy x hx)

/-- What a node refers to, directly or not, is old or before it, if old nodes refer to old ones. -/
theorem Topo.transGen {old l a b : List α} {x y : α} (h : Topo out old l)
    (hold : ∀ z ∈ old, ∀ w ∈ out z, w ∈ old) (hl : l = a ++ y :: b)
    (hx : Relation.TransGen (fun z w => w ∈ out z) y x) : x ∈ old ∨ x ∈ a := by
  induction hx with
  | single hx => exact h a y b hl _ hx
  | @tail z w _ hw ih =>
      rcases ih with hz | hz
      · exact Or.inl (hold z hz w hw)
      · obtain ⟨a₁, a₂, rfl⟩ := List.append_of_mem hz
        rw [List.append_assoc, List.cons_append] at hl
        exact (h a₁ z _ hl w hw).imp_right (List.mem_append_left _)

/-! ### Anchored nodes -/

/-- A chain of references leads from a root to the node. -/
inductive Anchored (out : α → List α) (root : α → Prop) : α → Prop where
  | root {x : α} : root x → Anchored out root x
  | step {x y : α} : Anchored out root y → x ∈ out y → Anchored out root x

theorem Anchored.mono {root root' : α → Prop} {x : α} (h : Anchored out root x)
    (hr : ∀ y, root y → Anchored out root' y) : Anchored out root' x := by
  induction h with
  | root hx => exact hr _ hx
  | step _ hx ih => exact .step ih hx

/-- Anchored nodes lie in every set that contains the roots and that references do not leave. -/
theorem Anchored.mem {root N : α → Prop} {x : α} (h : Anchored out root x)
    (hr : ∀ y, root y → N y) (hcl : ∀ y, N y → ∀ x ∈ out y, N x) : N x := by
  induction h with
  | root hx => exact hr _ hx
  | step _ hx ih => exact hcl _ ih _ hx

/-- Following the references to a node backwards ends, at an outside reference or at a node that
nothing refers to. -/
theorem anchored_of_grounded [DecidableEq α] {l E : List α} (hg : ∀ y ∈ l, Grounded out y) {x : α}
    (hx : x ∈ l) : Anchored out (fun z => z ∈ E ∨ z ∈ l ∧ refs out l E z = 0) x := by
  let above (a b : {x // x ∈ l}) : Prop := Relation.TransGen (Edge out) b.1 a.1
  have : IsTrans _ above := ⟨fun _ _ _ hab hbc => hbc.trans hab⟩
  have : Std.Irrefl above := ⟨fun a => (hg a.1 a.2).not_transGen_self⟩
  have : Finite {x // x ∈ l} := inferInstance
  have hwf : WellFounded above := Finite.wellFounded_of_trans_of_irrefl above
  suffices h : ∀ a : {x // x ∈ l},
      Anchored out (fun z => z ∈ E ∨ z ∈ l ∧ refs out l E z = 0) a.1 from h ⟨x, hx⟩
  intro a
  induction a using hwf.induction with
  | _ a ih =>
      by_cases hE : a.1 ∈ E
      · exact .root (Or.inl hE)
      by_cases hr : ∃ y ∈ l, a.1 ∈ out y
      · obtain ⟨y, hy, hay⟩ := hr
        exact .step (ih ⟨y, hy⟩ (.single hay)) hay
      · refine .root (Or.inr ⟨a.2, refs_eq_zero.2 ⟨hE, fun y hy hay => hr ⟨y, hy, hay⟩⟩⟩)

/-! ### Self-supporting sets -/

section Supported

variable [DecidableEq α] {l E : List α} {K : α → Prop}

/-- Every member of `K` is a node that has one of the outside references `B`, to which nothing
refers, or to which another member refers; `E` are all outside references. -/
def Supported (out : α → List α) (l E B : List α) (K : α → Prop) : Prop :=
  ∀ z, K z → z ∈ l ∧ (z ∈ B ∨ refs out l E z = 0 ∨ ∃ y, K y ∧ z ∈ out y)

theorem Supported.two_le_refs {B : List α} {x : α} (h : Supported out l (x :: E) B K)
    (hB : ∀ z ∈ B, z ∈ E) (hx : K x) : 2 ≤ refs out l (x :: E) x := by
  obtain ⟨-, hE | h0 | ⟨y, hy, hxy⟩⟩ := h x hx
  · have hc := List.count_pos_iff.2 (hB x hE)
    rw [refs_cons, refs, if_pos rfl]
    omega
  · rw [refs_cons, if_pos rfl] at h0
    omega
  · have hc := List.count_pos_iff.2 (mem_held.2 ⟨y, (h y hy).1, hxy⟩)
    rw [refs_cons, refs, if_pos rfl]
    omega

/-- Dropping references and nodes outside `K` leaves `K` supported. -/
theorem Supported.shrink {out' : α → List α} {l' E' B : List α} (h : Supported out l E B K)
    (hl : ∀ z, K z → z ∈ l') (hr : ∀ z, K z → refs out' l' E' z ≤ refs out l E z)
    (ho : ∀ z, K z → out' z = out z) : Supported out' l' E' B K := by
  intro z hz
  refine ⟨hl z hz, ?_⟩
  obtain ⟨-, hB | h0 | ⟨y, hy, hzy⟩⟩ := h z hz
  · exact Or.inl hB
  · have := hr z hz
    exact Or.inr (Or.inl (by omega))
  · exact Or.inr (Or.inr ⟨y, hy, by rwa [ho y hy]⟩)

/-- The nodes anchored from the references `B`, and from the nodes to which nothing refers,
support themselves. -/
theorem supported_anchored {B : List α} (hB : ∀ z ∈ B, z ∈ l)
    (hcl : ∀ y ∈ l, ∀ z ∈ out y, z ∈ l) :
    Supported out l E B (Anchored out fun z => z ∈ B ∨ z ∈ l ∧ refs out l E z = 0) := by
  intro z hz
  refine ⟨hz.mem (N := (· ∈ l)) (fun y hy => hy.elim (hB y) And.left) hcl, ?_⟩
  cases hz with
  | root hr => exact hr.elim Or.inl fun h => Or.inr (Or.inl h.2)
  | step hy hzy => exact Or.inr (Or.inr ⟨_, hy, hzy⟩)

end Supported

end RefGraph
