import Mathlib.Data.List.Nodup
import Mathlib.Logic.Function.Basic

/-! # Lists linked through a field

`Seg next p l q` says that following the pointers `next` from `p` one meets the nodes `l` and arrives
at `q`.  A list that ends in a null pointer (`q = none`) has no cycle and no node twice
(`Seg.nodup`).  The other lemmas are about assignments to the field: a list that does not contain the
node is unchanged, and appending, removing and pushing a node change it as they should.

`Doubly` is a list linked in both directions, from its first and from its last node.  In `Hooked` the back
link of a node is the address of the pointer it hangs on, that is of the head or of a field `next`. -/

namespace LinkedList

variable {α : Type} {next next' : α → Option α} {p q : Option α} {a x : α} {l r : List α}

/-- From `p` through the nodes `l` to `q`. -/
def Seg (next : α → Option α) : Option α → List α → Option α → Prop
  | p, [], q => p = q
  | p, a :: l, q => p = some a ∧ Seg next (next a) l q

@[simp] theorem seg_nil : Seg next p [] q ↔ p = q := Iff.rfl

@[simp] theorem seg_cons : Seg next p (a :: l) q ↔ p = some a ∧ Seg next (next a) l q := Iff.rfl

theorem seg_append : Seg next p (l ++ r) q ↔ ∃ m, Seg next p l m ∧ Seg next m r q := by
  induction l generalizing p with
  | nil => simp
  | cons a l ih =>
      rw [List.cons_append, seg_cons, ih]
      constructor
      · rintro ⟨hp, m, hl, hr⟩
        exact ⟨m, ⟨hp, hl⟩, hr⟩
      · rintro ⟨m, ⟨hp, hl⟩, hr⟩
        exact ⟨hp, m, hl, hr⟩

theorem seg_middle : Seg next p (l ++ a :: r) q ↔ Seg next p l (some a) ∧ Seg next (next a) r q := by
  rw [seg_append]
  constructor
  · rintro ⟨m, hl, rfl, hr⟩
    exact ⟨hl, hr⟩
  · rintro ⟨hl, hr⟩
    exact ⟨some a, hl, rfl, hr⟩

namespace Seg

/-- Assignments to the field of other nodes do not matter. -/
theorem congr (h : Seg next p l q) (hn : ∀ a ∈ l, next' a = next a) : Seg next' p l q := by
  induction l generalizing p with
  | nil => exact h
  | cons a l ih =>
      refine ⟨h.1, ?_⟩
      rw [hn a List.mem_cons_self]
      exact ih h.2 fun b hb => hn b (List.mem_cons_of_mem _ hb)

theorem update [DecidableEq α] (h : Seg next p l q) (hx : x ∉ l) (m : Option α) :
    Seg (Function.update next x m) p l q := by
  refine h.congr fun a ha => ?_
  have hne : a ≠ x := fun he => hx (he ▸ ha)
  exact Function.update_of_ne hne _ _

theorem eq_head? (h : Seg next p l none) : p = l.head? := by
  cases l with
  | nil => exact h
  | cons a l => exact h.1

/-- The nodes up to a null pointer are determined by where one starts. -/
theorem unique (h : Seg next p l none) (h' : Seg next p r none) : l = r := by
  induction l generalizing p r with
  | nil =>
      cases r with
      | nil => rfl
      | cons b r =>
          rw [seg_nil] at h
          rw [h] at h'
          cases h'.1
  | cons a l ih =>
      cases r with
      | nil =>
          rw [seg_nil] at h'
          rw [h'] at h
          cases h.1
      | cons b r =>
          obtain rfl : a = b := Option.some.inj (h.1.symm.trans h'.1)
          rw [ih h.2 h'.2]

/-- A node met twice would be met again and again. -/
theorem nodup (h : Seg next p l none) : l.Nodup := by
  induction l generalizing p with
  | nil => exact List.nodup_nil
  | cons a l ih =>
      refine List.nodup_cons.2 ⟨fun ha => ?_, ih h.2⟩
      obtain ⟨l₁, l₂, rfl⟩ := List.append_of_mem ha
      have he := h.2.unique (seg_middle.1 h.2).2
      have hlen := congrArg List.length he
      rw [List.length_append, List.length_cons] at hlen
      omega

/-- `x` becomes the node behind the last one. -/
theorem push_back [DecidableEq α] (h : Seg next p (l ++ [a]) none) (hx : x ∉ l ++ [a]) :
    Seg (Function.update (Function.update next a (some x)) x none) p (l ++ [a] ++ [x]) none := by
  have hn := List.nodup_append.1 h.nodup
  have ha : a ∉ l := fun ha => hn.2.2 a ha a List.mem_cons_self rfl
  have hxl : x ∉ l := fun hm => hx (List.mem_append_left _ hm)
  have hxa : a ≠ x := fun he => hx (he ▸ List.mem_append_right _ List.mem_cons_self)
  rw [List.append_assoc, List.singleton_append, seg_middle]
  refine ⟨((seg_middle.1 h).1.update ha _).update hxl _, ?_, ?_⟩
  · rw [Function.update_of_ne hxa, Function.update_self]
  · rw [Function.update_self]
    rfl

/-- The node `x` behind `a` is taken out. -/
theorem unlink [DecidableEq α] (h : Seg next p (l ++ a :: x :: r) none) :
    Seg (Function.update next a (next x)) p (l ++ a :: r) none := by
  have hn := List.nodup_append.1 h.nodup
  have hal : a ∉ l := fun ha => hn.2.2 a ha a List.mem_cons_self rfl
  have har : a ∉ r := fun ha => (List.nodup_cons.1 hn.2.1).1 (List.mem_cons_of_mem _ ha)
  obtain ⟨hl, -, hr⟩ := seg_middle.1 h
  rw [seg_middle, Function.update_self]
  exact ⟨hl.update hal _, hr.update har _⟩

/-- `x` becomes the first node. -/
theorem push_front [DecidableEq α] (h : Seg next p l q) (hx : x ∉ l) :
    Seg (Function.update next x p) (some x) (x :: l) q := by
  refine ⟨rfl, ?_⟩
  rw [Function.update_self]
  exact h.update hx p

end Seg

/-! ### Lists linked in both directions -/

/-- The list `l` is met forwards from `head` and backwards from `tail`. -/
structure Doubly (next prev : α → Option α) (head tail : Option α) (l : List α) : Prop where
  forward : Seg next head l none
  backward : Seg prev tail l.reverse none

namespace Doubly

variable {prev : α → Option α} {head tail : Option α}

theorem nodup (h : Doubly next prev head tail l) : l.Nodup := h.forward.nodup

theorem tail_eq (h : Doubly next prev head tail l) : tail = l.getLast? := by
  rw [h.backward.eq_head?, List.head?_reverse]

/-- Assignments to the fields of nodes outside the list do not matter. -/
theorem congr {prev' : α → Option α} (h : Doubly next prev head tail l)
    (hn : ∀ a ∈ l, next' a = next a) (hp : ∀ a ∈ l, prev' a = prev a) :
    Doubly next' prev' head tail l :=
  ⟨h.forward.congr hn, h.backward.congr fun a ha => hp a (List.mem_reverse.1 ha)⟩

/-- `x` becomes the node behind the last one. -/
theorem push_back [DecidableEq α] (h : Doubly next prev head (some a) (l ++ [a])) (hx : x ∉ l ++ [a]) :
    Doubly (Function.update (Function.update next a (some x)) x none)
      (Function.update prev x (some a)) head (some x) (l ++ [a] ++ [x]) := by
  refine ⟨h.forward.push_back hx, ?_⟩
  rw [List.reverse_concat]
  exact h.backward.push_front fun hm => hx (List.mem_reverse.1 hm)

theorem prev_eq (h : Doubly next prev head tail (l ++ a :: x :: r)) : prev x = some a := by
  have hb := h.backward
  simp only [List.reverse_append, List.reverse_cons, List.append_assoc, List.singleton_append] at hb
  exact (seg_middle.1 hb).2.1

theorem next_eq (h : Doubly next prev head tail (l ++ x :: r)) : next x = r.head? :=
  (seg_middle.1 h.forward).2.eq_head?

/-- The last node `x` is taken out. -/
theorem unlink_last [DecidableEq α] (h : Doubly next prev head tail (l ++ [a] ++ [x])) :
    Doubly (Function.update next a (next x)) prev head (prev x) (l ++ [a]) := by
  have hf := h.forward
  rw [List.append_assoc] at hf
  refine ⟨hf.unlink, ?_⟩
  have hb := h.backward
  rw [List.reverse_concat] at hb
  exact hb.2

/-- The node `x` between `a` and `b` is taken out. -/
theorem unlink_middle [DecidableEq α] {b : α} (h : Doubly next prev head tail (l ++ a :: x :: b :: r)) :
    Doubly (Function.update next a (next x)) (Function.update prev b (prev x)) head tail
      (l ++ a :: b :: r) := by
  refine ⟨h.forward.unlink, ?_⟩
  have hb := h.backward
  simp only [List.reverse_append, List.reverse_cons, List.append_assoc, List.singleton_append] at hb ⊢
  exact hb.unlink

end Doubly

/-! ### Lists whose back links are addresses of pointers -/

/-- The address of a pointer of the list. -/
inductive Link (α : Type)
  | head
  | next (a : α)
deriving DecidableEq, Repr

/-- The pointers of such a list. -/
structure Hooks (α : Type) where
  head : Option α
  next : α → Option α
  pref : α → Option (Link α)

namespace Hooks

variable [DecidableEq α] (s : Hooks α)

def load (s : Hooks α) : Link α → Option α
  | .head => s.head
  | .next a => s.next a

def store : Link α → Option α → Hooks α
  | .head, v => { s with head := v }
  | .next a, v => { s with next := Function.update s.next a v }

def setNext (a : α) (v : Option α) : Hooks α := s.store (.next a) v

def setPref (a : α) (k : Option (Link α)) : Hooks α := { s with pref := Function.update s.pref a k }

@[simp] theorem store_pref (k : Link α) (v : Option α) : (s.store k v).pref = s.pref := by
  cases k <;> rfl

@[simp] theorem setPref_pref (a : α) (k : Option (Link α)) :
    (s.setPref a k).pref = Function.update s.pref a k := rfl

@[simp] theorem setPref_next (a : α) (k : Option (Link α)) : (s.setPref a k).next = s.next := rfl

end Hooks

/-- The nodes `l` hang one on the other, the first one on `k`. -/
def Backs (pref : α → Option (Link α)) : Link α → List α → Prop
  | _, [] => True
  | k, a :: l => pref a = some k ∧ Backs pref (.next a) l

/-- The pointer behind the last node of `l`, which starts at `k`. -/
def lastLink : Link α → List α → Link α
  | k, [] => k
  | _, a :: l => lastLink (.next a) l

/-- The list `l` is met forwards from the head, and each of its nodes points back at its link. -/
structure Hooked (s : Hooks α) (l : List α) : Prop where
  forward : Seg s.next s.head l none
  backward : Backs s.pref .head l

theorem backs_append {pref : α → Option (Link α)} {k : Link α} :
    Backs pref k (l ++ r) ↔ Backs pref k l ∧ Backs pref (lastLink k l) r := by
  induction l generalizing k with
  | nil => simp [Backs, lastLink]
  | cons a l ih => rw [List.cons_append, Backs, Backs, ih, lastLink, and_assoc]

theorem Backs.congr {pref pref' : α → Option (Link α)} {k : Link α} (h : Backs pref k l)
    (hp : ∀ a ∈ l, pref' a = pref a) : Backs pref' k l := by
  induction l generalizing k with
  | nil => trivial
  | cons a l ih =>
      refine ⟨(hp a List.mem_cons_self).trans h.1, ?_⟩
      exact ih h.2 fun b hb => hp b (List.mem_cons_of_mem _ hb)

theorem Backs.update [DecidableEq α] {pref : α → Option (Link α)} {k : Link α} (h : Backs pref k l)
    (hx : x ∉ l) (m : Option (Link α)) : Backs (Function.update pref x m) k l := by
  refine h.congr fun a ha => ?_
  have hne : a ≠ x := fun he => hx (he ▸ ha)
  exact Function.update_of_ne hne _ _

/-- The link behind `l` is the head, or a field of a node of `l`. -/
theorem lastLink_cases (k : Link α) (l : List α) :
    l = [] ∧ lastLink k l = k ∨ ∃ l' a, l = l' ++ [a] ∧ lastLink k l = .next a := by
  induction l generalizing k with
  | nil => exact .inl ⟨rfl, rfl⟩
  | cons b l ih =>
      right
      cases ih (.next b) with
      | inl h => exact ⟨[], b, by rw [h.1]; rfl, h.2⟩
      | inr h =>
          obtain ⟨l', a, hl, hk⟩ := h
          exact ⟨b :: l', a, by rw [hl]; rfl, hk⟩

namespace Hooked

variable [DecidableEq α] {s : Hooks α}

omit [DecidableEq α] in
theorem nodup (h : Hooked s l) : l.Nodup := h.forward.nodup

omit [DecidableEq α] in
theorem next_eq (h : Hooked s (l ++ x :: r)) : s.next x = r.head? :=
  (seg_middle.1 h.forward).2.eq_head?

omit [DecidableEq α] in
theorem pref_eq (h : Hooked s (l ++ x :: r)) : s.pref x = some (lastLink .head l) :=
  (backs_append.1 h.backward).2.1

omit [DecidableEq α] in
/-- The link a node points back at leads to that node. -/
theorem load_pref (h : Hooked s l) (hx : x ∈ l) : ∃ k, s.pref x = some k ∧ s.load k = some x := by
  obtain ⟨l₁, r, rfl⟩ := List.append_of_mem hx
  refine ⟨_, h.pref_eq, ?_⟩
  cases lastLink_cases .head l₁ with
  | inl e =>
      rw [e.2]
      rw [e.1] at h
      exact h.forward.1
  | inr e =>
      obtain ⟨l', a, rfl, hk⟩ := e
      rw [hk]
      rw [List.append_assoc] at h
      exact h.next_eq

/-- `x` becomes the first node, and the old first node hangs on it. -/
theorem push_front (h : Hooked s l) (hx : x ∉ l) {pref : α → Option (Link α)} (self : pref x = some .head)
    (first : ∀ a, s.head = some a → pref a = some (.next x))
    (other : ∀ a ∈ l, s.head ≠ some a → pref a = s.pref a) :
    Hooked ⟨some x, Function.update s.next x s.head, pref⟩ (x :: l) := by
  refine ⟨h.forward.push_front hx, self, ?_⟩
  cases l with
  | nil => trivial
  | cons a l =>
      have hd : s.head = some a := h.forward.1
      refine ⟨first a hd, h.backward.2.congr fun b hb => ?_⟩
      apply other b (List.mem_cons_of_mem a hb)
      rw [hd]
      intro e
      obtain rfl := Option.some.inj e
      exact (List.nodup_cons.1 h.nodup).1 hb

/-- The node `x` in front of `b` is taken out. -/
theorem unlink {b : α} (h : Hooked s (l ++ x :: b :: r)) :
    Hooked ((s.setPref b (s.pref x)).store (lastLink .head l) (some b)) (l ++ b :: r) := by
  have hn := List.nodup_append.1 h.nodup
  have hbl : b ∉ l := fun hb => hn.2.2 b hb b (List.mem_cons_of_mem _ List.mem_cons_self) rfl
  have hbr : b ∉ r := (List.nodup_cons.1 (List.nodup_cons.1 hn.2.1).2).1
  have back := backs_append.1 h.backward
  have hx : s.pref x = some (lastLink .head l) := back.2.1
  have hb : s.next x = some b := h.next_eq
  refine ⟨?_, ?_⟩
  · cases lastLink_cases .head l with
    | inl e =>
        obtain ⟨rfl, hk⟩ := e
        rw [hk]
        exact ⟨rfl, h.forward.2.2⟩
    | inr e =>
        obtain ⟨l', a, rfl, hk⟩ := e
        rw [hk]
        have forward := h.forward
        rw [List.append_assoc, List.singleton_append] at forward ⊢
        have cut := forward.unlink
        rw [hb] at cut
        exact cut
  · rw [Hooks.store_pref, Hooks.setPref_pref, backs_append]
    refine ⟨back.1.update hbl _, ?_, back.2.2.2.update hbr _⟩
    rw [Function.update_self, hx]

end Hooked

end LinkedList
