import Mathlib.Data.List.Nodup
import Mathlib.Logic.Function.Basic

/-! # Rings linked in both directions

`Ring next prev s l` says that following `next` from the node `s` one meets the nodes `l` and arrives at `s` again, and
that following `prev` one meets them the other way round.  The node `s` is usually the head of a list, which is in the
ring but not an element.  `Ring.push_front` and `Ring.remove` are about the assignments that link a node in behind the
head, and that take a node out. -/

namespace LinkedRing

variable {α : Type} {next prev next' prev' : α → α} {a b c s x : α} {l r : List α}

/-- From `a` through the nodes `l` to `b`, and back. -/
def Path (next prev : α → α) : α → List α → α → Prop
  | a, [], b => next a = b ∧ prev b = a
  | a, c :: l, b => (next a = c ∧ prev c = a) ∧ Path next prev c l b

theorem path_append : Path next prev a (l ++ c :: r) b ↔ Path next prev a l c ∧ Path next prev c r b := by
  induction l generalizing a with
  | nil => rfl
  | cons d l ih => rw [List.cons_append, Path, Path, ih, and_assoc (c := Path next prev c r b)]

namespace Path

theorem next_mem (h : Path next prev a l b) : next a ∈ l ++ [b] := by
  cases l with
  | nil => rw [h.1]; exact List.mem_cons_self
  | cons c l => rw [h.1.1]; exact List.mem_cons_self

theorem prev_mem (h : Path next prev a l b) : prev b ∈ a :: l := by
  induction l generalizing a with
  | nil => rw [h.2]; exact List.mem_cons_self
  | cons c l ih => exact List.mem_cons_of_mem a (ih h.2)

/-- Assignments to the fields of other nodes do not matter. -/
theorem congr (h : Path next prev a l b) (hn : ∀ c ∈ a :: l, next' c = next c)
    (hp : ∀ c ∈ l ++ [b], prev' c = prev c) : Path next' prev' a l b := by
  induction l generalizing a with
  | nil => exact ⟨(hn a List.mem_cons_self).trans h.1, (hp b List.mem_cons_self).trans h.2⟩
  | cons c l ih =>
      refine ⟨⟨(hn a List.mem_cons_self).trans h.1.1, (hp c List.mem_cons_self).trans h.1.2⟩, ?_⟩
      exact ih h.2 (fun d hd => hn d (List.mem_cons_of_mem _ hd)) fun d hd => hp d (List.mem_cons_of_mem _ hd)

/-- The path starts at `a` instead of `x`. -/
theorem start (h : Path next prev x l b) (nodup : (l ++ [b]).Nodup) (hn : ∀ c ∈ l, next' c = next c)
    (hp : ∀ c ∈ l ++ [b], c ≠ next x → prev' c = prev c) (ha : next' a = next x) (hb : prev' (next x) = a) :
    Path next' prev' a l b := by
  cases l with
  | nil => exact ⟨ha.trans h.1, h.1 ▸ hb⟩
  | cons c l =>
      obtain ⟨⟨rfl, -⟩, h⟩ := h
      refine ⟨⟨ha, hb⟩, h.congr hn fun d hd => hp d (List.mem_cons_of_mem _ hd) ?_⟩
      rintro rfl
      exact (List.nodup_cons.1 nodup).1 hd

end Path

section Ring

/-- The ring of `s` and the nodes `l`. -/
structure Ring (next prev : α → α) (s : α) (l : List α) : Prop where
  nodup : (s :: l).Nodup
  path : Path next prev s l s

namespace Ring

theorem notMem (h : Ring next prev s l) : s ∉ l := (List.nodup_cons.1 h.nodup).1

theorem nodup_append (h : Ring next prev s l) : (l ++ [s]).Nodup :=
  List.nodup_append_comm.1 h.nodup

theorem next_mem (h : Ring next prev s l) (hx : x ∈ s :: l) : next x ∈ s :: l := by
  rcases List.mem_cons.1 hx with rfl | hx
  · exact List.perm_append_singleton _ _ |>.mem_iff.1 h.path.next_mem
  · obtain ⟨l₁, l₂, rfl⟩ := List.append_of_mem hx
    have hm := List.perm_append_singleton _ _ |>.mem_iff.1 (path_append.1 h.path).2.next_mem
    rcases List.mem_cons.1 hm with he | hm
    · rw [he]
      exact List.mem_cons_self
    · exact List.mem_cons_of_mem _ (List.mem_append_right _ (List.mem_cons_of_mem _ hm))

theorem prev_mem (h : Ring next prev s l) (hx : x ∈ s :: l) : prev x ∈ s :: l := by
  rcases List.mem_cons.1 hx with rfl | hx
  · exact h.path.prev_mem
  · obtain ⟨l₁, l₂, rfl⟩ := List.append_of_mem hx
    rcases List.mem_cons.1 (path_append.1 h.path).1.prev_mem with he | hm
    · rw [he]
      exact List.mem_cons_self
    · exact List.mem_cons_of_mem _ (List.mem_append_left _ hm)

theorem next_ne (h : Ring next prev s l) (hx : x ∈ l) : next x ≠ x := by
  obtain ⟨l₁, l₂, rfl⟩ := List.append_of_mem hx
  have notMem := List.nodup_cons.1 (List.nodup_append.1 h.nodup_append).1.of_append_right
  intro same
  rcases List.mem_append.1 (same ▸ (path_append.1 h.path).2.next_mem) with hm | hm
  · exact notMem.1 hm
  · exact h.notMem (List.mem_singleton.1 hm ▸ hx)

theorem prev_ne (h : Ring next prev s l) (hx : x ∈ l) : prev x ≠ x := by
  obtain ⟨l₁, l₂, rfl⟩ := List.append_of_mem hx
  intro same
  rcases List.mem_cons.1 (same ▸ (path_append.1 h.path).1.prev_mem) with hm | hm
  · exact h.notMem (hm ▸ hx)
  · exact (List.nodup_append.1 (List.nodup_cons.1 h.nodup).2).2.2 x hm x List.mem_cons_self rfl

theorem prev_eq (h : Ring next prev s (l ++ [x])) : prev s = x := (path_append.1 h.path).2.2

theorem next_eq (h : Ring next prev s (x :: l)) : next s = x := h.path.1.1

theorem nil (hn : next s = s) (hp : prev s = s) : Ring next prev s [] := ⟨List.nodup_singleton s, hn, hp⟩

/-- The pointers of other nodes do not matter. -/
theorem congr (h : Ring next prev s l) (hn : ∀ c ∈ s :: l, next' c = next c) (hp : ∀ c ∈ s :: l, prev' c = prev c) :
    Ring next' prev' s l :=
  ⟨h.nodup, h.path.congr hn fun c hc => hp c ((List.perm_append_singleton _ _).mem_iff.1 hc)⟩

variable [DecidableEq α]

/-- `x` becomes the first node. -/
theorem push_front (h : Ring next prev s l) (hx : x ∉ s :: l) :
    Ring (Function.update (Function.update next x (next s)) s x)
      (Function.update (Function.update prev x s) (next s) x) s (x :: l) := by
  have hxs : x ≠ s := fun he => hx (he ▸ List.mem_cons_self)
  have hxn : x ≠ next s := fun he => hx (he ▸ h.next_mem List.mem_cons_self)
  refine ⟨(List.Perm.swap s x l).nodup (List.nodup_cons.2 ⟨hx, h.nodup⟩), ⟨?_, ?_⟩, ?_⟩
  · rw [Function.update_self]
  · rw [Function.update_of_ne hxn, Function.update_self]
  · refine h.path.start h.nodup_append (fun c hc => ?_) (fun c hc hne => ?_) ?_ ?_
    · have hcs : c ≠ s := fun he => h.notMem (he ▸ hc)
      have hcx : c ≠ x := fun he => hx (he ▸ List.mem_cons_of_mem _ hc)
      rw [Function.update_of_ne hcs, Function.update_of_ne hcx]
    · have hcx : c ≠ x := fun he => hx (he ▸ (List.perm_append_singleton _ _).mem_iff.1 hc)
      rw [Function.update_of_ne hne, Function.update_of_ne hcx]
    · rw [Function.update_of_ne hxs, Function.update_self]
    · rw [Function.update_self]

/-- The path through `l` to `x` and on through `r`, without `x`. -/
theorem path_skip (h : Path next prev a l x) (h' : Path next prev x r b) (hl : (a :: l).Nodup)
    (hr : (r ++ [b]).Nodup) (har : a ∉ r) (hlr : ∀ c ∈ l, c ∉ r ++ [b]) :
    Path (Function.update next (prev x) (next x)) (Function.update prev (next x) (prev x)) a (l ++ r) b := by
  induction l generalizing a with
  | nil =>
      obtain ⟨-, rfl⟩ := h
      refine h'.start hr (fun c hc => ?_) (fun c hc hne => ?_) ?_ ?_
      · have hne : c ≠ prev x := fun he => har (he ▸ hc)
        exact Function.update_of_ne hne _ _
      · exact Function.update_of_ne hne _ _
      · rw [Function.update_self]
      · rw [Function.update_self]
  | cons c l ih =>
      have hca : a ≠ prev x := fun he => (List.nodup_cons.1 hl).1 (he ▸ h.2.prev_mem)
      have hcn : c ≠ next x := fun he => hlr c List.mem_cons_self (he ▸ h'.next_mem)
      refine ⟨⟨?_, ?_⟩, ?_⟩
      · rw [Function.update_of_ne hca, h.1.1]
      · rw [Function.update_of_ne hcn, h.1.2]
      · refine ih h.2 (List.nodup_cons.1 hl).2 (fun hc => ?_) fun d hd => hlr d (List.mem_cons_of_mem _ hd)
        exact hlr c List.mem_cons_self (List.mem_append_left _ hc)

/-- The node `x` is taken out. -/
theorem remove (h : Ring next prev s (l ++ x :: r)) :
    Ring (Function.update next (prev x) (next x)) (Function.update prev (next x) (prev x)) s (l ++ r) := by
  obtain ⟨hl, hr⟩ := path_append.1 h.path
  have hs := List.nodup_cons.1 h.nodup
  have hn := List.nodup_append.1 hs.2
  have hnr := (List.nodup_cons.1 hn.2.1).2
  have sub : (s :: (l ++ r)).Sublist (s :: (l ++ x :: r)) :=
    ((List.sublist_cons_self x r).append_left l).cons_cons s
  have hsr : s ∉ r := fun hm => hs.1 (List.mem_append_right _ (List.mem_cons_of_mem _ hm))
  refine ⟨h.nodup.sublist sub, path_skip hl hr ?_ ?_ hsr fun c hc hm => ?_⟩
  · exact List.nodup_cons.2 ⟨fun hm => hs.1 (List.mem_append_left _ hm), hn.1⟩
  · exact List.nodup_append_comm.1 (List.nodup_cons.2 ⟨hsr, hnr⟩)
  · rcases List.mem_append.1 hm with hm | hm
    · exact hn.2.2 c hc c (List.mem_cons_of_mem _ hm) rfl
    · exact hs.1 (List.mem_append_left _ (List.mem_singleton.1 hm ▸ hc))

end Ring

end Ring

end LinkedRing
