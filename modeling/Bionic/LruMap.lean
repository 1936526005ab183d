import Mathlib.Data.Set.Card
import Mathlib.Data.List.Nodup
import Mathlib.Data.Finset.Card

/-! # Maps that forget what was used least recently

A map from keys to values with at most `cap` keys.  Each key carries the time at which its value was added, and the
moment at which the key was last used, that is added or found.  An insertion into a full map forgets the key whose last
use is the oldest one.

`Represents m l` says that the list `l` holds the map with the key used last in front.  Each operation on the map is
one on such a list, where it can be computed (`Recent.Of.insert`, `Recent.Of.lookup`). -/

namespace LruMap

universe u v w

variable {κ : Type u} {ν : Type v} {τ : Type w}

/-- The value of a key, since when it is in the map, and when the key was last used. -/
structure Item (ν : Type v) (τ : Type w) where
  value : ν
  since : τ
  used : ℕ

/-- The items of the keys, and the number of uses so far. -/
structure Lru (κ : Type u) (ν : Type v) (τ : Type w) where
  item : κ → Option (Item ν τ)
  clock : ℕ

/-- The map without keys. -/
def Lru.empty : Lru κ ν τ := ⟨fun _ => none, 0⟩

/-- The answer to a lookup. -/
inductive Answer (ν : Type v)
  | missing
  | unfit (value : ν)
  | found (value : ν)

section Operations

open Classical

variable (m : Lru κ ν τ)

def Lru.keys : Set κ := {k | (m.item k).isSome}

noncomputable def Lru.remove (k : κ) : Lru κ ν τ := { m with item := Function.update m.item k none }

/-- No key was last used before `k`. -/
def Lru.Oldest (k : κ) : Prop :=
  ∃ i, m.item k = some i ∧ ∀ k' i', m.item k' = some i' → i.used ≤ i'.used

noncomputable def Lru.evict : Lru κ ν τ := { m with item := fun k => if m.Oldest k then none else m.item k }

/-- The key `k` is used now, with the value `v`. -/
noncomputable def Lru.use (k : κ) (v : ν) (since : τ) : Lru κ ν τ where
  item := Function.update m.item k (some ⟨v, since, m.clock⟩)
  clock := m.clock + 1

/-- A key that is there keeps its value.  Otherwise it is added, and forgets the oldest one if there are `cap`. -/
noncomputable def Lru.insert (cap : ℕ) (k : κ) (v : ν) (now : τ) : Lru κ ν τ :=
  if k ∈ m.keys then m
  else if cap ≤ m.keys.ncard then m.evict.use k v now
  else m.use k v now

/-- A lookup removes a value that is not fresh, and a value that is fresh and fit is used. -/
noncomputable def Lru.lookup (fresh : τ → Prop) (fit : ν → Prop) (k : κ) : Answer ν × Lru κ ν τ :=
  match m.item k with
  | none => (.missing, m)
  | some i =>
      if ¬ fresh i.since then (.missing, m.remove k)
      else if ¬ fit i.value then (.unfit i.value, m)
      else (.found i.value, m.use k i.value i.since)

end Operations

variable {m : Lru κ ν τ} {l l₁ l₂ : List (κ × Item ν τ)} {k k' : κ} {i : Item ν τ} {v : ν} {t : τ}

section Item

open Classical

@[simp] theorem item_remove_self : (m.remove k).item k = none := by
  simp [Lru.remove]

theorem item_remove_of_ne (h : k' ≠ k) : (m.remove k).item k' = m.item k' := Function.update_of_ne h _ _

@[simp] theorem item_use_self : (m.use k v t).item k = some ⟨v, t, m.clock⟩ := by
  simp [Lru.use]

theorem item_use_of_ne (h : k' ≠ k) : (m.use k v t).item k' = m.item k' := Function.update_of_ne h _ _

theorem item_evict_of_none (h : m.item k = none) : m.evict.item k = none := by
  simp [Lru.evict, h]

@[simp] theorem remove_use : (m.remove k).use k v t = m.use k v t := by
  unfold Lru.use Lru.remove
  rw [Function.update_idem]

end Item

/-! ### Lists in the order of use -/

/-- The list has the items of the map, with the key used last in front. -/
structure Represents (m : Lru κ ν τ) (l : List (κ × Item ν τ)) : Prop where
  item : ∀ k i, m.item k = some i ↔ (k, i) ∈ l
  order : l.Pairwise fun a b => b.2.used < a.2.used
  clock : ∀ a ∈ l, a.2.used < m.clock

theorem represents_empty : Represents (Lru.empty : Lru κ ν τ) [] where
  item _ _ := ⟨nofun, fun h => absurd h List.not_mem_nil⟩
  order := List.Pairwise.nil
  clock _ h := absurd h List.not_mem_nil

namespace Represents

theorem mem_of_item (h : Represents m l) (hk : m.item k = some i) : (k, i) ∈ l := (h.item k i).1 hk

/-- A key has one place. -/
theorem nodup (h : Represents m l) : (l.map Prod.fst).Nodup := by
  refine List.pairwise_map.2 (h.order.imp_of_mem fun {a b} ha hb lt same => ?_)
  have hia := (h.item a.1 a.2).2 ha
  have hib := (h.item b.1 b.2).2 hb
  rw [same, hib] at hia
  rw [Option.some.inj hia] at lt
  exact lt_irrefl _ lt

theorem ncard_keys (h : Represents m l) : m.keys.ncard = l.length := by
  classical
  have keys : m.keys = ((l.map Prod.fst).toFinset : Set κ) := by
    ext k
    simp only [Lru.keys, Set.mem_ofPred_eq, Finset.mem_coe, List.mem_toFinset, List.mem_map, Option.isSome_iff_exists]
    constructor
    · rintro ⟨i, hi⟩
      exact ⟨(k, i), h.mem_of_item hi, rfl⟩
    · rintro ⟨⟨k', i⟩, hi, rfl⟩
      exact ⟨i, (h.item _ i).2 hi⟩
  rw [keys, Set.ncard_coe_finset, List.toFinset_card_of_nodup h.nodup, List.length_map]

/-- The other items of a list that has the key `k`. -/
theorem mem_others (h : Represents m (l₁ ++ (k, i) :: l₂)) (k' : κ) (j : Item ν τ) :
    (k', j) ∈ l₁ ++ l₂ ↔ m.item k' = some j ∧ k' ≠ k := by
  have nodup := h.nodup
  rw [List.map_append, List.map_cons] at nodup
  have notMem := (List.nodup_cons.1 (List.nodup_middle.1 nodup)).1
  rw [h.item, List.perm_middle.mem_iff, List.mem_cons]
  constructor
  · intro hm
    refine ⟨.inr hm, ?_⟩
    rintro rfl
    rw [← List.map_append] at notMem
    exact notMem (List.mem_map.2 ⟨(_, j), hm, rfl⟩)
  · rintro ⟨hm, ne⟩
    exact hm.resolve_left fun he => ne (Prod.mk.inj he).1

theorem remove (h : Represents m (l₁ ++ (k, i) :: l₂)) : Represents (m.remove k) (l₁ ++ l₂) where
  item k' j := by
    rw [h.mem_others]
    by_cases hk : k' = k
    · rw [hk, item_remove_self]
      exact ⟨nofun, fun hh => absurd rfl hh.2⟩
    · rw [item_remove_of_ne hk, and_iff_left hk]
  order := h.order.sublist ((List.sublist_cons_self _ _).append_left l₁)
  clock a ha := h.clock a (List.perm_middle.mem_iff.2 (List.mem_cons_of_mem _ ha))

/-- The last key of the list is the oldest one. -/
theorem oldest_iff (h : Represents m (l ++ [(k, i)])) (k' : κ) : m.Oldest k' ↔ k' = k := by
  have last : (k, i) ∈ l ++ [(k, i)] := List.mem_append_right _ List.mem_cons_self
  have before {a : κ × Item ν τ} (ha : a ∈ l) : i.used < a.2.used :=
    (List.pairwise_append.1 h.order).2.2 a ha _ List.mem_cons_self
  constructor
  · rintro ⟨j, hj, least⟩
    rcases List.mem_append.1 (h.mem_of_item hj) with ha | ha
    · exact absurd (least k i ((h.item k i).2 last)) (Nat.not_le_of_lt (before ha))
    · exact (Prod.mk.inj (List.mem_singleton.1 ha)).1
  · rintro rfl
    refine ⟨i, (h.item _ i).2 last, fun k'' j hj => ?_⟩
    rcases List.mem_append.1 (h.mem_of_item hj) with ha | ha
    · exact (before ha).le
    · rw [(Prod.mk.inj (List.mem_singleton.1 ha)).2]

theorem evict (h : Represents m (l ++ [(k, i)])) : Represents m.evict l := by
  have removed := h.remove
  rw [List.append_nil] at removed
  have same : m.evict = m.remove k := by
    have item : m.evict.item = (m.remove k).item := by
      funext k'
      by_cases hk : k' = k
      · rw [hk, item_remove_self]
        exact if_pos ((h.oldest_iff k).2 rfl)
      · rw [item_remove_of_ne hk]
        exact if_neg fun ho => hk ((h.oldest_iff k').1 ho)
    exact congrArg (Lru.mk · m.clock) item
  rwa [same]

/-- A new key comes to the front. -/
theorem use_new (h : Represents m l) (new : m.item k = none) (v : ν) (t : τ) :
    Represents (m.use k v t) ((k, ⟨v, t, m.clock⟩) :: l) where
  item k' j := by
    rw [List.mem_cons, ← h.item]
    by_cases hk : k' = k
    · rw [hk, item_use_self, new]
      constructor
      · intro he
        rw [Option.some.inj he]
        exact .inl rfl
      · rintro (he | he)
        · rw [(Prod.mk.inj he).2]
        · cases he
    · rw [item_use_of_ne hk]
      exact ⟨.inr, fun hh => hh.resolve_left fun he => hk (Prod.mk.inj he).1⟩
  order := List.pairwise_cons.2 ⟨h.clock, h.order⟩
  clock a ha := by
    rcases List.mem_cons.1 ha with rfl | ha
    · exact Nat.lt_succ_self _
    · exact Nat.lt_succ_of_lt (h.clock a ha)

/-- A key of the list comes to the front. -/
theorem use (h : Represents m (l₁ ++ (k, i) :: l₂)) (v : ν) (t : τ) :
    Represents (m.use k v t) ((k, ⟨v, t, m.clock⟩) :: (l₁ ++ l₂)) := by
  rw [← remove_use]
  exact h.remove.use_new item_remove_self v t

/-- The list tells what a key has. -/
theorem item_eq [DecidableEq κ] (h : Represents m l) (k : κ) :
    m.item k = (l.find? (·.1 = k)).map Prod.snd := by
  cases hf : l.find? (·.1 = k) with
  | none =>
      rw [Option.map_none, Option.eq_none_iff_forall_not_mem]
      intro i hi
      exact List.find?_eq_none.1 hf _ (h.mem_of_item hi) (decide_eq_true rfl)
  | some a =>
      have key : a.1 = k := by simpa using List.find?_some hf
      rw [Option.map_some, h.item, ← key]
      exact List.mem_of_find?_eq_some hf

/-- A key is taken out of the list. -/
theorem filter [DecidableEq κ] (h : Represents m l) (k : κ) : Represents (m.remove k) (l.filter (·.1 ≠ k)) where
  item k' j := by
    rw [List.mem_filter, ← h.item]
    by_cases hk : k' = k
    · rw [hk, item_remove_self]
      exact ⟨nofun, fun hh => absurd rfl (of_decide_eq_true hh.2)⟩
    · rw [item_remove_of_ne hk]
      exact ⟨fun hj => ⟨hj, decide_eq_true hk⟩, And.left⟩
  order := h.order.sublist List.filter_sublist
  clock a ha := h.clock a (List.mem_filter.1 ha).1

end Represents

/-! ### The operations on the list -/

/-- The items in the order of use, and the number of uses so far. -/
structure Recent (κ : Type u) (ν : Type v) (τ : Type w) where
  items : List (κ × Item ν τ)
  clock : ℕ

section Recent

variable [DecidableEq κ]

def Recent.use (r : Recent κ ν τ) (k : κ) (v : ν) (since : τ) : Recent κ ν τ :=
  ⟨(k, ⟨v, since, r.clock⟩) :: r.items.filter (·.1 ≠ k), r.clock + 1⟩

def Recent.insert (r : Recent κ ν τ) (cap : ℕ) (k : κ) (v : ν) (now : τ) : Recent κ ν τ :=
  match r.items.find? (·.1 = k) with
  | some _ => r
  | none => Recent.use { r with items := if cap ≤ r.items.length then r.items.dropLast else r.items } k v now

def Recent.lookup (r : Recent κ ν τ) (fresh : τ → Prop) [DecidablePred fresh] (fit : ν → Prop) [DecidablePred fit]
    (k : κ) : Answer ν × Recent κ ν τ :=
  match r.items.find? (·.1 = k) with
  | none => (.missing, r)
  | some (_, i) =>
      if ¬ fresh i.since then (.missing, { r with items := r.items.filter (·.1 ≠ k) })
      else if ¬ fit i.value then (.unfit i.value, r)
      else (.found i.value, r.use k i.value i.since)

/-- The list holds the map, and counts its uses. -/
def Recent.Of (r : Recent κ ν τ) (m : Lru κ ν τ) : Prop := Represents m r.items ∧ m.clock = r.clock

variable {r : Recent κ ν τ} {cap : ℕ}

theorem Recent.Of.use (h : r.Of m) (k : κ) (v : ν) (t : τ) : (r.use k v t).Of (m.use k v t) := by
  obtain ⟨rep, clock⟩ := h
  refine ⟨?_, congrArg (· + 1) clock⟩
  have front := (rep.filter k).use_new item_remove_self v t
  rw [remove_use] at front
  unfold Recent.use
  rw [← clock]
  exact front

theorem Recent.Of.insert (h : r.Of m) (pos : 0 < cap) (k : κ) (v : ν) (t : τ) :
    (r.insert cap k v t).Of (m.insert cap k v t) := by
  obtain ⟨rep, clock⟩ := h
  have item := rep.item_eq k
  unfold Recent.insert Lru.insert
  cases hf : r.items.find? (·.1 = k) with
  | some a =>
      rw [hf] at item
      have mem : k ∈ m.keys := Option.isSome_iff_exists.2 ⟨_, item⟩
      rw [if_pos mem]
      exact ⟨rep, clock⟩
  | none =>
      rw [hf] at item
      have notMem : k ∉ m.keys := by
        intro (hk : (m.item k).isSome)
        rw [item] at hk
        cases hk
      rw [if_neg notMem, rep.ncard_keys]
      dsimp only
      split
      next full =>
        obtain ⟨l, a, hl⟩ : ∃ l a, r.items = l ++ [a] :=
          ⟨_, _, (List.dropLast_concat_getLast (List.ne_nil_of_length_pos (Nat.lt_of_lt_of_le pos full))).symm⟩
        rw [hl, List.dropLast_concat]
        rw [hl] at rep
        exact Recent.Of.use (r := ⟨l, r.clock⟩) ⟨rep.evict, clock⟩ k v t
      next => exact Recent.Of.use ⟨rep, clock⟩ k v t

theorem Recent.Of.lookup (h : r.Of m) (fresh : τ → Prop) [DecidablePred fresh] (fit : ν → Prop) [DecidablePred fit]
    (k : κ) : (r.lookup fresh fit k).1 = (m.lookup fresh fit k).1 ∧
      (r.lookup fresh fit k).2.Of (m.lookup fresh fit k).2 := by
  obtain ⟨rep, clock⟩ := h
  have item := rep.item_eq k
  unfold Recent.lookup Lru.lookup
  rw [item]
  cases hf : r.items.find? (·.1 = k) with
  | none => exact ⟨rfl, rep, clock⟩
  | some a =>
      dsimp only [Option.map_some]
      by_cases old : ¬ fresh a.2.since
      · rw [if_pos old, if_pos old]
        exact ⟨rfl, rep.filter k, clock⟩
      · rw [if_neg old, if_neg old]
        by_cases long : ¬ fit a.2.value
        · rw [if_pos long, if_pos long]
          exact ⟨rfl, rep, clock⟩
        · rw [if_neg long, if_neg long]
          exact ⟨rfl, Recent.Of.use ⟨rep, clock⟩ k _ _⟩

end Recent

end LruMap
