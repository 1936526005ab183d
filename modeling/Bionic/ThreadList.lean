import Bionic.LinkedList

/-! # `gThreadList` (`libc/bionic/pthread.c`)

The descriptors of the threads are chained through `next`; the field `pref` of a descriptor is the address of
the pointer it hangs on, which is `gThreadList` or the `next` of another descriptor.  The functions run under
`gThreadListLock`.  They fail (`none`) where the source follows a null pointer. -/

namespace Bionic.ThreadList

open LinkedList

variable {T : Type} [DecidableEq T]

/-! ### The functions -/

/-- `gThreadList` and the fields `next` and `pref` of all descriptors; `head` is `gThreadList`. -/
abbrev Links (T : Type) := Hooks T

/-- `thread->pref[0] = v`. -/
def storeAtPref (s : Links T) (thread : T) (v : Option T) : Option (Links T) :=
  match s.pref thread with
  | none => none
  | some k => some (s.store k v)

/-- `_pthread_internal_remove_locked`. -/
def pthreadInternalRemoveLocked (s : Links T) (thread : T) : Option (Links T) :=
  match s.next thread with
  | none => none
  | some n =>
      let s := s.setPref n (s.pref thread)
      storeAtPref s thread (s.next thread)

/-- `_pthread_internal_add`. -/
def pthreadInternalAdd (s : Links T) (thread : T) : Option (Links T) :=
  let s := s.setPref thread (some .head)
  match s.pref thread with
  | none => none
  | some k =>
      let s := s.setNext thread (s.load k)
      let s :=
        match s.next thread with
        | none => s
        | some n => s.setPref n (some (.next thread))
      storeAtPref s thread (some thread)

/-- Before `__libc_init_common`; the descriptors are zeroed memory. -/
def empty (T : Type) : Links T := ⟨none, fun _ => none, fun _ => none⟩

/-- `__libc_init_common` adds the descriptor of the main thread. -/
def libcInitCommon (main : T) : Option (Links T) := pthreadInternalAdd (empty T) main

/-! ### Sequences of calls -/

inductive Op (T : Type)
  | add (thread : T)
  | remove (thread : T)
deriving DecidableEq, Repr

def step (s : Links T) : Op T → Option (Links T)
  | .add thread => pthreadInternalAdd s thread
  | .remove thread => pthreadInternalRemoveLocked s thread

def run (s : Links T) : List (Op T) → Option (Links T)
  | [] => some s
  | op :: ops => (step s op).bind (run · ops)

/-- The threads added and not removed, the last one added first. -/
def listed (l : List T) : List (Op T) → List T
  | [] => l
  | .add thread :: ops => listed (thread :: l) ops
  | .remove thread :: ops => listed (l.erase thread) ops

/-- Threads are added when they are not listed, and removed when they are. -/
def Legal (l : List T) : List (Op T) → Prop
  | [] => True
  | .add thread :: ops => thread ∉ l ∧ Legal (thread :: l) ops
  | .remove thread :: ops => thread ∈ l ∧ Legal (l.erase thread) ops

/-! ### One call -/

variable {s : Links T} {l : List T} {thread : T}

omit [DecidableEq T] in
theorem hooked_empty : Hooked (empty T) [] := ⟨rfl, trivial⟩

theorem hooked_add (h : Hooked s l) (ht : thread ∉ l) :
    ∃ s', pthreadInternalAdd s thread = some s' ∧ Hooked s' (thread :: l) := by
  cases hd : s.head with
  | none =>
      refine ⟨⟨some thread, Function.update s.next thread s.head,
        Function.update s.pref thread (some .head)⟩, ?_, h.push_front ht ?_ ?_ ?_⟩
      · simp [pthreadInternalAdd, storeAtPref, Hooks.load, hd, Hooks.store, Hooks.setPref, Hooks.setNext]
      · exact Function.update_self ..
      · intro a ha
        rw [hd] at ha
        cases ha
      · intro a ha _
        have hne : a ≠ thread := fun e => ht (e ▸ ha)
        exact Function.update_of_ne hne _ _
  | some n =>
      have hn : n ∈ l := by
        have e := h.forward.eq_head?
        rw [hd] at e
        exact List.mem_of_mem_head? e.symm
      have hne : thread ≠ n := fun e => ht (e ▸ hn)
      refine ⟨⟨some thread, Function.update s.next thread s.head,
        Function.update (Function.update s.pref thread (some .head)) n (some (.next thread))⟩, ?_,
        h.push_front ht ?_ ?_ ?_⟩
      · simp [pthreadInternalAdd, storeAtPref, Hooks.load, hd, Hooks.store, Hooks.setPref, Hooks.setNext,
          hne]
      · rw [Function.update_of_ne hne, Function.update_self]
      · intro a ha
        rw [hd] at ha
        cases ha
        exact Function.update_self ..
      · intro a ha hna
        have hn : a ≠ n := fun e => hna (e ▸ hd)
        have hne : a ≠ thread := fun e => ht (e ▸ ha)
        rw [Function.update_of_ne hn, Function.update_of_ne hne]

/-- A thread that is not the last one is taken out. -/
theorem hooked_remove {b : T} {r : List T} (h : Hooked s (l ++ thread :: b :: r)) :
    ∃ s', pthreadInternalRemoveLocked s thread = some s' ∧ Hooked s' (l ++ b :: r) := by
  have hb : s.next thread = some b := h.next_eq
  have hp : s.pref thread = some (lastLink .head l) := h.pref_eq
  have hne : thread ≠ b := by
    rintro rfl
    have hn := (List.nodup_append.1 h.nodup).2.1
    exact (List.nodup_cons.1 hn).1 List.mem_cons_self
  refine ⟨_, ?_, h.unlink⟩
  simp [pthreadInternalRemoveLocked, storeAtPref, hb, hp, hne]

/-- The removal of the last thread follows its null `next`. -/
theorem remove_last (h : Hooked s (l ++ [thread])) : pthreadInternalRemoveLocked s thread = none := by
  have hb : s.next thread = none := h.next_eq
  simp [pthreadInternalRemoveLocked, hb]

/-! ### Every sequence of calls -/

/-- A proper doubly linked list of the threads `l`. -/
structure WellFormed (s : Links T) (l : List T) : Prop where
  /-- From `gThreadList` one meets the threads `l`, each once, and then the null pointer. -/
  chain : Seg s.next s.head l none
  distinct : l.Nodup
  /-- The pointer that `pref` is the address of leads back to the thread. -/
  back : ∀ t ∈ l, ∃ k, s.pref t = some k ∧ s.load k = some t
  /-- The thread behind a link has the address of that link as its `pref`. -/
  front : ∀ k t, (k = .head ∨ ∃ u ∈ l, k = .next u) → s.load k = some t → s.pref t = some k

omit [DecidableEq T] in
theorem wellFormed_of_hooked (h : Hooked s l) : WellFormed s l := by
  refine ⟨h.forward, h.nodup, fun t ht => h.load_pref ht, ?_⟩
  intro k t hk ht
  cases hk with
  | inl hk =>
      subst hk
      have e : s.head = l.head? := h.forward.eq_head?
      cases l with
      | nil => rw [Hooks.load, e] at ht; cases ht
      | cons a l =>
          rw [Hooks.load, e] at ht
          cases ht
          exact h.backward.1
  | inr hk =>
      obtain ⟨u, hu, rfl⟩ := hk
      obtain ⟨l₁, r, rfl⟩ := List.append_of_mem hu
      have e : s.next u = r.head? := h.next_eq
      cases r with
      | nil => rw [Hooks.load, e] at ht; cases ht
      | cons b r =>
          rw [Hooks.load, e] at ht
          cases ht
          exact (backs_append.1 h.backward).2.2.1

/-- One call on a list that ends in the main thread: it keeps that form, unless it removes the main thread. -/
theorem step_hooked {main : T} {op : Op T} {ops : List (Op T)} (h : Hooked s (l ++ [main]))
    (legal : Legal (l ++ [main]) (op :: ops)) (hop : op ≠ .remove main) :
    ∃ s' l', step s op = some s' ∧ Hooked s' (l' ++ [main]) ∧ Legal (l' ++ [main]) ops ∧
      ∀ rest, listed (l ++ [main]) (op :: rest) = listed (l' ++ [main]) rest := by
  cases op with
  | add thread =>
      obtain ⟨s', hs, hh⟩ := hooked_add h legal.1
      exact ⟨s', thread :: l, hs, hh, legal.2, fun _ => rfl⟩
  | remove thread =>
      have hne : thread ≠ main := fun e => hop (e ▸ rfl)
      have hl : thread ∈ l := by
        cases List.mem_append.1 legal.1 with
        | inl hl => exact hl
        | inr hm => exact absurd (List.mem_singleton.1 hm) hne
      obtain ⟨l₁, l₂, hfree, rfl, herase⟩ := List.exists_erase_eq hl
      have erased : (l₁ ++ thread :: l₂ ++ [main]).erase thread = (l₁ ++ l₂) ++ [main] := by
        rw [List.erase_append_left _ hl, herase]
      have split : ∃ b r, l₂ ++ [main] = b :: r := by
        cases l₂ with
        | nil => exact ⟨main, [], rfl⟩
        | cons b r => exact ⟨b, r ++ [main], rfl⟩
      obtain ⟨b, r, hbr⟩ := split
      rw [List.append_assoc, List.cons_append, hbr] at h
      obtain ⟨s', hs, hh⟩ := hooked_remove h
      rw [← hbr, ← List.append_assoc] at hh
      refine ⟨s', l₁ ++ l₂, hs, hh, ?_, fun _ => ?_⟩
      · rw [← erased]; exact legal.2
      · rw [← erased]; rfl

theorem run_hooked {main : T} {ops : List (Op T)} (h : Hooked s (l ++ [main]))
    (legal : Legal (l ++ [main]) ops) (kept : .remove main ∉ ops) :
    ∃ s', run s ops = some s' ∧ Hooked s' (listed (l ++ [main]) ops) := by
  induction ops generalizing s l with
  | nil => exact ⟨s, rfl, h⟩
  | cons op ops ih =>
      have hop : op ≠ .remove main := fun e => kept (e ▸ List.mem_cons_self)
      obtain ⟨s', l', hs, hh, hl, he⟩ := step_hooked h legal hop
      obtain ⟨s'', hr, hh'⟩ := ih hh hl fun hm => kept (List.mem_cons_of_mem _ hm)
      refine ⟨s'', ?_, ?_⟩
      · rw [run, hs]; exact hr
      · rw [he]; exact hh'

/-- The main thread stays the last one, so that its removal fails. -/
theorem run_remove_main {main : T} {ops : List (Op T)} (h : Hooked s (l ++ [main]))
    (legal : Legal (l ++ [main]) ops) (removed : .remove main ∈ ops) : run s ops = none := by
  induction ops generalizing s l with
  | nil => cases removed
  | cons op ops ih =>
      by_cases hop : op = .remove main
      · subst hop
        rw [run, step, remove_last h]
        rfl
      · obtain ⟨s', l', hs, hh, hl, -⟩ := step_hooked h legal hop
        have hm : .remove main ∈ ops := (List.mem_cons.1 removed).resolve_left (Ne.symm hop)
        rw [run, hs]
        exact ih hh hl hm

/-- After `__libc_init_common`, the calls `ops` follow no null pointer and leave the list of exactly the threads
added and not removed. -/
def StaysWellFormed (main : T) (ops : List (Op T)) : Prop :=
  ∃ s₀ s, libcInitCommon main = some s₀ ∧ run s₀ ops = some s ∧ WellFormed s (listed [main] ops)

theorem legal_of_append {ops pre : List (Op T)} (h : Legal l (pre ++ ops)) : Legal l pre := by
  induction pre generalizing l with
  | nil => trivial
  | cons op pre ih =>
      cases op with
      | add thread => exact ⟨h.1, ih h.2⟩
      | remove thread => exact ⟨h.1, ih h.2⟩

/-- For every sequence of calls: `gThreadList` is well formed after each of them if and only if the main thread is
not removed. -/
theorem wellFormed_iff_main_kept (main : T) (ops : List (Op T)) (legal : Legal [main] ops) :
    (∀ pre, pre <+: ops → StaysWellFormed main pre) ↔ .remove main ∉ ops := by
  have unlisted : main ∉ [] := List.not_mem_nil
  obtain ⟨s₀, hs₀, h₀⟩ := hooked_add hooked_empty unlisted
  constructor
  · intro all removed
    obtain ⟨s₁, s, hs₁, hr, -⟩ := all ops List.prefix_rfl
    obtain rfl : s₀ = s₁ := Option.some.inj (hs₀.symm.trans hs₁)
    rw [run_remove_main (l := []) h₀ legal removed] at hr
    cases hr
  · intro kept pre hpre
    obtain ⟨rest, rfl⟩ := hpre
    have kept' : .remove main ∉ pre := fun hm => kept (List.mem_append_left _ hm)
    obtain ⟨s, hr, hh⟩ := run_hooked (l := []) h₀ (legal_of_append legal) kept'
    exact ⟨s₀, s, hs₀, hr, wellFormed_of_hooked hh⟩

/-- Two threads come and go, the older one first. -/
theorem wellFormed_iff_main_kept_two :
    StaysWellFormed (0 : Fin 3) [.add 1, .add 2, .remove 1, .remove 2] := by
  have legal : Legal [(0 : Fin 3)] [.add 1, .add 2, .remove 1, .remove 2] := by
    simp [Legal]
  exact (wellFormed_iff_main_kept 0 _ legal).2 (by decide) _ List.prefix_rfl

/-- The removal of the main thread, which is the only one, follows its null `next`. -/
theorem remove_main_faults :
    Legal [()] [.remove ()] ∧ ¬ StaysWellFormed () [.remove ()] := by
  refine ⟨⟨List.mem_singleton_self _, trivial⟩, ?_⟩
  rintro ⟨s₀, s, hs₀, hr, -⟩
  have e : (libcInitCommon ()).bind (run · [.remove ()]) = none := by rfl
  rw [hs₀] at e
  rw [Option.bind_some, hr] at e
  cases e

end Bionic.ThreadList
