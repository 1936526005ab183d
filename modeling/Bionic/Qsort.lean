import Mathlib
import Bionic.Iterate
import Bionic.StateExcept

/-! # Sorting and searching (`libc/stdlib/qsort.c` and `libc/stdlib/bsearch.c`)

`qsort` partitions around a median, and sorts short arrays, and those that a partition finds in order, by insertion.
Whatever the function returns that it is given for comparing, it ends, touches nothing outside of the array, and leaves the
same elements; they are sorted where this function is consistent (`qsort_sorts`), and then `bsearch` finds what there is to
find (`bsearch_sorted`).

* **The array.** Its elements are the values of a function at the indices below `limit`; `swap` and `vecswap` exchange whole
  elements, in the way `swapfunc` does with their bytes.  Pointers are indices.  The array has less than 2 GiB, so that
  the differences of pointers fit in an `int`.
* **The machine.** One step is one pass of a loop.  The stack has the calls that have not returned, each with the part that
  it goes on with: where that part begins and how many elements it has. -/

namespace Bionic.Qsort

open Iterate StateExcept

variable {α : Type}

/-- An access outside of the array. -/
structure Outside where
  index : ℕ
deriving DecidableEq, Repr

/-! ### The source -/

/-- The variables of the loop that partitions. -/
structure Part where
  pa : ℕ
  pb : ℕ
  pc : ℕ
  pd : ℕ
  swapCnt : Bool
deriving DecidableEq, Repr

/-- Where `qsort` is: at `loop`, in the insertion sort with `pm` and `pl` counted from `a`, in the first or in the second
inner loop of the partition, or at its end. -/
inductive At where
  | loop (a n : ℕ)
  | insert (a n m k : ℕ)
  | up (a n : ℕ) (p : Part)
  | down (a n : ℕ) (p : Part)
  | done
deriving DecidableEq, Repr

structure State (α : Type) where
  v : ℕ → α
  pos : At
  stack : List (ℕ × ℕ)

section Code

variable (cmp : α → α → ℤ) (limit : ℕ)

/-- `cmp(i, j)` -/
def compare (v : ℕ → α) (i j : ℕ) : Except Outside ℤ :=
  if i < limit then if j < limit then .ok (cmp (v i) (v j)) else .error ⟨j⟩ else .error ⟨i⟩

def swap (v : ℕ → α) (i j : ℕ) : Except Outside (ℕ → α) :=
  if i < limit then if j < limit then .ok (v ∘ Equiv.swap i j) else .error ⟨j⟩ else .error ⟨i⟩

/-- `vecswap`, of `r` elements. -/
def vecswap (v : ℕ → α) (i j : ℕ) : ℕ → Except Outside (ℕ → α)
  | 0 => .ok v
  | r + 1 => do
    let v ← swap limit v i j
    vecswap v (i + 1) (j + 1) r

def med3 (v : ℕ → α) (a b c : ℕ) : Except Outside ℕ := do
  if (← compare cmp limit v a b) < 0 then
    if (← compare cmp limit v b c) < 0 then return b
    else if (← compare cmp limit v a c) < 0 then return c
    else return a
  else
    if 0 < (← compare cmp limit v b c) then return b
    else if (← compare cmp limit v a c) < 0 then return a
    else return c

/-- The choice of `pm`. -/
def median (v : ℕ → α) (a n : ℕ) : Except Outside ℕ := do
  let pm := a + n / 2
  if 7 < n then
    let pl := a
    let pn := a + (n - 1)
    if 40 < n then
      let d := n / 8
      let pl ← med3 cmp limit v pl (pl + d) (pl + 2 * d)
      let pm ← med3 cmp limit v (pm - d) pm (pm + d)
      let pn ← med3 cmp limit v (pn - 2 * d) (pn - d) pn
      med3 cmp limit v pl pm pn
    else med3 cmp limit v pl pm pn
  else return pm

/-- Behind the partition: the parts are put in order, and the first one is sorted by a call. -/
def finish (v : ℕ → α) (a n : ℕ) (p : Part) (stack : List (ℕ × ℕ)) : Except Outside (State α) := do
  if ¬ p.swapCnt then return ⟨v, .insert a n 1 1, stack⟩
  else
    let pn := a + n
    let r := min (p.pa - a) (p.pb - p.pa)
    let v ← vecswap limit v a (p.pb - r) r
    let r := min (p.pd - p.pc) (pn - p.pd - 1)
    let v ← vecswap limit v p.pb (pn - r) r
    let r := p.pb - p.pa
    let rest := p.pd - p.pc
    if 1 < r then return ⟨v, .loop a r, (pn - rest, rest) :: stack⟩
    else if 1 < rest then return ⟨v, .loop (pn - rest) rest, stack⟩
    else return ⟨v, .done, stack⟩

/-- One pass of a loop: the next state, or the array at the end. -/
def pass (s : State α) : Except Outside (State α ⊕ (ℕ → α)) :=
  match s.pos with
  | .loop a n => do
    if n < 7 then return .inl { s with pos := .insert a n 1 1 }
    else
      let pm ← median cmp limit s.v a n
      let v ← swap limit s.v a pm
      return .inl { s with v := v, pos := .up a n ⟨a + 1, a + 1, a + (n - 1), a + (n - 1), false⟩ }
  | .insert a n m k => do
    if m < n then
      if k = 0 then return .inl { s with pos := .insert a n (m + 1) (m + 1) }
      else if 0 < (← compare cmp limit s.v (a + (k - 1)) (a + k)) then
        let v ← swap limit s.v (a + k) (a + (k - 1))
        return .inl { s with v := v, pos := .insert a n m (k - 1) }
      else return .inl { s with pos := .insert a n (m + 1) (m + 1) }
    else return .inl { s with pos := .done }
  | .up a n p => do
    if p.pb ≤ p.pc then
      let r ← compare cmp limit s.v p.pb a
      if r ≤ 0 then
        if r = 0 then
          let v ← swap limit s.v p.pa p.pb
          return .inl { s with v := v, pos := .up a n { p with pa := p.pa + 1, pb := p.pb + 1, swapCnt := true } }
        else return .inl { s with pos := .up a n { p with pb := p.pb + 1 } }
      else return .inl { s with pos := .down a n p }
    else return .inl { s with pos := .down a n p }
  | .down a n p => do
    if p.pb ≤ p.pc then
      let r ← compare cmp limit s.v p.pc a
      if 0 ≤ r then
        if r = 0 then
          let v ← swap limit s.v p.pc p.pd
          return .inl { s with v := v, pos := .down a n { p with pc := p.pc - 1, pd := p.pd - 1, swapCnt := true } }
        else return .inl { s with pos := .down a n { p with pc := p.pc - 1 } }
      else
        let v ← swap limit s.v p.pb p.pc
        return .inl { s with v := v, pos := .up a n { p with pb := p.pb + 1, pc := p.pc - 1, swapCnt := true } }
    else return .inl (← finish limit s.v a n p s.stack)
  | .done =>
    match s.stack with
    | [] => .ok (.inr s.v)
    | (a, n) :: stack => .ok (.inl ⟨s.v, if 1 < n then .loop a n else .done, stack⟩)

def step (s : State α) : State α ⊕ Except Outside (ℕ → α) :=
  match pass cmp limit s with
  | .error e => .inr (.error e)
  | .ok (.inl s) => .inl s
  | .ok (.inr v) => .inr (.ok v)

/-- `qsort` of the first `n` elements of `v` returns, with this result. -/
def QsortReturns (v : ℕ → α) (n : ℕ) (r : Except Outside (ℕ → α)) : Prop := Returns (step cmp n) ⟨v, .loop 0 n, []⟩ r

end Code

/-! ### Exchanging elements -/

/-- `v'` has the elements of `v`, and those outside of the part from `lo` to `hi` in their places. -/
def PermOn (lo hi : ℕ) (v v' : ℕ → α) : Prop :=
  ∃ σ : Equiv.Perm ℕ, (∀ i, i < lo ∨ hi ≤ i → σ i = i) ∧ v' = v ∘ σ

section PermOn

variable {lo hi lo' hi' i j : ℕ} {v v' w : ℕ → α}

@[refl] theorem PermOn.refl (lo hi : ℕ) (v : ℕ → α) : PermOn lo hi v v := ⟨1, fun _ _ => rfl, rfl⟩

theorem PermOn.trans (h : PermOn lo hi v v') (h' : PermOn lo hi v' w) : PermOn lo hi v w := by
  obtain ⟨σ, hσ, rfl⟩ := h
  obtain ⟨τ, hτ, rfl⟩ := h'
  refine ⟨σ * τ, fun i hout => ?_, rfl⟩
  rw [Equiv.Perm.mul_apply, hτ i hout, hσ i hout]

theorem PermOn.symm (h : PermOn lo hi v v') : PermOn lo hi v' v := by
  obtain ⟨σ, hσ, rfl⟩ := h
  refine ⟨σ⁻¹, fun i hout => ?_, ?_⟩
  · rw [Equiv.Perm.inv_eq_iff_eq, hσ i hout]
  · funext i
    simp

theorem PermOn.mono (h : PermOn lo hi v v') (hlo : lo' ≤ lo) (hhi : hi ≤ hi') : PermOn lo' hi' v v' := by
  obtain ⟨σ, hσ, rfl⟩ := h
  exact ⟨σ, fun i hi => hσ i (by omega), rfl⟩

theorem permOn_swap (v : ℕ → α) (hi₁ : lo ≤ i ∧ i < hi) (hj₁ : lo ≤ j ∧ j < hi) : PermOn lo hi v (v ∘ Equiv.swap i j) :=
  ⟨Equiv.swap i j, fun k hk => Equiv.swap_apply_of_ne_of_ne (by omega) (by omega), rfl⟩

theorem PermOn.outside (h : PermOn lo hi v v') (hout : i < lo ∨ hi ≤ i) : v' i = v i := by
  obtain ⟨σ, hσ, rfl⟩ := h
  rw [Function.comp_apply, hσ i hout]

/-- What holds of all the elements of the part holds of them in another order. -/
theorem PermOn.forall (h : PermOn lo hi v v') {P : α → Prop} (hv : ∀ i, lo ≤ i → i < hi → P (v i)) :
    ∀ i, lo ≤ i → i < hi → P (v' i) := by
  obtain ⟨σ, hσ, rfl⟩ := h
  intro i hlo hhi
  have inside : lo ≤ σ i ∧ σ i < hi := by
    by_contra hout
    have := σ.injective (hσ (σ i) (by omega))
    omega
  exact hv _ inside.1 inside.2

theorem swapped_apply (v : ℕ → α) (i j k : ℕ) :
    (v ∘ Equiv.swap i j) k = if k = i then v j else if k = j then v i else v k := by
  rw [Function.comp_apply, Equiv.swap_apply_def]
  split_ifs <;> rfl

theorem swapped_left (v : ℕ → α) (i j : ℕ) : (v ∘ Equiv.swap i j) i = v j := by
  rw [Function.comp_apply, Equiv.swap_apply_left]

theorem swapped_right (v : ℕ → α) (i j : ℕ) : (v ∘ Equiv.swap i j) j = v i := by
  rw [Function.comp_apply, Equiv.swap_apply_right]

theorem swapped_of_ne (v : ℕ → α) {i j k : ℕ} (hi : k ≠ i) (hj : k ≠ j) : (v ∘ Equiv.swap i j) k = v k := by
  rw [Function.comp_apply, Equiv.swap_apply_of_ne_of_ne hi hj]

end PermOn

section

variable {cmp : α → α → ℤ} {limit : ℕ} {v : ℕ → α} {i j : ℕ}

theorem compare_eq (hi : i < limit) (hj : j < limit) : compare cmp limit v i j = .ok (cmp (v i) (v j)) := by
  rw [compare, if_pos hi, if_pos hj]

theorem swap_eq (hi : i < limit) (hj : j < limit) : swap limit v i j = .ok (v ∘ Equiv.swap i j) := by
  rw [swap, if_pos hi, if_pos hj]

/-- `vecswap` of two parts that do not overlap. -/
theorem vecswap_spec (v : ℕ → α) {r : ℕ} (hij : i + r ≤ j) (hj : j + r ≤ limit) :
    ∃ v', vecswap limit v i j r = .ok v' ∧ PermOn i (j + r) v v' ∧
      ∀ k, v' k = if i ≤ k ∧ k < i + r then v (k + (j - i)) else if j ≤ k ∧ k < j + r then v (k - (j - i)) else v k := by
  induction r generalizing v i j with
  | zero =>
    refine ⟨v, rfl, .refl _ _ _, fun k => ?_⟩
    rw [if_neg (by omega), if_neg (by omega)]
  | succ r ih =>
    obtain ⟨v', hv', hperm, hat⟩ := ih (v ∘ Equiv.swap i j) (by omega : i + 1 + r ≤ j + 1) (by omega)
    refine ⟨v', ?_, (permOn_swap v ⟨le_rfl, by omega⟩ ⟨by omega, by omega⟩).trans (hperm.mono (by omega) (by omega)), ?_⟩
    · rw [vecswap, swap_eq (by omega) (by omega), ok_bind, hv']
    · intro k
      rw [hat, swapped_apply, swapped_apply, swapped_apply]
      have hd : j + 1 - (i + 1) = j - i := by omega
      rw [hd]
      grind

/-- `vecswap` of the shorter one of two parts that follow each other, with the end or the beginning of the other one. -/
theorem exchange_spec {P Q : α → Prop} (v : ℕ → α) (lo m hi : ℕ) (hm : lo ≤ m) (hhi : m ≤ hi) (hlimit : hi ≤ limit)
    (hP : ∀ k, lo ≤ k → k < m → P (v k)) (hQ : ∀ k, m ≤ k → k < hi → Q (v k)) :
    ∃ v', vecswap limit v lo (hi - min (m - lo) (hi - m)) (min (m - lo) (hi - m)) = .ok v' ∧ PermOn lo hi v v' ∧
      (∀ k, lo ≤ k → k < lo + (hi - m) → Q (v' k)) ∧ ∀ k, lo + (hi - m) ≤ k → k < hi → P (v' k) := by
  obtain ⟨v', hv', hperm, hat⟩ := vecswap_spec v (i := lo) (j := hi - min (m - lo) (hi - m)) (r := min (m - lo) (hi - m))
    (by omega) (by omega : _ ≤ limit)
  refine ⟨v', hv', hperm.mono le_rfl (by omega), fun k hlo hk => ?_, fun k hlo hk => ?_⟩
  · rw [hat]
    split_ifs with h₁ h₂
    · exact hQ _ (by omega) (by omega)
    · omega
    · exact hQ _ (by omega) (by omega)
  · rw [hat]
    split_ifs with h₁ h₂
    · omega
    · exact hP _ (by omega) (by omega)
    · exact hP _ (by omega) (by omega)

theorem med3_spec (cmp : α → α → ℤ) (v : ℕ → α) {a b c : ℕ} (ha : a < limit) (hb : b < limit) (hc : c < limit) :
    ∃ m, med3 cmp limit v a b c = .ok m ∧ (m = a ∨ m = b ∨ m = c) := by
  simp only [med3, compare_eq ha hb, compare_eq hb hc, compare_eq ha hc, ok_bind]
  split_ifs
  all_goals exact ⟨_, rfl, by simp⟩

theorem med3_within (cmp : α → α → ℤ) (v : ℕ → α) {l r a b c : ℕ} (hr : r ≤ limit) (ha : l ≤ a ∧ a < r)
    (hb : l ≤ b ∧ b < r) (hc : l ≤ c ∧ c < r) : ∃ m, med3 cmp limit v a b c = .ok m ∧ l ≤ m ∧ m < r := by
  obtain ⟨m, hm, hmem⟩ := med3_spec cmp v (ha.2.trans_le hr) (hb.2.trans_le hr) (hc.2.trans_le hr)
  refine ⟨m, hm, ?_⟩
  rcases hmem with rfl | rfl | rfl
  · exact ha
  · exact hb
  · exact hc

theorem median_spec (cmp : α → α → ℤ) (v : ℕ → α) {a n : ℕ} (hn : 0 < n) (hlimit : a + n ≤ limit) :
    ∃ m, median cmp limit v a n = .ok m ∧ a ≤ m ∧ m < a + n := by
  by_cases h7 : 7 < n
  · by_cases h40 : 40 < n
    · obtain ⟨pl, hpl, hl⟩ := med3_within cmp v (a := a) (b := a + n / 8) (c := a + 2 * (n / 8)) hlimit
        (by omega : a ≤ a ∧ a < a + n) (by omega) (by omega)
      obtain ⟨pm, hpm, hm⟩ := med3_within cmp v (a := a + n / 2 - n / 8) (b := a + n / 2) (c := a + n / 2 + n / 8) hlimit
        (by omega : a ≤ _ ∧ _) (by omega) (by omega)
      obtain ⟨pn, hpn, hn'⟩ := med3_within cmp v (a := a + (n - 1) - 2 * (n / 8)) (b := a + (n - 1) - n / 8)
        (c := a + (n - 1)) hlimit (by omega : a ≤ _ ∧ _) (by omega) (by omega)
      obtain ⟨m, hres, hmem⟩ := med3_within cmp v hlimit hl hm hn'
      refine ⟨m, ?_, hmem⟩
      simp only [median, if_pos h7, if_pos h40, hpl, hpm, hpn, ok_bind, hres]
    · obtain ⟨m, hres, hmem⟩ := med3_within cmp v (a := a) (b := a + n / 2) (c := a + (n - 1)) hlimit
        (by omega : a ≤ a ∧ a < a + n) (by omega) (by omega)
      refine ⟨m, ?_, hmem⟩
      simp only [median, if_pos h7, if_neg h40, hres]
  · refine ⟨a + n / 2, ?_, by omega, by omega⟩
    simp only [median, if_neg h7]
    rfl

end

/-! ### The loops -/

/-- What the comparison of a total order gives. -/
structure Consistent (cmp : α → α → ℤ) : Prop where
  le_iff_ge (x y : α) : cmp x y ≤ 0 ↔ 0 ≤ cmp y x
  trans (x y z : α) : cmp x y ≤ 0 → cmp y z ≤ 0 → cmp x z ≤ 0

def Sorted (cmp : α → α → ℤ) (lo hi : ℕ) (v : ℕ → α) : Prop := ∀ i j, lo ≤ i → i < j → j < hi → cmp (v i) (v j) ≤ 0

/-- In the insertion sort the elements up to `m` are sorted, but for the one at `k` that comes too late. -/
def Inserting (cmp : α → α → ℤ) (a m k : ℕ) (v : ℕ → α) : Prop :=
  ∀ i j, i < j → j ≤ m → j ≠ k → cmp (v (a + i)) (v (a + j)) ≤ 0

section

variable {cmp : α → α → ℤ} {a m k : ℕ} {v : ℕ → α}

theorem Consistent.refl (h : Consistent cmp) (x : α) : cmp x x = 0 := by
  have := h.le_iff_ge x x
  omega

/-- The step that moves the element at `k` one place down. -/
theorem Inserting.swap (hc : Consistent cmp) (h : Inserting cmp a m k v) (hk : 0 < k) (hm : k ≤ m)
    (hgt : 0 < cmp (v (a + (k - 1))) (v (a + k))) :
    Inserting cmp a m (k - 1) (v ∘ Equiv.swap (a + k) (a + (k - 1))) := by
  intro i j hij hjm hj
  have hlt : cmp (v (a + k)) (v (a + (k - 1))) ≤ 0 := by
    have := hc.le_iff_ge (v (a + (k - 1))) (v (a + k))
    omega
  rw [swapped_apply, swapped_apply]
  by_cases hjk : j = k
  · subst hjk
    by_cases hik : i = j - 1
    · subst hik
      rw [if_neg (by omega), if_pos rfl, if_pos rfl]
      exact hlt
    · rw [if_neg (by omega), if_neg (by omega), if_pos rfl]
      exact h i (j - 1) (by omega) (by omega) (by omega)
  · rw [if_neg (by omega : a + j ≠ a + k), if_neg (by omega : a + j ≠ a + (k - 1))]
    split_ifs with h₁ h₂
    · exact h (k - 1) j (by omega) hjm hjk
    · exact h k j (by omega) hjm hjk
    · exact h i j hij hjm hjk

/-- The element at `k` is in its place. -/
theorem Inserting.placed (hc : Consistent cmp) (h : Inserting cmp a m k v)
    (hk : k = 0 ∨ cmp (v (a + (k - 1))) (v (a + k)) ≤ 0) (hm : k ≤ m) : Inserting cmp a (m + 1) (m + 1) v := by
  intro i j hij hjm hj
  by_cases hjk : j = k
  · subst hjk
    have hle := hk.resolve_left (by omega)
    by_cases hi : i = j - 1
    · rw [hi]
      exact hle
    · exact hc.trans _ _ _ (h i (j - 1) (by omega) (by omega) (by omega)) hle
  · exact h i j hij (by omega) hjk

end

/-- Where the insertion sort is. -/
structure InsertInv (cmp : α → α → ℤ) (a n : ℕ) (stack : List (ℕ × ℕ)) (v₀ : ℕ → α) (s : State α) : Prop where
  pos : (∃ m k, s.pos = .insert a n m k ∧ k ≤ m ∧ (m < n ∨ k = m) ∧ (Consistent cmp → Inserting cmp a m k s.v)) ∨
    s.pos = .done ∧ (Consistent cmp → Sorted cmp a (a + n) s.v)
  stack : s.stack = stack
  perm : PermOn a (a + n) v₀ s.v

/-- How many passes the loops have to make at most. -/
def passes (s : State α) : ℕ :=
  match s.pos with
  | .insert _ n m k => (n + 1 - m) * (n + 2) + k + 1
  | .up _ _ p => 2 * (p.pc + 1 - p.pb) + 1
  | .down _ _ p => 2 * (p.pc + 1 - p.pb)
  | _ => 0

section

variable {cmp : α → α → ℤ} {limit a n : ℕ} {stack : List (ℕ × ℕ)} {v v₀ : ℕ → α}

theorem step_inl {s s' : State α} (h : pass cmp limit s = .ok (.inl s')) : step cmp limit s = .inl s' := by
  rw [step, h]

theorem insert_step (hlimit : a + n ≤ limit) {s : State α} (h : InsertInv cmp a n stack v₀ s) :
    s.pos = .done ∨ ∃ s', step cmp limit s = .inl s' ∧ InsertInv cmp a n stack v₀ s' ∧ passes s' < passes s := by
  obtain ⟨v, pos, K⟩ := s
  obtain ⟨⟨m, k, rfl, hkm, hend, hins⟩ | ⟨hdone, -⟩, rfl, hperm⟩ := h
  · refine .inr ?_
    by_cases hm : m < n
    · have hless : (n + 1 - (m + 1)) * (n + 2) + (n + 2) = (n + 1 - m) * (n + 2) := by
        rw [show n + 1 - m = n + 1 - (m + 1) + 1 by omega, Nat.succ_mul]
      by_cases hk : k = 0
      · refine ⟨⟨v, .insert a n (m + 1) (m + 1), K⟩, step_inl ?_, ⟨.inl ⟨m + 1, m + 1, rfl, le_rfl, by omega, ?_⟩, rfl, hperm⟩,
          ?_⟩
        · simp only [pass, if_pos hm, if_pos hk]
          rfl
        · exact fun hc => (hins hc).placed hc (.inl hk) hkm
        · simp only [passes]
          omega
      · have hcmp : compare cmp limit v (a + (k - 1)) (a + k) = .ok (cmp (v (a + (k - 1))) (v (a + k))) :=
          compare_eq (by omega) (by omega)
        by_cases hgt : 0 < cmp (v (a + (k - 1))) (v (a + k))
        · refine ⟨⟨v ∘ Equiv.swap (a + k) (a + (k - 1)), .insert a n m (k - 1), K⟩, step_inl ?_,
            ⟨.inl ⟨m, k - 1, rfl, by omega, .inl hm, ?_⟩, rfl,
              hperm.trans (permOn_swap v ⟨by omega, by omega⟩ ⟨by omega, by omega⟩)⟩, ?_⟩
          · simp only [pass, if_pos hm, if_neg hk, hcmp, ok_bind, if_pos hgt,
              swap_eq (by omega : a + k < limit) (by omega : a + (k - 1) < limit)]
            rfl
          · exact fun hc => (hins hc).swap hc (by omega) hkm hgt
          · simp only [passes]
            omega
        · refine ⟨⟨v, .insert a n (m + 1) (m + 1), K⟩, step_inl ?_, ⟨.inl ⟨m + 1, m + 1, rfl, le_rfl, by omega, ?_⟩, rfl, hperm⟩,
          ?_⟩
          · simp only [pass, if_pos hm, if_neg hk, hcmp, ok_bind, if_neg hgt]
            rfl
          · exact fun hc => (hins hc).placed hc (.inr (not_lt.mp hgt)) hkm
          · simp only [passes]
            omega
    · refine ⟨⟨v, .done, K⟩, step_inl ?_, ⟨.inr ⟨rfl, fun hc i j hi hij hj => ?_⟩, rfl, hperm⟩, ?_⟩
      · simp only [pass, if_neg hm]
        rfl
      · have := hins hc (i - a) (j - a) (by omega) (by omega) (by omega)
        rwa [show a + (i - a) = i by omega, show a + (j - a) = j by omega] at this
      · simp only [passes]
        omega
  · exact .inl hdone

/-- The insertion sort of a part. -/
theorem insert_leads (cmp : α → α → ℤ) (v : ℕ → α) (hlimit : a + n ≤ limit) (stack : List (ℕ × ℕ)) :
    ∃ v', Leads (step cmp limit) ⟨v, .insert a n 1 1, stack⟩ ⟨v', .done, stack⟩ ∧ PermOn a (a + n) v v' ∧
      (Consistent cmp → Sorted cmp a (a + n) v') := by
  have start : InsertInv cmp a n stack v ⟨v, .insert a n 1 1, stack⟩ := by
    refine ⟨.inl ⟨1, 1, rfl, le_rfl, by omega, fun _ i j hij hj hne => ?_⟩, rfl, .refl _ _ _⟩
    omega
  obtain ⟨⟨v', pos, K⟩, hlead, ⟨⟨m, k, rfl, -⟩ | ⟨-, hsorted⟩, rfl, hperm⟩, hdone⟩ :=
    exists_leads passes (fun s hs => insert_step hlimit hs) start
  · cases hdone
  · cases hdone
    exact ⟨v', hlead, hperm, hsorted⟩

/-- The parts of the partition, by how their elements compare with the one at `a`. -/
structure Parted (cmp : α → α → ℤ) (a n : ℕ) (v : ℕ → α) (p : Part) : Prop where
  pa_gt : a < p.pa
  pa_le : p.pa ≤ p.pb
  pb_le : p.pb ≤ p.pc + 1
  pc_le : p.pc ≤ p.pd
  pd_lt : p.pd < a + n
  eq_left (i : ℕ) : a < i → i < p.pa → cmp (v i) (v a) = 0
  less (i : ℕ) : p.pa ≤ i → i < p.pb → cmp (v i) (v a) < 0
  greater (i : ℕ) : p.pc < i → i ≤ p.pd → 0 < cmp (v i) (v a)
  eq_right (i : ℕ) : p.pd < i → i < a + n → cmp (v i) (v a) = 0

theorem parted_start (hn : 1 < n) : Parted cmp a n v ⟨a + 1, a + 1, a + (n - 1), a + (n - 1), false⟩ := by
  constructor
  all_goals dsimp only
  all_goals intros
  all_goals omega

theorem Parted.up_eq {p : Part} (h : Parted cmp a n v p) (hle : p.pb ≤ p.pc) (h0 : cmp (v p.pb) (v a) = 0) :
    Parted cmp a n (v ∘ Equiv.swap p.pa p.pb) { p with pa := p.pa + 1, pb := p.pb + 1, swapCnt := true } := by
  obtain ⟨h₁, h₂, h₃, h₄, h₅, heq, hlt, hgt, heq'⟩ := h
  have hpivot : (v ∘ Equiv.swap p.pa p.pb) a = v a := swapped_of_ne v (by omega) (by omega)
  refine ⟨Nat.lt_succ_of_lt h₁, Nat.succ_le_succ h₂, Nat.succ_le_succ hle, h₄, h₅, fun i hi hi' => ?_, fun i hi hi' => ?_,
    fun i hi hi' => ?_, fun i hi hi' => ?_⟩
  all_goals dsimp only at hi hi'
  all_goals rw [hpivot]
  · rcases eq_or_ne i p.pa with rfl | hne
    · rwa [swapped_left]
    · rw [swapped_of_ne v hne (by omega)]
      exact heq i hi (by omega)
  · rcases eq_or_ne i p.pb with rfl | hne
    · rw [swapped_right]
      exact hlt p.pa le_rfl (by omega)
    · rw [swapped_of_ne v (by omega) hne]
      exact hlt i (by omega) (by omega)
  · rw [swapped_of_ne v (by omega) (by omega)]
    exact hgt i hi hi'
  · rw [swapped_of_ne v (by omega) (by omega)]
    exact heq' i hi hi'

theorem Parted.up_lt {p : Part} (h : Parted cmp a n v p) (hle : p.pb ≤ p.pc) (h0 : cmp (v p.pb) (v a) < 0) :
    Parted cmp a n v { p with pb := p.pb + 1 } := by
  obtain ⟨h₁, h₂, h₃, h₄, h₅, heq, hlt, hgt, heq'⟩ := h
  refine ⟨h₁, Nat.le_succ_of_le h₂, Nat.succ_le_succ hle, h₄, h₅, heq, fun i hi hi' => ?_, hgt, heq'⟩
  rcases eq_or_ne i p.pb with rfl | hne
  · exact h0
  · exact hlt i hi (lt_of_le_of_ne (Nat.le_of_lt_succ hi') hne)

theorem Parted.down_eq {p : Part} (h : Parted cmp a n v p) (hlt : p.pb < p.pc) (h0 : cmp (v p.pc) (v a) = 0) :
    Parted cmp a n (v ∘ Equiv.swap p.pc p.pd) { p with pc := p.pc - 1, pd := p.pd - 1, swapCnt := true } := by
  obtain ⟨h₁, h₂, h₃, h₄, h₅, heq, hless, hgt, heq'⟩ := h
  have hpivot : (v ∘ Equiv.swap p.pc p.pd) a = v a := swapped_of_ne v (by omega) (by omega)
  refine ⟨h₁, h₂, ?_, Nat.sub_le_sub_right h₄ 1, ?_, fun i hi hi' => ?_, fun i hi hi' => ?_, fun i hi hi' => ?_,
    fun i hi hi' => ?_⟩
  · dsimp only
    omega
  · dsimp only
    omega
  all_goals dsimp only at hi hi'
  all_goals rw [hpivot]
  · rw [swapped_of_ne v (by omega) (by omega)]
    exact heq i hi hi'
  · rw [swapped_of_ne v (by omega) (by omega)]
    exact hless i hi hi'
  · rcases eq_or_ne i p.pc with rfl | hne
    · rw [swapped_left]
      exact hgt p.pd (by omega) le_rfl
    · rw [swapped_of_ne v hne (by omega)]
      exact hgt i (by omega) (by omega)
  · rcases eq_or_ne i p.pd with rfl | hne
    · rwa [swapped_right]
    · rw [swapped_of_ne v (by omega) hne]
      exact heq' i (by omega) hi'

theorem Parted.down_gt {p : Part} (h : Parted cmp a n v p) (hle : p.pb ≤ p.pc) (h0 : 0 < cmp (v p.pc) (v a)) :
    Parted cmp a n v { p with pc := p.pc - 1 } := by
  obtain ⟨h₁, h₂, h₃, h₄, h₅, heq, hlt, hgt, heq'⟩ := h
  refine ⟨h₁, h₂, ?_, (Nat.sub_le _ _).trans h₄, h₅, heq, hlt, fun i hi hi' => ?_, heq'⟩
  · dsimp only
    omega
  dsimp only at hi hi'
  rcases eq_or_ne i p.pc with rfl | hne
  · exact h0
  · exact hgt i (by omega) hi'

theorem Parted.exchange {p : Part} (h : Parted cmp a n v p) (hlt : p.pb < p.pc) (h0 : 0 < cmp (v p.pb) (v a))
    (h1 : cmp (v p.pc) (v a) < 0) :
    Parted cmp a n (v ∘ Equiv.swap p.pb p.pc) { p with pb := p.pb + 1, pc := p.pc - 1, swapCnt := true } := by
  obtain ⟨h₁, h₂, h₃, h₄, h₅, heq, hless, hgt, heq'⟩ := h
  have hpivot : (v ∘ Equiv.swap p.pb p.pc) a = v a := swapped_of_ne v (by omega) (by omega)
  refine ⟨h₁, Nat.le_succ_of_le h₂, ?_, (Nat.sub_le _ _).trans h₄, h₅, fun i hi hi' => ?_, fun i hi hi' => ?_,
    fun i hi hi' => ?_, fun i hi hi' => ?_⟩
  · dsimp only
    omega
  all_goals dsimp only at hi hi'
  all_goals rw [hpivot]
  · rw [swapped_of_ne v (by omega) (by omega)]
    exact heq i hi hi'
  · rcases eq_or_ne i p.pb with rfl | hne
    · rwa [swapped_left]
    · rw [swapped_of_ne v hne (by omega)]
      exact hless i hi (by omega)
  · rcases eq_or_ne i p.pc with rfl | hne
    · rwa [swapped_right]
    · rw [swapped_of_ne v (by omega) hne]
      exact hgt i (by omega) hi'
  · rw [swapped_of_ne v (by omega) (by omega)]
    exact heq' i hi hi'

/-- Where the partition of `v₀` around its first element is. -/
structure PartInv (cmp : α → α → ℤ) (a n : ℕ) (stack : List (ℕ × ℕ)) (v₀ : ℕ → α) (s : State α) : Prop where
  pos : ∃ p, Parted cmp a n s.v p ∧
    (s.pos = .up a n p ∨ s.pos = .down a n p ∧ (p.pb ≤ p.pc → 0 < cmp (s.v p.pb) (s.v a)))
  stack : s.stack = stack
  perm : PermOn a (a + n) v₀ s.v

theorem up_step (hlimit : a + n ≤ limit) {p : Part} (h : Parted cmp a n v p) (hperm : PermOn a (a + n) v₀ v) :
    ∃ s', step cmp limit ⟨v, .up a n p, stack⟩ = .inl s' ∧ PartInv cmp a n stack v₀ s' ∧
      passes s' < passes ⟨v, .up a n p, stack⟩ := by
  obtain ⟨h₁, h₂, h₃, h₄, h₅, -, -, -, -⟩ := id h
  by_cases hle : p.pb ≤ p.pc
  · have hcmp : compare cmp limit v p.pb a = .ok (cmp (v p.pb) (v a)) := compare_eq (by omega) (by omega)
    rcases lt_trichotomy (cmp (v p.pb) (v a)) 0 with hlt | heq | hgt
    · refine ⟨⟨v, .up a n { p with pb := p.pb + 1 }, stack⟩, step_inl ?_, ⟨⟨_, h.up_lt hle hlt, .inl rfl⟩, rfl, hperm⟩, ?_⟩
      · simp only [pass, if_pos hle, hcmp, ok_bind, if_pos hlt.le, if_neg hlt.ne]
        rfl
      · simp only [passes]
        omega
    · refine ⟨⟨v ∘ Equiv.swap p.pa p.pb, .up a n { p with pa := p.pa + 1, pb := p.pb + 1, swapCnt := true }, stack⟩,
        step_inl ?_, ⟨⟨_, h.up_eq hle heq, .inl rfl⟩, rfl,
          hperm.trans (permOn_swap v ⟨by omega, by omega⟩ ⟨by omega, by omega⟩)⟩, ?_⟩
      · simp only [pass, if_pos hle, hcmp, ok_bind, if_pos heq.le, if_pos heq,
          swap_eq (by omega : p.pa < limit) (by omega : p.pb < limit)]
        rfl
      · simp only [passes]
        omega
    · refine ⟨⟨v, .down a n p, stack⟩, step_inl ?_, ⟨⟨p, h, .inr ⟨rfl, fun _ => hgt⟩⟩, rfl, hperm⟩, ?_⟩
      · simp only [pass, if_pos hle, hcmp, ok_bind, if_neg hgt.not_ge]
        rfl
      · simp only [passes]
        omega
  · refine ⟨⟨v, .down a n p, stack⟩, step_inl ?_, ⟨⟨p, h, .inr ⟨rfl, fun hle' => absurd hle' hle⟩⟩, rfl, hperm⟩, ?_⟩
    · simp only [pass, if_neg hle]
      rfl
    · simp only [passes]
      omega

theorem down_step (hlimit : a + n ≤ limit) {p : Part} (h : Parted cmp a n v p) (hperm : PermOn a (a + n) v₀ v)
    (hle : p.pb ≤ p.pc) (hpb : 0 < cmp (v p.pb) (v a)) :
    ∃ s', step cmp limit ⟨v, .down a n p, stack⟩ = .inl s' ∧ PartInv cmp a n stack v₀ s' ∧
      passes s' < passes ⟨v, .down a n p, stack⟩ := by
  obtain ⟨h₁, h₂, h₃, h₄, h₅, -, -, -, -⟩ := id h
  have hcmp : compare cmp limit v p.pc a = .ok (cmp (v p.pc) (v a)) := compare_eq (by omega) (by omega)
  have hmeet (hc : cmp (v p.pc) (v a) ≤ 0) : p.pb < p.pc := by
    rcases hle.lt_or_eq with hlt | heq
    · exact hlt
    · rw [heq] at hpb
      omega
  rcases lt_trichotomy (cmp (v p.pc) (v a)) 0 with hlt | heq | hgt
  · have hpc := hmeet hlt.le
    refine ⟨⟨v ∘ Equiv.swap p.pb p.pc, .up a n { p with pb := p.pb + 1, pc := p.pc - 1, swapCnt := true }, stack⟩,
      step_inl ?_, ⟨⟨_, h.exchange hpc hpb hlt, .inl rfl⟩, rfl,
        hperm.trans (permOn_swap v ⟨by omega, by omega⟩ ⟨by omega, by omega⟩)⟩, ?_⟩
    · simp only [pass, if_pos hle, hcmp, ok_bind, if_neg hlt.not_ge,
        swap_eq (by omega : p.pb < limit) (by omega : p.pc < limit)]
      rfl
    · simp only [passes]
      omega
  · have hpc := hmeet heq.le
    refine ⟨⟨v ∘ Equiv.swap p.pc p.pd, .down a n { p with pc := p.pc - 1, pd := p.pd - 1, swapCnt := true }, stack⟩,
      step_inl ?_, ⟨⟨_, h.down_eq hpc heq, .inr ⟨rfl, fun _ => ?_⟩⟩, rfl,
        hperm.trans (permOn_swap v ⟨by omega, by omega⟩ ⟨by omega, by omega⟩)⟩, ?_⟩
    · simp only [pass, if_pos hle, hcmp, ok_bind, if_pos heq.ge, if_pos heq,
        swap_eq (by omega : p.pc < limit) (by omega : p.pd < limit)]
      rfl
    · simp only [swapped_apply, if_neg hpc.ne, if_neg (by omega : p.pb ≠ p.pd), if_neg (by omega : a ≠ p.pc),
        if_neg (by omega : a ≠ p.pd)]
      exact hpb
    · simp only [passes]
      omega
  · refine ⟨⟨v, .down a n { p with pc := p.pc - 1 }, stack⟩, step_inl ?_,
      ⟨⟨_, h.down_gt hle hgt, .inr ⟨rfl, fun _ => hpb⟩⟩, rfl, hperm⟩, ?_⟩
    · simp only [pass, if_pos hle, hcmp, ok_bind, if_pos hgt.le, if_neg hgt.ne']
      rfl
    · simp only [passes]
      omega

theorem part_step (hlimit : a + n ≤ limit) {s : State α} (h : PartInv cmp a n stack v₀ s) :
    (∃ p, Parted cmp a n s.v p ∧ s.pos = .down a n p ∧ p.pb = p.pc + 1) ∨
      ∃ s', step cmp limit s = .inl s' ∧ PartInv cmp a n stack v₀ s' ∧ passes s' < passes s := by
  obtain ⟨v, pos, K⟩ := s
  obtain ⟨⟨p, hp, rfl | ⟨rfl, hpb⟩⟩, rfl, hperm⟩ := h
  · exact .inr (up_step hlimit hp hperm)
  · by_cases hle : p.pb ≤ p.pc
    · exact .inr (down_step hlimit hp hperm hle (hpb hle))
    · exact .inl ⟨p, hp, rfl, le_antisymm hp.pb_le (by omega)⟩

/-- The loop that partitions. -/
theorem partition_leads (hlimit : a + n ≤ limit) {p : Part} (h : Parted cmp a n v p) (stack : List (ℕ × ℕ)) :
    ∃ v' p', Leads (step cmp limit) ⟨v, .up a n p, stack⟩ ⟨v', .down a n p', stack⟩ ∧ PermOn a (a + n) v v' ∧
      Parted cmp a n v' p' ∧ p'.pb = p'.pc + 1 := by
  have start : PartInv cmp a n stack v ⟨v, .up a n p, stack⟩ := ⟨⟨p, h, .inl rfl⟩, rfl, .refl _ _ _⟩
  obtain ⟨⟨v', pos, K⟩, hlead, ⟨-, rfl, hperm⟩, p', hp', rfl, hpc⟩ :=
    exists_leads passes (fun s hs => part_step hlimit hs) start
  exact ⟨v', p', hlead, hperm, hp', hpc⟩

end

/-! ### The whole run -/

section

variable {cmp : α → α → ℤ} {limit a n : ℕ} {v : ℕ → α}

/-- What the comparisons with `x` say of a part in order: less than `x`, then equal to it, then greater. -/
structure Ordered (cmp : α → α → ℤ) (x : α) (a n l g : ℕ) (v : ℕ → α) : Prop where
  less (i : ℕ) : a ≤ i → i < a + l → cmp (v i) x < 0
  equal (i : ℕ) : a + l ≤ i → i < a + n - g → cmp (v i) x = 0
  greater (i : ℕ) : a + n - g ≤ i → i < a + n → 0 < cmp (v i) x

theorem Consistent.le_of_le_of_ge (hc : Consistent cmp) {x y z : α} (hy : cmp y x ≤ 0) (hz : 0 ≤ cmp z x) : cmp y z ≤ 0 :=
  hc.trans y x z hy ((hc.le_iff_ge x z).mpr hz)

/-- The two parts sorted, the whole is. -/
theorem Ordered.sorted (hc : Consistent cmp) {x : α} {l g : ℕ} (h : Ordered cmp x a n l g v)
    (hl : Sorted cmp a (a + l) v) (hg : Sorted cmp (a + n - g) (a + n) v) : Sorted cmp a (a + n) v := by
  intro i j hi hij hj
  by_cases hil : i < a + l
  · by_cases hjl : j < a + l
    · exact hl i j hi hij hjl
    · refine hc.le_of_le_of_ge (h.less i hi hil).le ?_
      by_cases hjg : j < a + n - g
      · exact (h.equal j (by omega) hjg).ge
      · exact (h.greater j (by omega) hj).le
  · by_cases hig : i < a + n - g
    · refine hc.le_of_le_of_ge (h.equal i (by omega) hig).le ?_
      by_cases hjg : j < a + n - g
      · exact (h.equal j (by omega) hjg).ge
      · exact (h.greater j (by omega) hj).le
    · exact hg i j (by omega) hij hj

/-- Sorting one of the parts keeps their order. -/
theorem Ordered.perm_left {x : α} {l g : ℕ} {v' : ℕ → α} (h : Ordered cmp x a n l g v) (hsum : l + g ≤ n)
    (hperm : PermOn a (a + l) v v') : Ordered cmp x a n l g v' where
  less := hperm.forall (P := fun y => cmp y x < 0) h.less
  equal i hi hi' := by
    rw [hperm.outside (.inr hi)]
    exact h.equal i hi hi'
  greater i hi hi' := by
    rw [hperm.outside (.inr (by omega))]
    exact h.greater i hi hi'

theorem Ordered.perm_right {x : α} {l g : ℕ} {v' : ℕ → α} (h : Ordered cmp x a n l g v) (hsum : l + g ≤ n)
    (hperm : PermOn (a + n - g) (a + n) v v') : Ordered cmp x a n l g v' where
  less i hi hi' := by
    rw [hperm.outside (.inl (by omega))]
    exact h.less i hi hi'
  equal i hi hi' := by
    rw [hperm.outside (.inl hi')]
    exact h.equal i hi hi'
  greater := hperm.forall (P := fun y => 0 < cmp y x) h.greater

/-- What `finish` goes on with behind a partition into parts of `l` and `g` elements. -/
def rest (v : ℕ → α) (a n l g : ℕ) (stack : List (ℕ × ℕ)) : State α :=
  if 1 < l then ⟨v, .loop a l, (a + n - g, g) :: stack⟩
  else if 1 < g then ⟨v, .loop (a + n - g) g, stack⟩
  else ⟨v, .done, stack⟩

theorem finish_spec (hlimit : a + n ≤ limit) {p : Part} (h : Parted cmp a n v p) (hpc : p.pb = p.pc + 1)
    (hswap : p.swapCnt = true) (stack : List (ℕ × ℕ)) :
    ∃ v', finish limit v a n p stack = .ok (rest v' a n (p.pb - p.pa) (p.pd - p.pc) stack) ∧ PermOn a (a + n) v v' ∧
      (Consistent cmp → Ordered cmp (v a) a n (p.pb - p.pa) (p.pd - p.pc) v') := by
  obtain ⟨h₁, h₂, h₃, h₄, h₅, heq, hlt, hgt, heq'⟩ := h
  have equal (k : ℕ) (hlo : a ≤ k) (hk : k < p.pa) : Consistent cmp → cmp (v k) (v a) = 0 := by
    intro hc
    rcases hlo.eq_or_lt with rfl | hlo
    · exact hc.refl _
    · exact heq k hlo hk
  obtain ⟨v₁, hv₁, hperm₁, hless, hmid⟩ := exchange_spec (P := fun y => Consistent cmp → cmp y (v a) = 0)
    (Q := fun y => cmp y (v a) < 0) v a p.pa p.pb h₁.le h₂ (by omega : _ ≤ limit) equal hlt
  have same (k : ℕ) (hk : p.pb ≤ k) : v₁ k = v k := hperm₁.outside (.inr hk)
  obtain ⟨v₂, hv₂, hperm₂, hmid', hgreater⟩ := exchange_spec (P := fun y => 0 < cmp y (v a))
    (Q := fun y => cmp y (v a) = 0) v₁ p.pb (p.pd + 1) (a + n) (by omega) (by omega) hlimit
    (fun k hk hk' => by
      rw [same k hk]
      exact hgt k (by omega) (by omega))
    (fun k hk hk' => by
      rw [same k (by omega)]
      exact heq' k (by omega) hk')
  rw [show p.pd + 1 - p.pb = p.pd - p.pc by omega, show a + n - (p.pd + 1) = a + n - p.pd - 1 by omega] at hv₂
  have same' (k : ℕ) (hk : k < p.pb) : v₂ k = v₁ k := hperm₂.outside (.inl hk)
  refine ⟨v₂, ?_, (hperm₁.mono le_rfl (by omega)).trans (hperm₂.mono (by omega) le_rfl), fun hc => ⟨?_, ?_, ?_⟩⟩
  · simp only [finish, hswap, not_true_eq_false, if_false, hv₁, hv₂, ok_bind, rest]
    split_ifs <;> rfl
  · intro i hlo hi
    rw [same' i (by omega)]
    exact hless i hlo hi
  · intro i hlo hi
    by_cases hpb : i < p.pb
    · rw [same' i hpb]
      exact hmid i hlo hpb hc
    · exact hmid' i (by omega) (by omega)
  · intro i hlo hi
    exact hgreater i (by omega) hi

/-- Where the stack tells to go on. -/
theorem step_done (v : ℕ → α) (stack : List (ℕ × ℕ)) :
    step cmp limit ⟨v, .done, (a, n) :: stack⟩ = .inl ⟨v, if 1 < n then .loop a n else .done, stack⟩ := rfl

theorem sorted_of_le_one (hn : n ≤ 1) : Sorted cmp a (a + n) v := by
  intro i j hi hij hj
  omega

/-- The two parts behind a partition, each sorted in its place. -/
theorem rest_leads {x : α} {l g : ℕ} (hlimit : a + n ≤ limit)
    (ih : ∀ m < n, ∀ {a : ℕ} (v : ℕ → α), a + m ≤ limit → ∀ stack,
      ∃ v', Leads (step cmp limit) ⟨v, .loop a m, stack⟩ ⟨v', .done, stack⟩ ∧ PermOn a (a + m) v v' ∧
        (Consistent cmp → Sorted cmp a (a + m) v'))
    (hl : l < n) (hsum : l + g ≤ n) (hg : g < n) (hord : Consistent cmp → Ordered cmp x a n l g v)
    (stack : List (ℕ × ℕ)) :
    ∃ v', Leads (step cmp limit) (rest v a n l g stack) ⟨v', .done, stack⟩ ∧ PermOn a (a + n) v v' ∧
      (Consistent cmp → Sorted cmp a (a + n) v') := by
  have upper (v : ℕ → α) :
      ∃ v', Leads (step cmp limit) ⟨v, if 1 < g then .loop (a + n - g) g else .done, stack⟩ ⟨v', .done, stack⟩ ∧
        PermOn (a + n - g) (a + n) v v' ∧ (Consistent cmp → Sorted cmp (a + n - g) (a + n) v') := by
    have hend : a + n - g + g = a + n := by omega
    split_ifs with h1
    · have := ih g hg (a := a + n - g) v (by omega) stack
      rwa [hend] at this
    · refine ⟨v, .refl _, .refl _ _ _, fun _ => ?_⟩
      have : Sorted cmp (a + n - g) (a + n - g + g) v := sorted_of_le_one (not_lt.mp h1)
      rwa [hend] at this
  by_cases h1 : 1 < l
  · obtain ⟨v₁, hlead₁, hperm₁, hsorted₁⟩ := ih l hl (a := a) v (by omega) ((a + n - g, g) :: stack)
    obtain ⟨v', hlead, hperm, hsorted⟩ := upper v₁
    refine ⟨v', ?_, (hperm₁.mono le_rfl (by omega)).trans (hperm.mono (by omega) le_rfl), fun hc => ?_⟩
    · rw [rest, if_pos h1]
      exact hlead₁.trans (.next (step_done v₁ stack) hlead)
    · refine (((hord hc).perm_left hsum hperm₁).perm_right hsum hperm).sorted hc (fun i j hi hij hj => ?_) (hsorted hc)
      rw [hperm.outside (.inl (by omega)), hperm.outside (.inl (by omega))]
      exact hsorted₁ hc i j hi hij hj
  · obtain ⟨v', hlead, hperm, hsorted⟩ := upper v
    refine ⟨v', ?_, hperm.mono (by omega) le_rfl, fun hc => ?_⟩
    · rw [rest, if_neg h1]
      split_ifs at hlead ⊢ <;> exact hlead
    · exact ((hord hc).perm_right hsum hperm).sorted hc (sorted_of_le_one (not_lt.mp h1)) (hsorted hc)

/-- A part of the array is sorted in its place, and then the calls on the stack go on. -/
theorem sort_leads (cmp : α → α → ℤ) (v : ℕ → α) (hlimit : a + n ≤ limit) (stack : List (ℕ × ℕ)) :
    ∃ v', Leads (step cmp limit) ⟨v, .loop a n, stack⟩ ⟨v', .done, stack⟩ ∧ PermOn a (a + n) v v' ∧
      (Consistent cmp → Sorted cmp a (a + n) v') := by
  induction n using Nat.strongRecOn generalizing v a stack with
  | _ n ih =>
    by_cases hn : n < 7
    · obtain ⟨v', hlead, hperm, hsorted⟩ := insert_leads cmp v hlimit stack
      refine ⟨v', .next (step_inl ?_) hlead, hperm, hsorted⟩
      simp only [pass, if_pos hn]
      rfl
    · obtain ⟨pm, hpm, hlo, hhi⟩ := median_spec cmp v (by omega : 0 < n) hlimit
      have hstep : step cmp limit ⟨v, .loop a n, stack⟩ =
          .inl ⟨v ∘ Equiv.swap a pm, .up a n ⟨a + 1, a + 1, a + (n - 1), a + (n - 1), false⟩, stack⟩ := by
        refine step_inl ?_
        simp only [pass, if_neg hn, hpm, ok_bind, swap_eq (by omega : a < limit) (by omega : pm < limit)]
        rfl
      obtain ⟨v₁, p, hlead₁, hperm₁, hp, hpc⟩ := partition_leads hlimit
        (parted_start (by omega) : Parted cmp a n (v ∘ Equiv.swap a pm) _) stack
      have hperm₀ : PermOn a (a + n) v v₁ := (permOn_swap v ⟨le_rfl, by omega⟩ ⟨hlo, hhi⟩).trans hperm₁
      have hfinish : pass cmp limit ⟨v₁, .down a n p, stack⟩ = (Except.ok ∘ Sum.inl) =<< finish limit v₁ a n p stack := by
        simp only [pass, if_neg (by omega : ¬ p.pb ≤ p.pc)]
        rfl
      cases hswap : p.swapCnt with
      | false =>
        obtain ⟨v', hlead, hperm, hsorted⟩ := insert_leads cmp v₁ hlimit stack
        refine ⟨v', .next hstep (hlead₁.trans (.next (step_inl ?_) hlead)), hperm₀.trans hperm, hsorted⟩
        rw [hfinish, finish, hswap]
        rfl
      | true =>
        obtain ⟨v₂, hv₂, hperm₂, hord⟩ := finish_spec hlimit hp hpc hswap stack
        have hrest : step cmp limit ⟨v₁, .down a n p, stack⟩ = .inl (rest v₂ a n (p.pb - p.pa) (p.pd - p.pc) stack) := by
          refine step_inl ?_
          rw [hfinish, hv₂]
          rfl
        obtain ⟨h₁, h₂, h₃, h₄, h₅, -, -, -, -⟩ := hp
        obtain ⟨v', hlead, hperm, hsorted⟩ := rest_leads (l := p.pb - p.pa) (g := p.pd - p.pc) hlimit ih (by omega)
          (by omega) (by omega) hord stack
        exact ⟨v', .next hstep (hlead₁.trans (.next hrest hlead)), hperm₀.trans (hperm₂.trans hperm), hsorted⟩

/-- Whatever is returned for comparing, the run ends without an access outside of the array, and leaves a permutation of its
elements; where the comparison is consistent, they are sorted. -/
theorem qsort_sorts (cmp : α → α → ℤ) (v : ℕ → α) (n : ℕ) :
    ∃ v', QsortReturns cmp v n (.ok v') ∧ PermOn 0 n v v' ∧ (Consistent cmp → Sorted cmp 0 n v') := by
  obtain ⟨v', hlead, hperm, hsorted⟩ := sort_leads cmp (a := 0) v (by omega : 0 + n ≤ n) []
  rw [Nat.zero_add] at hperm hsorted
  exact ⟨v', hlead.returns_iff.mpr (.done rfl), hperm, hsorted⟩

end

/-! ### Searching -/

section Search

variable {β : Type} (compar : β → α → ℤ) (key : β) (v : ℕ → α) (nmemb : ℕ)

/-- One pass of `bsearch`, with `base` counted in elements. -/
def bsearchStep (s : ℕ × ℕ) : (ℕ × ℕ) ⊕ Except Outside (Option ℕ) :=
  let (base, lim) := s
  if lim = 0 then .inr (.ok none)
  else
    let p := base + lim / 2
    if p < nmemb then
      let cmp := compar key (v p)
      if cmp = 0 then .inr (.ok (some p))
      else if 0 < cmp then .inl (p + 1, (lim - 1) / 2)
      else .inl (base, lim / 2)
    else .inr (.error ⟨p⟩)

def BsearchReturns (r : Except Outside (Option ℕ)) : Prop := Returns (bsearchStep compar key v nmemb) (0, nmemb) r

/-- The elements come in the order of `key`: those that are less, those that are equal, those that are greater. -/
def InOrder : Prop :=
  ∀ i j, i < j → j < nmemb → (0 < compar key (v j) → 0 < compar key (v i)) ∧ (compar key (v i) < 0 → compar key (v j) < 0)

variable {compar key v nmemb}

/-- What is left to be searched. -/
structure SearchInv (compar : β → α → ℤ) (key : β) (v : ℕ → α) (nmemb : ℕ) (s : ℕ × ℕ) : Prop where
  inside : s.1 + s.2 ≤ nmemb
  below (i : ℕ) : InOrder compar key v nmemb → i < s.1 → 0 < compar key (v i)
  above (i : ℕ) : InOrder compar key v nmemb → s.1 + s.2 ≤ i → i < nmemb → compar key (v i) < 0

/-- What `bsearch` tells with its result. -/
def Found (compar : β → α → ℤ) (key : β) (v : ℕ → α) (nmemb : ℕ) : Except Outside (Option ℕ) → Prop
  | .ok (some p) => p < nmemb ∧ compar key (v p) = 0
  | .ok none => InOrder compar key v nmemb → ∀ i < nmemb, compar key (v i) ≠ 0
  | .error _ => False

theorem bsearch_step {s : ℕ × ℕ} (h : SearchInv compar key v nmemb s) :
    (∃ r, bsearchStep compar key v nmemb s = .inr r ∧ Found compar key v nmemb r) ∨
      ∃ s', bsearchStep compar key v nmemb s = .inl s' ∧ SearchInv compar key v nmemb s' ∧ s'.2 < s.2 := by
  obtain ⟨base, lim⟩ := s
  obtain ⟨hinside, hbelow, habove⟩ := h
  dsimp only at hinside hbelow habove
  by_cases hlim : lim = 0
  · refine .inl ⟨.ok none, by rw [bsearchStep, if_pos hlim], fun hord i hi => ?_⟩
    by_cases hib : i < base
    · exact (hbelow i hord hib).ne'
    · exact (habove i hord (by omega) hi).ne
  · have hp : base + lim / 2 < nmemb := by omega
    have hstep : bsearchStep compar key v nmemb (base, lim) =
        if compar key (v (base + lim / 2)) = 0 then .inr (.ok (some (base + lim / 2)))
        else if 0 < compar key (v (base + lim / 2)) then .inl (base + lim / 2 + 1, (lim - 1) / 2)
        else .inl (base, lim / 2) := by
      rw [bsearchStep, if_neg hlim, if_pos hp]
    rw [hstep]
    rcases lt_trichotomy (compar key (v (base + lim / 2))) 0 with hlt | heq | hgt
    · rw [if_neg hlt.ne, if_neg hlt.not_gt]
      refine .inr ⟨_, rfl, ⟨by dsimp only; omega, hbelow, fun i hord hi hin => ?_⟩, by dsimp only; omega⟩
      rcases (show base + lim / 2 ≤ i from hi).eq_or_lt with rfl | hi
      · exact hlt
      · exact (hord _ i hi hin).2 hlt
    · rw [if_pos heq]
      exact .inl ⟨_, rfl, hp, heq⟩
    · rw [if_neg hgt.ne', if_pos hgt]
      refine .inr ⟨_, rfl, ⟨by dsimp only; omega, fun i hord hi => ?_, fun i hord hi hin => ?_⟩, by dsimp only; omega⟩
      · rcases (Nat.lt_succ_iff.mp hi).eq_or_lt with rfl | hi
        · exact hgt
        · exact (hord i _ hi hp).1 hgt
      · exact habove i hord (by dsimp only at hi; omega) hin

theorem bsearch_spec (compar : β → α → ℤ) (key : β) (v : ℕ → α) (nmemb : ℕ) :
    ∃ r, BsearchReturns compar key v nmemb r ∧ Found compar key v nmemb r := by
  refine exists_returns (·.2) (fun s hs => bsearch_step hs) (I := SearchInv compar key v nmemb) ⟨by simp, ?_, ?_⟩
  · intro i _ hi
    exact absurd hi (Nat.not_lt_zero i)
  · intro i _ hi hin
    dsimp only at hi
    omega

theorem Sorted.inOrder {cmp : α → α → ℤ} {key : α} (hc : Consistent cmp) (h : Sorted cmp 0 nmemb v) :
    InOrder cmp key v nmemb := by
  intro i j hij hj
  have hle := h i j (Nat.zero_le i) hij hj
  refine ⟨fun hpos => ?_, fun hneg => ?_⟩
  · by_contra hi
    have := hc.trans _ _ _ (not_lt.mp hi) hle
    omega
  · by_contra hj'
    have := hc.trans _ _ _ hle ((hc.le_iff_ge _ _).mpr (not_lt.mp hj'))
    have := (hc.le_iff_ge _ _).mp this
    omega

/-- A search in what `qsort` has sorted ends, stays in the array, and finds an element equal to the key exactly if there was
one before. -/
theorem bsearch_sorted {cmp : α → α → ℤ} (hc : Consistent cmp) (v : ℕ → α) (nmemb : ℕ) (key : α) :
    ∃ v' r, QsortReturns cmp v nmemb (.ok v') ∧ BsearchReturns cmp key v' nmemb (.ok r) ∧
      (∀ p ∈ r, p < nmemb ∧ cmp key (v' p) = 0) ∧ (r = none ↔ ∀ i < nmemb, cmp key (v i) ≠ 0) := by
  obtain ⟨v', hlead, hperm, hsorted⟩ := sort_leads cmp (a := 0) v (by omega : 0 + nmemb ≤ nmemb) []
  rw [Nat.zero_add] at hperm hsorted
  obtain ⟨r, hr, hfound⟩ := bsearch_spec cmp key v' nmemb
  have hret : QsortReturns cmp v nmemb (.ok v') := hlead.returns_iff.mpr (.done rfl)
  cases r with
  | error e => exact hfound.elim
  | ok r =>
    refine ⟨v', r, hret, hr, ?_, ?_⟩
    · rintro p rfl
      exact hfound
    · cases r with
      | none =>
        have hnone : ∀ i, 0 ≤ i → i < nmemb → cmp key (v' i) ≠ 0 := fun i _ hi => hfound ((hsorted hc).inOrder hc) i hi
        exact iff_of_true rfl fun i hi => hperm.symm.forall (P := fun y => cmp key y ≠ 0) hnone i (Nat.zero_le i) hi
      | some p =>
        refine iff_of_false (by simp) fun hnone => ?_
        have hnone' := hperm.forall (P := fun y => cmp key y ≠ 0) fun i _ hi => hnone i hi
        exact hnone' p (Nat.zero_le p) hfound.1 hfound.2

theorem consistent_sub : Consistent fun x y : ℤ => x - y := ⟨fun x y => by omega, fun x y z => by omega⟩

theorem bsearch_sorted_five_numbers :
    ∃ v' r, QsortReturns (fun x y : ℤ => x - y) (fun i => ((i : ℤ) * 3) % 5) 5 (.ok v') ∧
      BsearchReturns (fun x y : ℤ => x - y) 4 v' 5 (.ok r) ∧ (∀ p ∈ r, p < 5 ∧ 4 - v' p = 0) ∧
      (r = none ↔ ∀ i : ℕ, i < 5 → (4 : ℤ) - (i : ℤ) * 3 % 5 ≠ 0) :=
  bsearch_sorted consistent_sub _ 5 4

end Search

end Bionic.Qsort
