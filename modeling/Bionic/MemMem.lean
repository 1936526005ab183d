import Mathlib.Data.BitVec
import Mathlib.Data.List.Infix

/-! # Searching for bytes (`libc/string/memmem.c`)

`memmem` finds the first place of the needle in the haystack.  At each place it looks at the second byte of the needle
first, and goes on by two places where the first two bytes of the needle tell that the next place is not one either.

* **Reads.**  A buffer is the list of its bytes; a read outside of it is a fault, `none`.  A NULL is `some none`.
* **Pointers.**  They are indices.  The search goes on by 2 bytes at most and the needle has 2 or more, so that the index
  stays within the haystack and does not overflow. -/

namespace Bionic.MemMem

abbrev Byte := BitVec 8

/-! ### Occurrences -/

section Occurrences

variable {α : Type*} {y x : List α} {a b : α} {i j : ℕ}

/-- The list `x` stands in `y` from the index `j` on. -/
def OccursAt (y x : List α) (j : ℕ) : Prop := ∀ i < x.length, y[j + i]? = x[i]?

/-- `r` is the first index at which `x` stands in `y`, if there is one. -/
def IsFirst (y x : List α) : Option ℕ → Prop
  | some j => OccursAt y x j ∧ ∀ i < j, ¬ OccursAt y x i
  | none => ∀ i, ¬ OccursAt y x i

theorem OccursAt.le (h : OccursAt y x j) (hx : x ≠ []) : j + x.length ≤ y.length := by
  have hpos := List.length_pos_of_ne_nil hx
  have hlast := (h (x.length - 1) (by omega)).trans (List.getElem?_eq_getElem (by omega))
  obtain ⟨hlt, -⟩ := List.getElem?_eq_some_iff.mp hlast
  omega

theorem occursAt_cons : OccursAt y (a :: x) j ↔ y[j]? = some a ∧ OccursAt y x (j + 1) := by
  constructor
  · intro h
    refine ⟨by simpa using h 0 (Nat.succ_pos _), fun i hi => ?_⟩
    have hi' := h (i + 1) (Nat.succ_lt_succ hi)
    rwa [List.getElem?_cons_succ, Nat.add_comm i, ← Nat.add_assoc] at hi'
  · rintro ⟨h0, h⟩ i hi
    cases i with
    | zero => simpa using h0
    | succ i =>
      rw [List.getElem?_cons_succ, Nat.add_comm i, ← Nat.add_assoc]
      exact h i (Nat.lt_of_succ_lt_succ hi)

end Occurrences

/-! ### The source -/

/-- The loop of `memcmp`, with `n` bytes to go. -/
def memcmpLoop (s1 s2 : List Byte) : ℕ → ℕ → ℕ → ℤ → Option ℤ
  | 0, _, _, d => some d
  | n + 1, p1, p2, d =>
    if d ≠ 0 then some d
    else do
      let a ← s1[p1]?
      let b ← s2[p2]?
      memcmpLoop s1 s2 n (p1 + 1) (p2 + 1) (a.toNat - b.toNat)

/-- `memcmp(s1 + p1, s2 + p2, n)` -/
def memcmp (s1 : List Byte) (p1 : ℕ) (s2 : List Byte) (p2 n : ℕ) : Option ℤ := memcmpLoop s1 s2 n p1 p2 0

/-- The loop of `memchr`, with `n` bytes to go. -/
def memchrLoop (s : List Byte) (c : Byte) : ℕ → ℕ → Option (Option ℕ)
  | 0, _ => some none
  | n + 1, p => do
    if (← s[p]?) = c then some (some p) else memchrLoop s c n (p + 1)

/-- `memchr`: the index of the byte. -/
def memchr (s : List Byte) (c : Byte) (n : ℕ) : Option (Option ℕ) := memchrLoop s c n 0

/-- The variables `k` and `l`: how far to go on where the second byte of the needle does not match, and where it does. -/
def shifts (same : Bool) : ℕ × ℕ := if same then (2, 1) else (1, 2)

theorem shifts_pos (same : Bool) : 0 < (shifts same).1 ∧ 0 < (shifts same).2 := by cases same <;> decide

/-- The loop of `memmem`. -/
def search (y x : List Byte) (n m : ℕ) (same : Bool) (j : ℕ) : Option (Option ℕ) :=
  if j ≤ n - m then do
    let x1 ← x[1]?
    let y1 ← y[j + 1]?
    if x1 ≠ y1 then search y x n m same (j + (shifts same).1)
    else
      let d ← memcmp x 2 y (j + 2) (m - 2)
      if d = 0 then
        let x0 ← x[0]?
        let y0 ← y[j]?
        if x0 = y0 then some (some j) else search y x n m same (j + (shifts same).2)
      else search y x n m same (j + (shifts same).2)
  else some none
termination_by n - m + 1 - j
decreasing_by all_goals have := shifts_pos same; omega

/-- `memmem`: the index in the haystack. -/
def memmem (haystack : List Byte) (n : ℕ) (needle : List Byte) (m : ℕ) : Option (Option ℕ) :=
  if n < m ∨ m = 0 ∨ n = 0 then some none
  else if 1 < m then do
    let x0 ← needle[0]?
    let x1 ← needle[1]?
    search haystack needle n m (x0 = x1) 0
  else do memchr haystack (← needle[0]?) n

/-! ### The functions that it calls -/

section Callees

variable {s : List Byte} {c : Byte} {n p : ℕ}

/-- Within the two buffers, the result is 0 if and only if the bytes agree. -/
theorem memcmpLoop_ok (s1 s2 : List Byte) {p1 p2 : ℕ} (d : ℤ) (h1 : p1 + n ≤ s1.length) (h2 : p2 + n ≤ s2.length) :
    ∃ r, memcmpLoop s1 s2 n p1 p2 d = some r ∧ (r = 0 ↔ d = 0 ∧ ∀ i < n, s1[p1 + i]? = s2[p2 + i]?) := by
  induction n generalizing p1 p2 d with
  | zero => exact ⟨d, by simp [memcmpLoop], by simp⟩
  | succ n ih =>
    by_cases hd : d = 0
    · obtain ⟨r, hr, hiff⟩ := ih ((s1[p1].toNat : ℤ) - s2[p2].toNat) (show p1 + 1 + n ≤ s1.length by omega)
        (show p2 + 1 + n ≤ s2.length by omega)
      have hstep : memcmpLoop s1 s2 (n + 1) p1 p2 d = some r := by
        simp [memcmpLoop, hd, List.getElem?_eq_getElem (show p1 < s1.length by omega),
          List.getElem?_eq_getElem (show p2 < s2.length by omega), hr]
      have hbyte : (s1[p1].toNat : ℤ) - s2[p2].toNat = 0 ↔ s1[p1]? = s2[p2]? := by
        rw [List.getElem?_eq_getElem (by omega), List.getElem?_eq_getElem (by omega), Option.some_inj, ← BitVec.toNat_inj]
        omega
      refine ⟨r, hstep, ?_⟩
      rw [hiff, hbyte, and_iff_right hd, Nat.forall_lt_succ_left]
      simp only [Nat.add_zero, Nat.add_assoc, Nat.add_comm 1]
    · exact ⟨d, by simp [memcmpLoop, hd], by simp [hd]⟩

/-- Within the buffer, the result is the first index of the byte. -/
theorem memchrLoop_ok (h : p + n = s.length) (before : ∀ i < p, ¬ OccursAt s [c] i) :
    ∃ r, memchrLoop s c n p = some r ∧ IsFirst s [c] r := by
  induction n generalizing p with
  | zero =>
    refine ⟨none, by simp [memchrLoop], fun i hi => ?_⟩
    have hle := hi.le (List.cons_ne_nil c [])
    rw [List.length_singleton] at hle
    exact before i (by omega) hi
  | succ n ih =>
    have hp : p < s.length := by omega
    have hocc : OccursAt s [c] p ↔ s[p] = c := by
      simp [OccursAt, List.getElem?_eq_getElem hp]
    by_cases hc : s[p] = c
    · exact ⟨some p, by simp [memchrLoop, List.getElem?_eq_getElem hp, hc], hocc.mpr hc, before⟩
    · obtain ⟨r, hr, hfirst⟩ := ih (p := p + 1) (by omega) fun i hi => by
        rcases Nat.lt_succ_iff_lt_or_eq.mp hi with hi | rfl
        · exact before i hi
        · exact mt hocc.mp hc
      exact ⟨r, by simp [memchrLoop, List.getElem?_eq_getElem hp, hc, hr], hfirst⟩

end Callees

/-! ### The search -/

section Search

variable {y x : List Byte} {a b : Byte} {j : ℕ}

/-- The needle does not stand at a place, nor at the ones that are passed over. -/
theorem before_shift {s : ℕ} (before : ∀ i < j, ¬ OccursAt y x i) (h : ∀ i, j ≤ i → i < j + s → ¬ OccursAt y x i) :
    ∀ i < j + s, ¬ OccursAt y x i := fun i hi => by
  rcases Nat.lt_or_ge i j with hlt | hge
  · exact before i hlt
  · exact h i hge hi

/-- Where the second byte does not match, it is not the first one of a needle that begins with two equal bytes either. -/
theorem shift_miss (hb : y[j + 1]? ≠ some b) (i : ℕ) (hi : j ≤ i) (hs : i < j + (shifts (a = b)).1) :
    ¬ OccursAt y (a :: b :: x) i := by
  rw [occursAt_cons, occursAt_cons]
  rintro ⟨h0, h1, -⟩
  by_cases hab : a = b
  · have hs' : i < j + 2 := by simpa [shifts, hab] using hs
    obtain rfl | rfl : i = j ∨ i = j + 1 := by omega
    · exact hb h1
    · exact hb (hab ▸ h0)
  · have hs' : i < j + 1 := by simpa [shifts, hab] using hs
    obtain rfl : i = j := by omega
    exact hb h1

/-- Where it does, it is not the first one of a needle that begins with two different bytes. -/
theorem shift_hit (hb : y[j + 1]? = some b) (hj : ¬ OccursAt y (a :: b :: x) j) (i : ℕ) (hi : j ≤ i)
    (hs : i < j + (shifts (a = b)).2) : ¬ OccursAt y (a :: b :: x) i := by
  by_cases hab : a = b
  · have hs' : i < j + 1 := by simpa [shifts, hab] using hs
    obtain rfl : i = j := by omega
    exact hj
  · have hs' : i < j + 2 := by simpa [shifts, hab] using hs
    obtain rfl | rfl : i = j ∨ i = j + 1 := by omega
    · exact hj
    · rw [occursAt_cons]
      rintro ⟨h0, -⟩
      exact hab (Option.some.inj (h0.symm.trans hb))

theorem search_ok {n m : ℕ} (hn : n = y.length) (hm : m = x.length + 2) (hle : m ≤ n)
    (before : ∀ i < j, ¬ OccursAt y (a :: b :: x) i) :
    ∃ r, search y (a :: b :: x) n m (a = b) j = some r ∧ IsFirst y (a :: b :: x) r := by
  induction hk : n - m + 1 - j using Nat.strongRecOn generalizing j with
  | ind k ih =>
    have hpos := shifts_pos (a = b)
    rw [search]
    by_cases hj : j ≤ n - m
    · have hj0 : j < y.length := by omega
      have hj1 : j + 1 < y.length := by omega
      rw [if_pos hj, List.getElem?_eq_getElem hj1]
      simp only [List.getElem?_cons_succ, List.getElem?_cons_zero, Option.bind_eq_bind, Option.bind_some]
      by_cases hb : b = y[j + 1]
      · have hb' : y[j + 1]? = some b := by rw [List.getElem?_eq_getElem hj1, hb]
        obtain ⟨d, hd, hd0⟩ := memcmpLoop_ok (a :: b :: x) y 0 (show 2 + (m - 2) ≤ (a :: b :: x).length by simp; omega)
          (show j + 2 + (m - 2) ≤ y.length by omega)
        have hrest : d = 0 ↔ OccursAt y x (j + 2) := by
          rw [hd0, and_iff_right rfl, hm, Nat.add_sub_cancel, OccursAt]
          refine forall₂_congr fun i _ => ?_
          rw [Nat.add_comm 2 i, List.getElem?_cons_succ, List.getElem?_cons_succ]
          exact eq_comm
        have hocc : OccursAt y (a :: b :: x) j ↔ y[j]? = some a ∧ d = 0 := by
          rw [occursAt_cons, occursAt_cons, and_iff_right hb', hrest]
        rw [if_neg (not_not_intro hb), memcmp, hd]
        simp only [Option.bind_some]
        by_cases hmatch : OccursAt y (a :: b :: x) j
        · obtain ⟨h0, hd⟩ := hocc.mp hmatch
          rw [if_pos hd, h0]
          exact ⟨some j, by simp, hmatch, before⟩
        · have hnext := ih _ (by omega) (before_shift before fun i => shift_hit hb' hmatch i) rfl
          by_cases hd' : d = 0
          · have h0 : a ≠ y[j] := fun e => hmatch (hocc.mpr ⟨by rw [List.getElem?_eq_getElem hj0, e], hd'⟩)
            rw [if_pos hd', List.getElem?_eq_getElem hj0]
            simpa [h0] using hnext
          · rwa [if_neg hd']
      · rw [if_pos hb]
        refine ih _ (by omega) (before_shift before fun i => shift_miss (fun e => hb ?_) i) rfl
        rw [List.getElem?_eq_getElem hj1] at e
        exact (Option.some.inj e).symm
    · rw [if_neg hj]
      refine ⟨none, rfl, fun i hi => ?_⟩
      have hle' := hi.le (List.cons_ne_nil a _)
      rw [List.length_cons, List.length_cons] at hle'
      exact before i (by omega) hi

end Search

/-- For every haystack and every needle that is not empty, `memmem` does not read outside of the two and returns the
first index at which the needle stands in the haystack, or NULL if there is none. -/
theorem memmem_finds (y : List Byte) (a : Byte) (x : List Byte) :
    ∃ r, memmem y y.length (a :: x) (x.length + 1) = some r ∧ IsFirst y (a :: x) r := by
  unfold memmem
  by_cases hout : y.length < x.length + 1 ∨ x.length + 1 = 0 ∨ y.length = 0
  · rw [if_pos hout]
    refine ⟨none, rfl, fun i hi => ?_⟩
    have hle := hi.le (List.cons_ne_nil a x)
    rw [List.length_cons] at hle
    omega
  · rw [if_neg hout]
    cases x with
    | nil =>
      obtain ⟨r, hr, hfirst⟩ := memchrLoop_ok (s := y) (c := a) (n := y.length) (p := 0) (by omega) (by simp)
      exact ⟨r, by simpa [memchr] using hr, hfirst⟩
    | cons b x =>
      obtain ⟨r, hr, hfirst⟩ := search_ok (y := y) (a := a) (b := b) (x := x) (j := 0) rfl rfl
        (by simp only [List.length_cons] at hout; omega) (by simp)
      exact ⟨r, by simpa using hr, hfirst⟩

end Bionic.MemMem
