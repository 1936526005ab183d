import Bionic.BaRun

/-! # The size of a block of the buddy allocator

`ba_order` rounds a length up to units of `LIBINC` modulo `2 ^ 32`, takes one off, and counts the bits of what is left.
A length of 0, and one that wraps around, gives the count `2 ^ 32 - 1` and order 32, which no block has.  For all other
lengths the order is the least one that is large enough (`baOrder_spec`), and `ba_allocate` returns a block of exactly
that order (`allocated_sized`). -/

namespace Bionic.Ba

open Buddy Buddy.BTree

/-! ### `ba_order` -/

section Order

variable {len o : ℕ}

/-- What `ba_order` counts the bits of: the number of units, less one. -/
def unitsLessOne (len : ℕ) : ℕ := ((len + LIBINC - 1) % 2 ^ 32 / LIBINC + 2 ^ 32 - 1) % 2 ^ 32

theorem baOrder_bits (h : baOrder len = o) (ho : o < 32) :
    unitsLessOne len < 2 ^ o ∧ ∀ j < o, 2 ^ j ≤ unitsLessOne len := by
  have hfind : (List.range 32).find? (fun i => unitsLessOne len >>> i == 0) = some o := by
    cases hf : (List.range 32).find? (fun i => unitsLessOne len >>> i == 0) with
    | none =>
        have h32 : baOrder len = 32 := by
          unfold baOrder
          exact congrArg (·.getD 32) hf
        omega
    | some i =>
        have hi : baOrder len = i := by
          unfold baOrder
          exact congrArg (·.getD 32) hf
        rw [← h, hi]
  obtain ⟨hzero, -, hleast⟩ := List.find?_range_eq_some.mp hfind
  simp only [beq_iff_eq, Nat.shiftRight_eq_div_pow, Nat.div_eq_zero_iff, Bool.not_eq_true',
    beq_eq_false_iff_ne, ne_eq, not_or, not_lt] at hzero hleast
  refine ⟨hzero.resolve_left (Nat.two_pow_pos o).ne', fun j hj => (hleast j hj).2⟩

/-- A length whose order a block can have is not 0 and does not wrap around. -/
theorem units_of_lt (hlen : len < 2 ^ 32) (h : unitsLessOne len < 2 ^ 8) :
    0 < len ∧ unitsLessOne len + 1 = (len + LIBINC - 1) / LIBINC := by
  unfold unitsLessOne LIBINC at *
  omega

/-- The order is the least one whose block has room for the length. -/
theorem baOrder_spec (hlen : len < 2 ^ 32) (h : baOrder len = o) (ho : o ≤ 8) :
    len ≤ 2 ^ o * LIBINC ∧ ∀ k, len ≤ 2 ^ k * LIBINC → o ≤ k := by
  obtain ⟨hlt, hge⟩ := baOrder_bits h (by omega)
  have hpow : 2 ^ o ≤ 2 ^ 8 := Nat.pow_le_pow_right (by omega) ho
  obtain ⟨hpos, hunits⟩ := units_of_lt hlen (by omega)
  constructor
  · unfold LIBINC at *
    omega
  · intro k hk
    by_contra hko
    have hle := hge k (by omega)
    unfold LIBINC at *
    omega

end Order

/-! ### `ba_allocate` -/

/-- The block `i` has room for the length, and its size is the smallest power-of-two multiple of `LIBINC` that does. -/
structure Sized (len : ℕ) (ba : State) (i : ℕ) : Prop where
  enough : len ≤ baLen ba i
  power : ∃ k, baLen ba i = 2 ^ k * LIBINC
  least : ∀ k, len ≤ 2 ^ k * LIBINC → baLen ba i ≤ 2 ^ k * LIBINC

/-- The block that is returned has the order that was asked for. -/
theorem baAllocate_order {ba ba' : State} {t : BTree 8} {len i : ℕ} (h : Rep ba.bitmap t 0)
    (hr : baAllocate len ba = (some i, ba')) : baOrder len ≤ 8 ∧ (ba'.bitmap i).order = baOrder len := by
  obtain ⟨bm', tl, -, -, ⟨heq, -⟩ | ⟨j, m, heq, hfree, hle, hrep⟩⟩ := baAllocate_rep len h
  · rw [hr] at heq
    cases heq
  · rw [hr] at heq
    cases heq
    generalize baOrder len = o at *
    have hmem := mem_acquire hle hfree
    have hbits : bm' i = ⟨true, o⟩ := hrep.block _ hmem
    exact ⟨BTree.order_le hmem, congrArg BaBits.order hbits⟩

theorem sized_of_order {ba : State} {len i : ℕ} (hlen : len < 2 ^ 32) (h8 : baOrder len ≤ 8)
    (ho : (ba.bitmap i).order = baOrder len) : Sized len ba i := by
  obtain ⟨henough, hleast⟩ := baOrder_spec hlen rfl h8
  have hbl : baLen ba i = 2 ^ baOrder len * LIBINC := by
    have hpow : 2 ^ baOrder len ≤ 2 ^ 8 := Nat.pow_le_pow_right (by omega) h8
    have hlt : 2 ^ baOrder len * LIBINC < 2 ^ 32 := by
      unfold LIBINC
      omega
    rw [baLen, ho, Nat.one_shiftLeft, Nat.mod_eq_of_lt hlt]
  refine ⟨by rw [hbl]; exact henough, ⟨_, hbl⟩, fun k hk => ?_⟩
  rw [hbl]
  exact Nat.mul_le_mul_right _ (Nat.pow_le_pow_right (by omega) (hleast k hk))

theorem run_inv_of_keepOne : ∀ {ops : List Op} {s s' : Sys}, Inv s → FreesKeepOne ops s →
    run ops s = some s' → Inv s'
  | [], s, s', h, _, hr => by
      rw [run, Option.some.injEq] at hr
      exact hr ▸ h
  | op :: ops, s, s', h, hk, hr => by
      obtain ⟨s1, hs, hr⟩ := Option.bind_eq_some_iff.mp hr
      exact run_inv_of_keepOne (step_inv h hs (Or.inr hk.1)).1 (hk.2 s1 hs) hr

/-- **Sizing.**  In every state that a run reaches without taking the entry behind the bitmap for a free buddy,
`ba_allocate` returns `-1` or a block of the smallest size that has room, for every 32-bit length. -/
theorem allocated_sized {beyond : ℕ → BaBits} {ops : List Op} {s : Sys}
    (hb : Fenced (boot beyond).ba ∨ FreesKeepOne ops (boot beyond)) (h : run ops (boot beyond) = some s)
    (len : BitVec 32) {i : ℕ} {ba : State} (hr : baAllocate len.toNat s.ba = (some i, ba)) :
    Sized len.toNat ba i := by
  have hinv : Inv s := by
    rcases hb with hb | hb
    · exact (run_inv ⟨_, boot_holds beyond⟩ hb h).1
    · exact run_inv_of_keepOne ⟨_, boot_holds beyond⟩ hb h
  obtain ⟨t, ht⟩ := hinv
  obtain ⟨h8, ho⟩ := baAllocate_order ht.rep hr
  exact sized_of_order len.isLt h8 ho

/-- A library of five units takes a block of eight, when it is freed and when another one is live. -/
theorem allocated_sized_five : ∃ s i ba,
    run [.allocate 0x100000, .allocate 0x300000, .free 0] (boot fun _ => ⟨false, 0⟩) = some s ∧
      baAllocate (0x480000#32).toNat s.ba = (some i, ba) ∧ Sized (0x480000#32).toNat ba i := by
  obtain ⟨s, hs⟩ := Option.isSome_iff_exists.mp (show
    (run [.allocate 0x100000, .allocate 0x300000, .free 0] (boot fun _ => ⟨false, 0⟩)).isSome = true by
      decide +kernel)
  have hall : (run [.allocate 0x100000, .allocate 0x300000, .free 0] (boot fun _ => ⟨false, 0⟩)).all
      (fun s => (baAllocate (0x480000#32).toNat s.ba).1.isSome) = true := by decide +kernel
  rw [hs] at hall
  obtain ⟨i, hi⟩ := Option.isSome_iff_exists.mp (show
    (baAllocate (0x480000#32).toNat s.ba).1.isSome = true by simpa using hall)
  have hfence : Fenced (boot fun _ => ⟨false, 0⟩).ba := by
    rw [Fenced, boot, start_eq]
    decide
  exact ⟨s, i, _, hs, Prod.ext hi rfl, allocated_sized (Or.inl hfence) hs 0x480000#32 (Prod.ext hi rfl)⟩

end Bionic.Ba
