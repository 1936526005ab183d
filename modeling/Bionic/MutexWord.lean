import Mathlib.Tactic.NormNum
import Bionic.Mutex
import Bionic.WordBits

/-! # The fields of a mutex word

`mutex->value` packs the owner, the type, the counter and the lock state into 32
bits.  `fields` reads them as numbers; there is one lemma for each value the three
functions store (`fields_relocked`, `fields_locked`, `fields_promoted`,
`fields_lowered`, `fields_init`), and `spec_update` collects them. -/

namespace Bionic.Mutex

open WordBits

/-! ### Masks as arithmetic -/

theorem toNat_mutexOwner (v : Word) : (mutexOwner v).toNat = v.toNat / 65536 := by
  have hv := v.isLt
  have h := toNat_and_mask (v >>> 16) 0xffff 0 16 rfl
  rw [BitVec.toNat_ushiftRight, Nat.shiftRight_eq_div_pow] at h
  unfold mutexOwner
  omega

theorem toNat_mutexCounter (v : Word) : (mutexCounter v).toNat = v.toNat / 4 % 4096 := by
  have h := toNat_and_mask (v >>> 2) 0xfff 0 12 rfl
  rw [BitVec.toNat_ushiftRight, Nat.shiftRight_eq_div_pow] at h
  unfold mutexCounter
  omega

theorem toNat_and_typeMask (v : Word) :
    (v &&& MUTEX_TYPE_MASK).toNat = v.toNat / 16384 % 4 * 16384 :=
  toNat_and_mask v MUTEX_TYPE_MASK 14 2 rfl

theorem toNat_and_counterMask (v : Word) :
    (v &&& MUTEX_COUNTER_MASK).toNat = v.toNat / 4 % 4096 * 4 :=
  toNat_and_mask v MUTEX_COUNTER_MASK 2 12 rfl

theorem toNat_and_three (v : Word) : (v &&& 3).toNat = v.toNat % 4 := toNat_and_lowMask v 3 2 rfl

/-! ### The fields -/

/-- The four fields of the word. -/
@[ext] structure Fields where
  owner : ℕ
  type : ℕ
  counter : ℕ
  state : ℕ

def fields (v : Word) : Fields :=
  ⟨v.toNat / 65536, v.toNat / 16384 % 4, v.toNat / 4 % 4096, v.toNat % 4⟩

theorem state_eq_iff (v : Word) (k : ℕ) (hk : k < 4) :
    v &&& 3 = BitVec.ofNat 32 k ↔ (fields v).state = k := by
  rw [← BitVec.toNat_inj, toNat_and_three, BitVec.toNat_ofNat]
  show _ ↔ v.toNat % 4 = k
  omega

theorem counter_eq_zero_iff (v : Word) :
    v &&& MUTEX_COUNTER_MASK = 0 ↔ (fields v).counter = 0 := by
  rw [← BitVec.toNat_inj, toNat_and_counterMask]
  show _ = 0 ↔ v.toNat / 4 % 4096 = 0
  omega

theorem owner_eq_iff (tid v : Word) : tid = mutexOwner v ↔ tid.toNat = (fields v).owner := by
  rw [← BitVec.toNat_inj, toNat_mutexOwner]
  rfl

/-- The type field of a mutex made by `pthread_mutex_init`. -/
def MutexType.code : MutexType → ℕ
  | .normal => 0
  | .recursive => 1
  | .errorcheck => 2

theorem toNat_init (ty : MutexType) : (pthreadMutexInit ty).toNat = ty.code * 16384 := by
  cases ty <;> rfl

theorem fields_init (ty : MutexType) : fields (pthreadMutexInit ty) = ⟨0, ty.code, 0, 0⟩ := by
  cases ty <;> rfl

theorem and_typeMask_eq_iff (v : Word) (ty : MutexType) :
    v &&& MUTEX_TYPE_MASK = pthreadMutexInit ty ↔ (fields v).type = ty.code := by
  rw [← BitVec.toNat_inj, toNat_and_typeMask, toNat_init]
  show _ ↔ v.toNat / 16384 % 4 = ty.code
  omega

/-! ### What the functions store -/

/-- `counter = (oldv + (1 << MUTEX_COUNTER_SHIFT)) & MUTEX_COUNTER_MASK`, put back. -/
theorem fields_relocked (v : Word) :
    fields ((v &&& ~~~MUTEX_COUNTER_MASK) |||
        ((v + (1 <<< MUTEX_COUNTER_SHIFT)) &&& MUTEX_COUNTER_MASK)) =
      ⟨(fields v).owner, (fields v).type, ((fields v).counter + 1) % 4096, (fields v).state⟩ := by
  have hd : (v &&& ~~~MUTEX_COUNTER_MASK) &&&
      ((v + (1 <<< MUTEX_COUNTER_SHIFT)) &&& MUTEX_COUNTER_MASK) = 0 := by
    ext i hi
    simp
    tauto
  have h := toNat_or_of_disjoint hd
  have ha : (v + (1 <<< MUTEX_COUNTER_SHIFT)).toNat = (v.toNat + 4) % 2 ^ 32 :=
    BitVec.toNat_add v (1 <<< MUTEX_COUNTER_SHIFT)
  rw [toNat_and_not, toNat_and_counterMask, toNat_and_counterMask, ha] at h
  have hv := v.isLt
  simp only [fields, Fields.mk.injEq, h]
  omega

/-- `(tid << 16) | mtype | k`. -/
theorem fields_locked (tid k : Word) (ty : MutexType) (hk : k.toNat < 4) :
    fields ((tid <<< 16) ||| pthreadMutexInit ty ||| k) =
      ⟨tid.toNat % 65536, ty.code, 0, k.toNat⟩ := by
  have ht : (tid <<< 16).toNat = tid.toNat % 65536 * 65536 := by
    rw [BitVec.toNat_shiftLeft, Nat.shiftLeft_eq]
    omega
  have hm := toNat_init ty
  have hc : ty.code < 4 := by cases ty <;> decide
  have h1 : ((tid <<< 16) ||| pthreadMutexInit ty).toNat = _ :=
    toNat_or_of_lt 16 (by omega) (by omega)
  have h2 : (((tid <<< 16) ||| pthreadMutexInit ty) ||| k).toNat = _ :=
    toNat_or_of_lt 2 (by omega) (by omega)
  simp only [fields, Fields.mk.injEq, h2, h1, ht, hm]
  omega

/-- `oldv ^= 3` on a word in state 1. -/
theorem fields_promoted {v : Word} (h : v &&& 3 = 1) :
    fields (v ^^^ 3) = ⟨(fields v).owner, (fields v).type, (fields v).counter, 2⟩ := by
  have h1 : v.toNat % 4 = 1 := (state_eq_iff v 1 (by decide)).mp h
  have hd := Nat.xor_div_two_pow (a := v.toNat) (b := 3) (n := 2)
  have hm := Nat.xor_mod_two_pow (a := v.toNat) (b := 3) (n := 2)
  have e1 : v.toNat % 2 ^ 2 ^^^ 3 % 2 ^ 2 = 2 := by rw [show v.toNat % 2 ^ 2 = 1 from h1]; rfl
  have e2 : v.toNat / 2 ^ 2 ^^^ 3 / 2 ^ 2 = v.toNat / 4 := Nat.xor_zero _
  have e : (v ^^^ 3).toNat = v.toNat ^^^ 3 := BitVec.toNat_xor v 3
  simp only [fields, Fields.mk.injEq, e]
  omega

/-- `oldv - (1 << MUTEX_COUNTER_SHIFT)` on a word whose counter is not zero. -/
theorem fields_lowered {v : Word} (h : v &&& MUTEX_COUNTER_MASK ≠ 0) :
    fields (v - (1 <<< MUTEX_COUNTER_SHIFT)) =
      ⟨(fields v).owner, (fields v).type, (fields v).counter - 1, (fields v).state⟩ := by
  have hc : v.toNat / 4 % 4096 ≠ 0 := fun h0 => h ((counter_eq_zero_iff v).mpr h0)
  have ha : (v - (1 <<< MUTEX_COUNTER_SHIFT)).toNat = (2 ^ 32 - 4 + v.toNat) % 2 ^ 32 :=
    BitVec.toNat_sub v (1 <<< MUTEX_COUNTER_SHIFT)
  have hv := v.isLt
  simp only [fields, Fields.mk.injEq, ha]
  omega

end Bionic.Mutex
