import Bionic.ElfLookup

/-! # The hash value of a symbol name (`elfhash` in `linker/linker.c`)

`elfhash` clears the four upper bits with two exclusive ors where the System V ABI clears them with `h &= ~g`; the two
agree, and the value has 28 bits.  The search over the loaded objects keeps the value in `elf_hash`, where 0 says that
it is not computed yet.  A name may have the hash value 0: it is then computed again for every object, to the same
result (`symbol_hashing`). -/

namespace Bionic.ElfLookup

open Linker (CStr Ptr Fault)

/-! ### The hash function of the ABI -/

/-- One byte of the name, as the ABI has it. -/
def abiStep (h : BitVec 32) (c : Char) : BitVec 32 :=
  let h := (h <<< 4) + BitVec.ofNat 32 c.toNat
  let g := h &&& 0xf0000000
  let h := if g ≠ 0 then h ^^^ (g >>> 24) else h
  h &&& ~~~g

def abiHash (name : CStr) : BitVec 32 := name.foldl abiStep 0

section Hash

variable {h : BitVec 32} {name : CStr}

theorem getLsbD_upper (h : BitVec 32) (i : ℕ) :
    (h &&& 0xf0000000#32).getLsbD i = (h.getLsbD i && (decide (28 ≤ i) && decide (i < 32))) := by
  have hm : 0xf0000000#32 = 15#32 <<< 28 := by decide
  rw [BitVec.getLsbD_and, hm, BitVec.getLsbD_shiftLeft]
  congr 1
  rcases Nat.lt_or_ge i 28 with hi | hi
  · simp [hi, Nat.not_le.mpr hi]
  · rcases Nat.lt_or_ge i 32 with hj | hj
    · obtain rfl | rfl | rfl | rfl : i = 28 ∨ i = 29 ∨ i = 30 ∨ i = 31 := by omega
      all_goals decide
    · simp [Nat.not_lt.mpr hj]

/-- The bits that are moved down do not reach the ones that are cleared. -/
theorem clear_upper (h : BitVec 32) :
    h ^^^ (h &&& 0xf0000000#32) ^^^ ((h &&& 0xf0000000#32) >>> 24) =
      (h ^^^ ((h &&& 0xf0000000#32) >>> 24)) &&& ~~~(h &&& 0xf0000000#32) := by
  apply BitVec.eq_of_getLsbD_eq
  intro i hi
  rw [BitVec.getLsbD_and]
  simp only [BitVec.getLsbD_xor, BitVec.getLsbD_not, BitVec.getLsbD_ushiftRight, getLsbD_upper]
  rcases Nat.lt_or_ge i 28 with hlt | hge
  · simp [hi, Nat.not_le.mpr hlt]
  · have hout : ¬ 24 + i < 32 := by omega
    simp [hi, hge, hout]

theorem clear_upper_lt (h : BitVec 32) :
    (h ^^^ (h &&& 0xf0000000#32) ^^^ ((h &&& 0xf0000000#32) >>> 24)).toNat < 2 ^ 28 := by
  rw [BitVec.toNat_lt_iff_getLsbD_eq_false 28 (by omega)]
  intro k
  simp only [BitVec.getLsbD_xor, BitVec.getLsbD_ushiftRight, getLsbD_upper]
  have hout : ¬ 24 + (28 + k) < 32 := by omega
  rcases Nat.lt_or_ge (28 + k) 32 with hk | hk
  · simp [hk, hout]
  · simp [BitVec.getLsbD_of_ge h (28 + k) hk, hout]

/-- The step of `elfhash` is that of the ABI, which shifts `g` down only where it is not 0. -/
theorem elfhash_step (h : BitVec 32) (c : Char) :
    (let h := (h <<< 4) + BitVec.ofNat 32 c.toNat
     let g := h &&& 0xf0000000
     let h := h ^^^ g
     h ^^^ (g >>> 24)) = abiStep h c := by
  unfold abiStep
  dsimp only
  generalize h <<< 4 + BitVec.ofNat 32 c.toNat = k
  refine (clear_upper k).trans ?_
  by_cases hg : k &&& 0xf0000000#32 = 0
  · simp [hg]
  · congr 1
    exact (if_pos hg).symm

theorem elfhash_eq_abiHash (name : CStr) : elfhash name = abiHash name := by
  unfold elfhash abiHash
  exact congrArg (fun step => name.foldl step 0) (funext₂ elfhash_step)

theorem abiStep_lt (h : BitVec 32) (c : Char) : (abiStep h c).toNat < 2 ^ 28 := by
  rw [← elfhash_step]
  exact clear_upper_lt _

/-- After every byte the upper bits are clear. -/
theorem foldl_abiStep_lt (hh : h.toNat < 2 ^ 28) : (name.foldl abiStep h).toNat < 2 ^ 28 := by
  induction name generalizing h with
  | nil => exact hh
  | cons c name ih => exact ih (abiStep_lt h c)

theorem abiHash_lt (name : CStr) : (abiHash name).toNat < 2 ^ 28 := foldl_abiStep_lt (by decide)

end Hash

/-! ### The value that is kept -/

/-- Look a name up in one object, and compute its hash value for that. -/
def lookupAnew (o : Obj) (name : CStr) : Except Fault (Option ℕ) := elfLookup o (elfhash name) name

/-- The first object in which the name is found. -/
def firstFound (E : Objects) (name : CStr) : List Ptr → Except Fault (Option Found)
  | [] => .ok none
  | si :: next => do
      match ← lookupAnew (E.so si) name with
      | some s => return some ⟨si, s, (E.so si).base⟩
      | none => firstFound E name next

/-- What `elf_hash` may hold: the mark, or the value. -/
def Kept (name : CStr) (h : BitVec 32) : Prop := h = 0 ∨ h = elfhash name

section Kept

variable {E : Objects} {user : Option Ptr} {name : CStr} {o : Obj} {h : BitVec 32}

theorem Kept.value (hk : Kept name h) : (if h = 0 then elfhash name else h) = elfhash name := by
  split
  · rfl
  · next h0 => exact hk.resolve_left h0

theorem doLookupInSo_kept (hk : Kept name h) :
    doLookupInSo o name h = (lookupAnew o name).map fun s => (s, elfhash name) := by
  unfold doLookupInSo lookupAnew
  rw [hk.value]
  rfl

/-- Behind the look-up in the first object it does not matter what `elf_hash` held before. -/
theorem searchSolist_kept (l : List Ptr) (hk : Kept name h) :
    searchSolist E user name l h = firstFound E name (searched E user l) := by
  induction l generalizing h with
  | nil => rfl
  | cons si l ih =>
    unfold searchSolist searched
    by_cases hs : (E.so si).error = true ∨ user = some si
    · rw [if_pos hs, List.filter_cons_of_neg (by rw [decide_eq_true_iff]; exact not_not_intro hs)]
      exact ih hk
    · rw [if_neg hs, List.filter_cons_of_pos (by simpa using hs), firstFound, doLookupInSo_kept hk]
      cases lookupAnew (E.so si) name with
      | error e => rfl
      | ok s =>
        cases s with
        | some s => rfl
        | none => exact ih (Or.inr rfl)

theorem doLookup_kept : doLookup E user name = firstFound E name (searchOrder E user) := by
  unfold doLookup searchOrder
  cases user with
  | none => exact searchSolist_kept E.solist (Or.inl rfl)
  | some u =>
    dsimp only
    rw [doLookupInSo_kept (Or.inl rfl), Option.toList_some, List.singleton_append, firstFound]
    cases lookupAnew (E.so u) name with
    | error e => rfl
    | ok s =>
      cases s with
      | some s => rfl
      | none => exact searchSolist_kept E.solist (Or.inr rfl)

theorem doLookupNonLocal_kept {u : Ptr} :
    doLookupNonLocal E (some u) name = firstFound E name (searched E (some u) E.solist) :=
  searchSolist_kept E.solist (Or.inl rfl)

end Kept

/-- `elfhash` is the hash function of the ABI and has 28 bits.  A look-up in the loaded objects, in any number of them,
finds what it would find if it computed the hash value anew for each one. -/
theorem symbol_hashing (name : CStr) :
    (elfhash name = abiHash name ∧ (elfhash name).toNat < 2 ^ 28) ∧
    (∀ E user, doLookup E user name = firstFound E name (searchOrder E user)) ∧
    ∀ E u, doLookupNonLocal E (some u) name = firstFound E name (searched E (some u) E.solist) := by
  refine ⟨⟨elfhash_eq_abiHash name, ?_⟩, fun _ _ => doLookup_kept, fun _ _ => doLookupNonLocal_kept⟩
  rw [elfhash_eq_abiHash]
  exact abiHash_lt name

/-- The hash value of the empty name is the mark itself. -/
example : elfhash "".toList = 0 ∧ elfhash "printf".toList = 0x77905a6 := by decide

end Bionic.ElfLookup
