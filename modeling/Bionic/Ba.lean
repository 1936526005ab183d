import Bionic.BuddyTree

/-! # The linker's buddy allocator (`linker/ba.c`)

`ba.c` hands out address space between `LIBBASE` and `LIBLAST` in units of `LIBINC`.  Its state
is one array of bit fields, `allocated:1` and `order:7`, with one entry per unit.  Only the entry
of a block's first unit means anything; the entries behind it keep whatever splits and merges
left there.

* **Memory.**  `State.bitmap` is a total function: entries `0 … num_entries - 1` are the array, the
  others are the memory behind it, which the program does not own but which `ba_free` can read
  when its merge loop steps past the end (`start` takes it as a parameter).
* **Access log.**  Every read or write of an entry goes through `bits`, `setOrder` or
  `setAllocated`, which record the index in `State.touched`.
* **Loops.**  The `while` loops take a fuel argument.  `scanLoop` moves forward by at least one
  unit a round, `splitLoop` lowers a 7-bit order and `mergeLoop` raises an order that `1 << order`
  can use only below 32; `BaRefine.lean` proves that the loops end before their fuel.
* **Words.**  `unsigned long` is 32 bits wide on every supported target; the sums and products
  that could wrap are taken modulo `2 ^ 32`, the `order` field modulo `2 ^ 7`. -/

namespace Bionic.Ba

open Buddy

/-- The targets of `linker/Android.mk`. -/
inductive Arch where
  | arm
  | x86
  | mips
  | ppc
deriving DecidableEq, Repr

/-- `LIBBASE` of `linker.h`. -/
def LIBBASE : Arch → ℕ
  | .mips => 0x40000000
  | _ => 0x80000000

/-- `LIBLAST` of `linker.h`. -/
def LIBLAST : Arch → ℕ
  | .mips => 0x50000000
  | _ => 0x90000000

/-- `LIBINC` of `linker.h`, which is `BA_MIN_ALLOC`. -/
def LIBINC : ℕ := 0x00100000

def BA_MAX_ORDER : ℕ := 128

/-- `BA_SIZE / BA_MIN_ALLOC`: both values of `LIBBASE` leave the same number of units. -/
def numEntries : ℕ := 256

theorem size_eq (a : Arch) : (LIBLAST a - LIBBASE a) / LIBINC = numEntries := by
  cases a <;> rfl

/-- `struct ba_bits`. -/
structure BaBits where
  allocated : Bool
  order : ℕ
deriving DecidableEq, Repr

/-- The bitmap, the memory behind it, and the log of the indices accessed so far. -/
structure State where
  bitmap : ℕ → BaBits
  touched : List ℕ

abbrev BaM := StateM State

/-! ### Entry accesses -/

def bits (index : ℕ) : BaM BaBits := fun ba =>
  (ba.bitmap index, { ba with touched := index :: ba.touched })

/-- `BA_IS_FREE(index)`. -/
def isFree (index : ℕ) : BaM Bool := do
  let b ← bits index
  return !b.allocated

/-- `BA_ORDER(index)`. -/
def order (index : ℕ) : BaM ℕ := do
  let b ← bits index
  return b.order

/-- `BA_ORDER(index) = n`. -/
def setOrder (index n : ℕ) : BaM Unit := fun ba =>
  ((), ⟨Function.update ba.bitmap index { ba.bitmap index with order := n % 128 },
    index :: ba.touched⟩)

/-- `ba.bitmap[index].allocated = a`. -/
def setAllocated (index : ℕ) (a : Bool) : BaM Unit := fun ba =>
  ((), ⟨Function.update ba.bitmap index { ba.bitmap index with allocated := a },
    index :: ba.touched⟩)

/-- `BA_BUDDY_INDEX(index)`. -/
def buddyIndex (index : ℕ) : BaM ℕ := do
  return index ^^^ (1 <<< (← order index))

/-- `BA_NEXT_INDEX(index)`. -/
def nextIndex (index : ℕ) : BaM ℕ := do
  return index + (1 <<< (← order index))

/-! ### `ba_init` -/

/-- The loop of `ba_init`, from bit `n - 1` of `num_entries` down. -/
def initLoop : ℕ → ℕ → BaM Unit
  | 0, _ => pure ()
  | i + 1, index => do
      if numEntries.testBit i then
        setOrder index i
        initLoop i (← nextIndex index)
      else initLoop i index

/-- `ba_init`: `sizeof(ba.num_entries) * 8` is 32. -/
def baInit : BaM Unit := initLoop 32 0

/-- The allocator before `ba_init`: a zeroed static array, `beyond` behind it. -/
def zeroed (beyond : ℕ → BaBits) : State :=
  ⟨fun i => if i < numEntries then ⟨false, 0⟩ else beyond i, []⟩

/-- The allocator after `ba_init`. -/
def start (beyond : ℕ → BaBits) : State := (baInit (zeroed beyond)).2

/-! ### `ba_free` -/

/-- The `do … while (curr < ba.num_entries)` loop of `ba_free`. -/
def mergeLoop : ℕ → ℕ → BaM Unit
  | 0, _ => pure ()
  | fuel + 1, curr => do
      let buddy ← buddyIndex curr
      if ← isFree buddy then
        if (← order buddy) = (← order curr) then
          setOrder buddy ((← order buddy) + 1)
          setOrder curr ((← order curr) + 1)
          let curr := min buddy curr
          if curr < numEntries then mergeLoop fuel curr

/-- `ba_free`. -/
@[irreducible] def baFree (index : ℕ) : BaM Unit := do
  setAllocated index false
  mergeLoop 32 index

/-! ### `ba_allocate` -/

/-- `ba_order`: the least `i` with `len >> i == 0`, 32 when there is none. -/
def baOrder (len : ℕ) : ℕ :=
  let len := (len + LIBINC - 1) % 2 ^ 32 / LIBINC
  let len := (len + 2 ^ 32 - 1) % 2 ^ 32
  ((List.range 32).find? fun i => len >>> i == 0).getD 32

/-- The scan of `ba_allocate`: stop at the first free block of order `o`, else keep the first of
the smallest free blocks above it. -/
def scanLoop (o : ℕ) : ℕ → ℕ → Option ℕ → BaM (Option ℕ)
  | 0, _, bestFit => pure bestFit
  | fuel + 1, curr, bestFit => do
      if curr < numEntries then
        if ← isFree curr then
          if (← order curr) = o then return some curr
          if (← order curr) > o then
            match bestFit with
            | none => scanLoop o fuel (← nextIndex curr) (some curr)
            | some b =>
                if (← order curr) < (← order b) then scanLoop o fuel (← nextIndex curr) (some curr)
                else scanLoop o fuel (← nextIndex curr) bestFit
          else scanLoop o fuel (← nextIndex curr) bestFit
        else scanLoop o fuel (← nextIndex curr) bestFit
      else return bestFit

/-- The partition loop of `ba_allocate`. -/
def splitLoop (o : ℕ) : ℕ → ℕ → BaM Unit
  | 0, _ => pure ()
  | fuel + 1, bestFit => do
      if (← order bestFit) > o then
        setOrder bestFit ((← order bestFit) - 1)
        let buddy ← buddyIndex bestFit
        setOrder buddy (← order bestFit)
        splitLoop o fuel bestFit

/-- `ba_allocate`; `none` is the result `-1`.  The loops compare orders with
`(unsigned char)order`. -/
@[irreducible] def baAllocate (len : ℕ) : BaM (Option ℕ) := do
  let o := baOrder len
  if o > BA_MAX_ORDER then return none
  let bestFit ← scanLoop (o % 256) numEntries 0 none
  match bestFit with
  | none => return none
  | some i =>
      splitLoop (o % 256) 128 i
      setAllocated i true
      return some i

/-! ### Addresses -/

/-- `ba_start_addr`. -/
def baStartAddr (a : Arch) (index : ℕ) : ℕ := (index * LIBINC + LIBBASE a) % 2 ^ 32

/-- `ba_len`: `(1 << BA_ORDER(index)) * BA_MIN_ALLOC`. -/
def baLen (ba : State) (index : ℕ) : ℕ := ((1 <<< (ba.bitmap index).order) * LIBINC) % 2 ^ 32

end Bionic.Ba
