import Mathlib
import Bionic.ByteMemory
import Bionic.StateExcept

/-! # Leak checking of the heap (`libc/bionic/malloc_leak.c`)

In front of each block that the user gets stands a header, with a guard word and a pointer to the `HashEntry` of the
backtrace of its allocation.  The entries are in a hash table, and count the blocks that point to them.  A block of
`leak_memalign` may start further behind its header; then the two words in front of it are another guard word and the
address behind the header.

`dlmalloc` and its companions are the allocator below.  Their answers are parameters of the operations, and an answer
that the allocator does not give is a fault, as is a pointer that it has not returned. -/

namespace Bionic.MallocLeak

open ByteMemory

abbrev Word := BitVec 32

def HASHTABLE_SIZE : ℕ := 1543

def BACKTRACE_SIZE : ℕ := 32

def SIZE_FLAG_MASK : Word := 0x80000000#32

def MALLOC_ALIGNMENT : Word := 8#32

def GUARD : Word := 0x48151642#32

def MEMALIGN_GUARD : Word := 0xA1A41520#32

inductive Fault
  /-- The allocator does not answer so, or the pointer of the user is not a live one. -/
  | impossible
  /-- `abort`. -/
  | abort
  /-- `record_backtrace` has no memory for an entry, and writes through the null pointer. -/
  | nullEntry
  /-- The allocator gets a pointer that it has not returned. -/
  | badPointer
  /-- A chain does not end. -/
  | loops
deriving DecidableEq, Repr

/-- The memory, `gHashTable`, `gMallocLeakZygoteChild`, and the blocks of the allocator with their sizes. -/
structure State where
  mem : Mem
  count : Word
  slots : ℕ → Addr
  zygoteChild : Bool
  blocks : List (Addr × ℕ)

/-- The word with index `i` of a structure. -/
def word (m : Mem) (a : Addr) (i : ℕ) : Word := read32 .little m (wordAt a i)

def setWord (m : Mem) (a : Addr) (i : ℕ) (v : Word) : Mem := write32 .little m (wordAt a i) v

/-! ### The allocator -/

/-- A block at `a` of `n` bytes meets none of the blocks. -/
def Fresh (blocks : List (Addr × ℕ)) (a : Addr) (n : ℕ) : Prop :=
  a ≠ 0#32 ∧ a.toNat % 8 = 0 ∧ a.toNat + n < 2 ^ 32 ∧
    ∀ b ∈ blocks, b.1 ≠ a ∧ (a.toNat + n ≤ b.1.toNat ∨ b.1.toNat + b.2 ≤ a.toNat)

instance (blocks : List (Addr × ℕ)) (a : Addr) (n : ℕ) : Decidable (Fresh blocks a n) :=
  inferInstanceAs (Decidable (_ ∧ _))

/-- The allocator has returned `a`. -/
def IsBlock (blocks : List (Addr × ℕ)) (a : Addr) : Prop := ∃ b ∈ blocks, b.1 = a

instance (blocks : List (Addr × ℕ)) (a : Addr) : Decidable (IsBlock blocks a) :=
  inferInstanceAs (Decidable (∃ b ∈ blocks, b.1 = a))

/-- `dlmalloc` returns `a`. -/
def dlmalloc (s : State) (n : Word) (a : Addr) : Except Fault State :=
  if a = 0#32 then .ok s
  else if Fresh s.blocks a n.toNat then .ok { s with blocks := (a, n.toNat) :: s.blocks }
  else .error .impossible

/-- `dlfree`. -/
def dlfree (s : State) (a : Addr) : Except Fault State :=
  if IsBlock s.blocks a then .ok { s with blocks := s.blocks.filter fun b => b.1 ≠ a } else .error .badPointer

/-- `dlrealloc` returns `a'`. -/
def dlrealloc (s : State) (a : Addr) (n : Word) (a' : Addr) : Except Fault (Addr × State) :=
  match s.blocks.find? fun b => b.1 = a with
  | none => .error .badPointer
  | some (_, size) =>
      if a' = 0#32 then .ok (0#32, s)
      else
        let others := s.blocks.filter fun b => b.1 ≠ a
        if Fresh others a' n.toNat then
          .ok (a', { s with mem := memcpy s.mem a' a (min size n.toNat), blocks := (a', n.toNat) :: others })
        else .error .impossible

/-! ### The hash table -/

/-- The words of a `HashEntry`. -/
def slotField : ℕ := 0

def prevField : ℕ := 1

def nextField : ℕ := 2

def numEntriesField : ℕ := 3

def sizeField : ℕ := 4

def allocationsField : ℕ := 5

def backtraceField : ℕ := 6

/-- The backtrace of an entry. -/
def backtraceOf (m : Mem) (e : Addr) : List Word :=
  (List.range (word m e numEntriesField).toNat).map fun i => word m e (backtraceField + i)

/-- `get_hash`. -/
def getHash (backtrace : List Word) : Word := backtrace.foldl (fun hash x => hash * 33#32 + x.sshiftRight 2) 0#32

/-- The slot of a backtrace. -/
def slotOf (backtrace : List Word) : ℕ := (getHash backtrace).toNat % HASHTABLE_SIZE

/-- The loop of `find_entry`, at the entry `e`.  The first argument bounds it: a chain without repetition has fewer than
`2 ^ 32` entries. -/
def findEntryFrom (m : Mem) (backtrace : List Word) (size : Word) : ℕ → Addr → Except Fault (Option Addr)
  | 0, _ => .error .loops
  | fuel + 1, e =>
      if e = 0#32 then .ok none
      else if word m e sizeField = size ∧ backtraceOf m e = backtrace then .ok (some e)
      else findEntryFrom m backtrace size fuel (word m e nextField)

/-- `find_entry`. -/
def findEntry (s : State) (slot : ℕ) (backtrace : List Word) (size : Word) : Except Fault (Option Addr) :=
  findEntryFrom s.mem backtrace size (2 ^ 32) (s.slots slot)

/-- The backtrace of an allocation, and the answers of the allocator for the block and for an entry. -/
structure Alloc where
  backtrace : List Word
  length_le : backtrace.length ≤ BACKTRACE_SIZE
  base : Addr
  entry : Addr

/-- `memcpy` of the backtrace into an entry. -/
def storeBacktrace (m : Mem) (e : Addr) : ℕ → List Word → Mem
  | _, [] => m
  | i, x :: backtrace => storeBacktrace (setWord m e (backtraceField + i) x) e (i + 1) backtrace

/-- The words of a new entry at the head of its chain. -/
def initEntry (m : Mem) (e : Addr) (slot : ℕ) (next : Addr) (size : Word) (backtrace : List Word) : Mem :=
  let m := setWord m e allocationsField 1#32
  let m := setWord m e slotField (BitVec.ofNat 32 slot)
  let m := setWord m e prevField 0#32
  let m := setWord m e nextField next
  let m := setWord m e numEntriesField (BitVec.ofNat 32 backtrace.length)
  let m := setWord m e sizeField size
  storeBacktrace m e 0 backtrace

/-- The part of `record_backtrace` that links a new entry in. -/
def linkEntry (s : State) (e : Addr) (slot : ℕ) (size : Word) (backtrace : List Word) : State :=
  let next := s.slots slot
  let m := initEntry s.mem e slot next size backtrace
  { s with
    mem := if next ≠ 0#32 then setWord m next prevField e else m
    slots := Function.update s.slots slot e
    count := s.count + 1#32 }

/-- `record_backtrace`. -/
def recordBacktrace (s : State) (size : Word) (c : Alloc) : Except Fault (Addr × State) := do
  let slot := slotOf c.backtrace
  if size &&& SIZE_FLAG_MASK ≠ 0#32 then throw .abort
  let size := if s.zygoteChild then size ||| SIZE_FLAG_MASK else size
  match ← findEntry s slot c.backtrace size with
  | some e => return (e, { s with mem := setWord s.mem e allocationsField (word s.mem e allocationsField + 1#32) })
  | none =>
      if c.entry = 0#32 then throw .nullEntry
      let s ← dlmalloc s (BitVec.ofNat 32 (24 + 4 * c.backtrace.length)) c.entry
      return (c.entry, linkEntry s c.entry slot size c.backtrace)

/-- There is no entry for the backtrace and the size, and no memory for one. -/
def Entryless (s : State) (bytes : Word) (c : Alloc) : Prop :=
  c.entry = 0#32 ∧ findEntry s (slotOf c.backtrace) c.backtrace
    (if s.zygoteChild then bytes ||| SIZE_FLAG_MASK else bytes) = .ok none

/-- One chain of `is_valid_entry`. -/
def onChain (m : Mem) (entry : Addr) : ℕ → Addr → Except Fault Bool
  | 0, _ => .error .loops
  | fuel + 1, e => if e = 0#32 then .ok false else if e = entry then .ok true else onChain m entry fuel (word m e nextField)

/-- `is_valid_entry`. -/
def isValidEntry (s : State) (entry : Addr) : Except Fault Bool :=
  if entry = 0#32 then .ok false
  else (List.range HASHTABLE_SIZE).anyM fun i => onChain s.mem entry (2 ^ 32) (s.slots i)

/-- `remove_entry`. -/
def removeEntry (s : State) (e : Addr) : State :=
  let prev := word s.mem e prevField
  let next := word s.mem e nextField
  let m := if prev ≠ 0#32 then setWord s.mem prev nextField next else s.mem
  let m := if next ≠ 0#32 then setWord m next prevField prev else m
  { s with
    mem := m
    slots := if prev = 0#32 then Function.update s.slots (word m e slotField).toNat (word m e nextField) else s.slots
    count := s.count - 1#32 }

/-! ### The interface -/

/-- The words of an `AllocationEntry`. -/
def entryField : ℕ := 0

def guardField : ℕ := 1

/-- `leak_malloc`. -/
def leakMalloc (s : State) (bytes : Word) (c : Alloc) : Except Fault (Addr × State) := do
  let s ← dlmalloc s (bytes + 8#32) c.base
  if c.base = 0#32 then return (0#32, s)
  let (e, s) ← recordBacktrace s bytes c
  let m := setWord s.mem c.base entryField e
  return (c.base + 8#32, { s with mem := setWord m c.base guardField GUARD })

/-- The header of a block, as `leak_free` finds it. -/
def findHeader (m : Mem) (p : Addr) : Addr :=
  if word m (p - 8#32) guardField ≠ GUARD ∧ read32 .little m (p - 4#32) = MEMALIGN_GUARD then
    read32 .little m (p - 8#32) - 8#32
  else p - 8#32

/-- The part of `leak_free` for a valid header. -/
def release (s : State) (header : Addr) : Except Fault State := do
  let e := word s.mem header entryField
  let s := { s with mem := setWord s.mem e allocationsField (word s.mem e allocationsField - 1#32) }
  let s ← if word s.mem e allocationsField = 0#32 then dlfree (removeEntry s e) e else .ok s
  dlfree s header

/-- `leak_free`. -/
def leakFree (s : State) (p : Addr) : Except Fault State := do
  if p = 0#32 then return s
  let header := findHeader s.mem p
  if word s.mem header guardField = GUARD then return ← release s header
  if ← isValidEntry s (word s.mem header entryField) then return ← release s header
  return s

/-- `leak_calloc`. -/
def leakCalloc (s : State) (n elem : Word) (c : Alloc) : Except Fault (Addr × State) := do
  if n ≠ 0#32 ∧ BitVec.allOnes 32 / n < elem then return (0#32, s)
  let size := n * elem
  let (p, s) ← leakMalloc s size c
  if p ≠ 0#32 then return (p, { s with mem := fill s.mem p size.toNat fun _ => 0#8 })
  return (p, s)

/-- `leak_realloc`. -/
def leakRealloc (s : State) (p : Addr) (bytes : Word) (c : Alloc) : Except Fault (Addr × State) := do
  if p = 0#32 then return ← leakMalloc s bytes c
  let header := p - 8#32
  if header ≠ 0#32 ∧ word s.mem header guardField = GUARD then
    let oldSize := word s.mem (word s.mem header entryField) sizeField &&& ~~~SIZE_FLAG_MASK
    let (q, s) ← leakMalloc s bytes c
    if q = 0#32 then return (q, s)
    let copySize := if oldSize ≤ bytes then oldSize else bytes
    let s := { s with mem := memcpy s.mem q p copySize.toNat }
    return (q, ← leakFree s p)
  dlrealloc s p bytes c.base

/-- The alignment that `leak_memalign` uses: the largest power of two that is not greater. -/
def powerOfTwo (alignment : Word) : Word :=
  if alignment &&& (alignment - 1#32) ≠ 0#32 then BitVec.ofNat 32 (2 ^ Nat.log2 alignment.toNat) else alignment

/-- `leak_memalign`. -/
def leakMemalign (s : State) (alignment bytes : Word) (c : Alloc) : Except Fault (Addr × State) := do
  if alignment ≤ MALLOC_ALIGNMENT then return ← leakMalloc s bytes c
  let alignment := powerOfTwo alignment
  let size := (alignment - MALLOC_ALIGNMENT) + bytes
  let (base, s) ← leakMalloc s size c
  if base = 0#32 then return (base, s)
  if base % alignment = 0#32 then return (base, s)
  let ptr := base + (-base) % alignment
  let m := write32 .little s.mem (ptr - 4#32) MEMALIGN_GUARD
  return (ptr, { s with mem := write32 .little m (ptr - 8#32) base })

end Bionic.MallocLeak
