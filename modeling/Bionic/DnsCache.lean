import Mathlib.Data.List.FinRange
import Mathlib.Data.List.Perm.Subperm
import Bionic.LinkedList
import Bionic.LinkedRing
import Bionic.DnsPacket
import Bionic.StateExcept

/-! # The cache of DNS answers (`libc/netbsd/resolv/res_cache.c`)

The entries of the cache hang in two structures at once: each is in the collision chain of its hash value, linked by
`hlink`, and in the ring `mru_list`, linked by `mru_next` and `mru_prev`, with the entry used last in front.  Addresses
are abstract, and a field of the entries is a function of the address.  A use of an entry that is not allocated is a
fault, and so is a walk along a chain that does not end after `CONFIG_MAX_ENTRIES` entries.

`calloc` returns null or the address of no entry in use, as the operation says.  The clock values are parameters of
the operations too.  The lock is held during each operation, so that a run is a sequence of operations. -/

namespace Bionic.DnsCache

open DnsPacket LinkedList LinkedRing StateExcept

abbrev Addr := ℕ

def CONFIG_SECONDS : BitVec 32 := 600#32

def CONFIG_MAX_ENTRIES : ℕ := 64

def MAX_HASH_ENTRIES : ℕ := 2 * CONFIG_MAX_ENTRIES

/-! ### State -/

/-- The fields of an entry that are no links.  The lengths are those of the lists. -/
structure Entry where
  hash : BitVec 32
  query : List Byte
  answer : List Byte
  when : BitVec 32
  id : BitVec 32
deriving DecidableEq, Repr

/-- A pointer of the ring, to `cache->mru_list` or to an entry. -/
inductive Node
  | list
  | entry (a : Addr)
deriving DecidableEq, Repr

/-- A pointer to a pointer of a chain. -/
inductive Slot
  | bucket (i : Fin MAX_HASH_ENTRIES)
  | hlink (a : Addr)
deriving DecidableEq, Repr

inductive Fault
  /-- An entry is used that is not allocated. -/
  | dangling
  /-- A chain does not end. -/
  | loops
deriving DecidableEq, Repr

/-- `struct resolv_cache`, and the entries. -/
structure Cache where
  numEntries : ℤ
  generation : BitVec 32
  lastId : BitVec 32
  entries : Fin MAX_HASH_ENTRIES → Option Addr
  heap : Addr → Option Entry
  hlink : Addr → Option Addr
  mruNext : Node → Node
  mruPrev : Node → Node

/-- `_resolv_cache_create`. -/
def resolvCacheCreate : Cache where
  numEntries := 0
  generation := BitVec.allOnes 32
  lastId := 0
  entries _ := none
  heap _ := none
  hlink _ := none
  mruNext _ := .list
  mruPrev _ := .list

/-- `hash % MAX_HASH_ENTRIES`. -/
def bucketOf (hash : BitVec 32) : Fin MAX_HASH_ENTRIES := ⟨hash.toNat % MAX_HASH_ENTRIES, Nat.mod_lt _ (by decide)⟩

namespace Cache

variable (s : Cache)

def deref (a : Addr) : Except Fault Entry :=
  match s.heap a with
  | none => .error .dangling
  | some e => .ok e

/-- The node can be used. -/
def valid : Node → Bool
  | .list => true
  | .entry a => (s.heap a).isSome

def setMruNext (n v : Node) : Except Fault Cache :=
  if s.valid n then .ok { s with mruNext := Function.update s.mruNext n v } else .error .dangling

def setMruPrev (n v : Node) : Except Fault Cache :=
  if s.valid n then .ok { s with mruPrev := Function.update s.mruPrev n v } else .error .dangling

/-- `*pnode`. -/
def load : Slot → Except Fault (Option Addr)
  | .bucket i => .ok (s.entries i)
  | .hlink a => if s.valid (.entry a) then .ok (s.hlink a) else .error .dangling

/-- `*pnode = v`. -/
def store : Slot → Option Addr → Except Fault Cache
  | .bucket i, v => .ok { s with entries := Function.update s.entries i v }
  | .hlink a, v =>
      if s.valid (.entry a) then .ok { s with hlink := Function.update s.hlink a v } else .error .dangling

end Cache

/-! ### Entries -/

/-- `entry_mru_remove`. -/
def entryMruRemove (s : Cache) (e : Node) : Except Fault Cache := do
  let s ← s.setMruNext (s.mruPrev e) (s.mruNext e)
  s.setMruPrev (s.mruNext e) (s.mruPrev e)

/-- `entry_mru_add`. -/
def entryMruAdd (s : Cache) (e head : Node) : Except Fault Cache := do
  let first := s.mruNext head
  let s ← s.setMruNext e first
  let s ← s.setMruPrev e head
  let s ← s.setMruNext head e
  s.setMruPrev first e

/-- `entry_free`. -/
def entryFree (s : Cache) (a : Addr) : Cache := { s with heap := Function.update s.heap a none }

/-- `entry_alloc`, where `calloc` returns `a`. -/
def entryAlloc (s : Cache) (a : Addr) (hash : BitVec 32) (query answer : List Byte) (now : BitVec 32) : Cache :=
  { s with
    heap := Function.update s.heap a (some ⟨hash, query, answer, now, 0⟩)
    hlink := Function.update s.hlink a none }

/-- The hash and the query of a node.  Those of `mru_list` are zero. -/
def keyOf (s : Cache) : Node → Except Fault (BitVec 32 × List Byte)
  | .list => .ok (0, [])
  | .entry a => do
      let e ← s.deref a
      return (e.hash, e.query)

/-! ### The table -/

/-- The loop of `_cache_lookup_p`, at the pointer `pnode`. -/
def lookupFrom (s : Cache) (hash : BitVec 32) (query : List Byte) : ℕ → Slot → Except Fault Slot
  | 0, _ => .error .loops
  | n + 1, pnode => do
      match ← s.load pnode with
      | none => return pnode
      | some node =>
          let e ← s.deref node
          if e.hash = hash ∧ entryEquals e.query query then return pnode
          lookupFrom s hash query n (.hlink node)

/-- `_cache_lookup_p`. -/
def cacheLookupP (s : Cache) (hash : BitVec 32) (query : List Byte) : Except Fault Slot :=
  lookupFrom s hash query (CONFIG_MAX_ENTRIES + 1) (.bucket (bucketOf hash))

/-- `_cache_add_p`. -/
def cacheAddP (s : Cache) (lookup : Slot) (a : Addr) : Except Fault Cache := do
  let s ← s.store lookup (some a)
  let e ← s.deref a
  let s := { s with lastId := s.lastId + 1, heap := Function.update s.heap a (some { e with id := s.lastId + 1 }) }
  let s ← entryMruAdd s (.entry a) .list
  return { s with numEntries := s.numEntries + 1 }

/-- `_cache_remove_p`, where `*lookup` is the entry `a`. -/
def cacheRemoveP (s : Cache) (lookup : Slot) (a : Addr) : Except Fault Cache := do
  let _ ← s.deref a
  let s ← entryMruRemove s (.entry a)
  let s ← s.store lookup (s.hlink a)
  let s := entryFree s a
  return { s with numEntries := s.numEntries - 1 }

/-- `_cache_remove_oldest`. -/
def cacheRemoveOldest (s : Cache) : Except Fault Cache := do
  let oldest := s.mruPrev .list
  let (hash, query) ← keyOf s oldest
  let lookup ← cacheLookupP s hash query
  match ← s.load lookup with
  | none => return s
  | some e => cacheRemoveP s lookup e

/-- The loop of `_cache_flush_locked` for one chain. -/
def flushChain (nn : Fin MAX_HASH_ENTRIES) : ℕ → Cache → Except Fault Cache
  | n, s =>
      match s.entries nn with
      | none => .ok s
      | some node =>
          match n with
          | 0 => .error .loops
          | n + 1 => do
              let _ ← s.deref node
              let s ← s.store (.bucket nn) (s.hlink node)
              flushChain nn n (entryFree s node)

/-- `_cache_flush_locked`. -/
def cacheFlushLocked (s : Cache) : Except Fault Cache := do
  let s ← (List.finRange MAX_HASH_ENTRIES).foldlM (fun s nn => flushChain nn CONFIG_MAX_ENTRIES s) s
  return { s with
    mruNext := Function.update s.mruNext .list .list
    mruPrev := Function.update s.mruPrev .list .list
    numEntries := 0
    lastId := 0 }

/-! ### The interface -/

inductive Status
  | unsupported
  | notFound
  | found
deriving DecidableEq, Repr

/-- What `_resolv_cache_lookup` returns, and stores in `*answerlen` and in `answer`. -/
structure Result where
  status : Status
  answerlen : Option ℕ
  answer : Option (List Byte)
deriving DecidableEq, Repr

/-- The part of `_resolv_cache_lookup` behind the lookup of the key, which has found the entry `a`. -/
def lookupHit (s : Cache) (lookup : Slot) (a : Addr) (answersize : ℕ) (now : BitVec 32) :
    Except Fault (Result × Cache) := do
  let e ← s.deref a
  if CONFIG_SECONDS ≤ now - e.when then
    return (⟨.notFound, none, none⟩, ← cacheRemoveP s lookup a)
  if answersize < e.answer.length then return (⟨.unsupported, some e.answer.length, none⟩, s)
  let result : Result := ⟨.found, some e.answer.length, some e.answer⟩
  if .entry a ≠ s.mruNext .list then
    let s ← entryMruRemove s (.entry a)
    return (result, ← entryMruAdd s (.entry a) .list)
  return (result, s)

/-- `_resolv_cache_lookup`. -/
def resolvCacheLookup (s : Cache) (query : List Byte) (answersize : ℕ) (now : BitVec 32) :
    Except Fault (Result × Cache) := do
  if checkQuery query = none then return (⟨.unsupported, none, none⟩, s)
  let lookup ← cacheLookupP s (entryHash query) query
  match ← s.load lookup with
  | none => return (⟨.notFound, none, none⟩, s)
  | some a => lookupHit s lookup a answersize now

/-- The end of `_resolv_cache_add`, from `entry_alloc` on. -/
def addEntry (s : Cache) (lookup : Slot) (query answer : List Byte) (now : BitVec 32) (calloc : Option Addr) :
    Except Fault Cache :=
  match calloc with
  | none => return s
  | some a => cacheAddP (entryAlloc s a (entryHash query) query answer now) lookup a

/-- `_resolv_cache_add`. -/
def resolvCacheAdd (s : Cache) (query answer : List Byte) (now : BitVec 32) (calloc : Option Addr) :
    Except Fault Cache := do
  if checkQuery query = none then return s
  let lookup ← cacheLookupP s (entryHash query) query
  if (← s.load lookup).isSome then return s
  if s.numEntries ≥ CONFIG_MAX_ENTRIES then
    let s ← cacheRemoveOldest s
    let lookup ← cacheLookupP s (entryHash query) query
    if (← s.load lookup).isSome then return s
    addEntry s lookup query answer now calloc
  else addEntry s lookup query answer now calloc

/-- `_resolv_cache_reset`. -/
def resolvCacheReset (s : Cache) (generation : BitVec 32) : Except Fault Cache := do
  if s.generation ≠ generation then
    let s ← cacheFlushLocked s
    return { s with generation := generation }
  return s

/-! ### Runs -/

/-- A call of the interface. -/
inductive Op
  | lookup (query : List Byte) (answersize : ℕ) (now : BitVec 32)
  | add (query answer : List Byte) (now : BitVec 32) (calloc : Option Addr)
  | reset (generation : BitVec 32)
deriving DecidableEq, Repr

/-- What a call returns. -/
def exec (s : Cache) : Op → Except Fault (Option Result × Cache)
  | .lookup query answersize now => do
      let (r, s) ← resolvCacheLookup s query answersize now
      return (some r, s)
  | .add query answer now calloc => do
      let s ← resolvCacheAdd s query answer now calloc
      return (none, s)
  | .reset generation => do
      let s ← resolvCacheReset s generation
      return (none, s)

/-! ### The invariant -/

abbrev Chains := Fin MAX_HASH_ENTRIES → List Addr

/-- The entries are `mru`, in the order of the ring, and `chain i` in the chain `i`. -/
structure Inv (s : Cache) (mru : List Addr) (chain : Chains) : Prop where
  ring : Ring s.mruNext s.mruPrev .list (mru.map .entry)
  seg : ∀ i, Seg s.hlink (s.entries i) (chain i) none
  mem : ∀ a, a ∈ mru ↔ ∃ i, a ∈ chain i
  live : ∀ a, (s.heap a).isSome ↔ a ∈ mru
  home : ∀ i, ∀ a ∈ chain i, ∀ e, s.heap a = some e → bucketOf e.hash = i
  keyed : ∀ a e, s.heap a = some e → e.hash = entryHash e.query ∧ (checkQuery e.query).isSome
  distinct : ∀ a b e f, s.heap a = some e → s.heap b = some f → a ≠ b → e.hash = f.hash →
    entryEquals e.query f.query = false
  count : s.numEntries = mru.length
  bound : mru.length ≤ CONFIG_MAX_ENTRIES

section Pointers

variable {s : Cache} {mru m₁ m₂ l l₁ r r' : List Addr} {chain : Chains} {i : Fin MAX_HASH_ENTRIES} {a x : Addr}

/-- The pointer behind the nodes `l`, which start at `pnode`. -/
def slotAfter (pnode : Slot) : List Addr → Slot
  | [] => pnode
  | a :: l => slotAfter (.hlink a) l

theorem slotAfter_concat (k : Slot) (l : List Addr) (a : Addr) : slotAfter k (l ++ [a]) = .hlink a := by
  induction l generalizing k with
  | nil => rfl
  | cons b l ih => exact ih _

theorem load_hlink (h : (s.heap a).isSome) : s.load (.hlink a) = .ok (s.hlink a) := if_pos h

theorem ne_of_live (fresh : s.heap x = none) (live : (s.heap a).isSome) : a ≠ x := by
  rintro rfl
  rw [fresh] at live
  cases live

theorem deref_eq {e : Entry} (h : s.heap a = some e) : s.deref a = .ok e := by
  unfold Cache.deref
  rw [h]

/-- The entry is the one that the key looks for. -/
def Matches (s : Cache) (hash : BitVec 32) (query : List Byte) (a : Addr) : Prop :=
  ∃ e, s.heap a = some e ∧ e.hash = hash ∧ entryEquals e.query query = true

/-- `_cache_lookup_p` stops at the first entry that matches, or at the end of the chain. -/
theorem lookupFrom_spec {hash : BitVec 32} {query : List Byte} {n : ℕ} {p : Option Addr} {k : Slot}
    (seg : Seg s.hlink p l none) (hk : s.load k = .ok p) (live : ∀ a ∈ l, (s.heap a).isSome) (hn : l.length < n) :
    ∃ l₁ r, l = l₁ ++ r ∧ lookupFrom s hash query n k = .ok (slotAfter k l₁) ∧
      s.load (slotAfter k l₁) = .ok r.head? ∧ (∀ a ∈ l₁, ¬ Matches s hash query a) ∧
      ∀ a ∈ r.head?, Matches s hash query a := by
  induction l generalizing n k p with
  | nil =>
      obtain rfl : p = none := seg
      obtain ⟨n, rfl⟩ := Nat.exists_eq_succ_of_ne_zero (Nat.ne_of_gt (Nat.lt_of_le_of_lt (Nat.zero_le _) hn))
      refine ⟨[], [], rfl, ?_, hk, fun a ha => absurd ha List.not_mem_nil, nofun⟩
      rw [lookupFrom, hk]
      rfl
  | cons a l ih =>
      obtain ⟨rfl, seg⟩ := seg
      obtain ⟨n, rfl⟩ := Nat.exists_eq_succ_of_ne_zero (Nat.ne_of_gt (Nat.lt_of_le_of_lt (Nat.zero_le _) hn))
      obtain ⟨e, he⟩ := Option.isSome_iff_exists.1 (live a List.mem_cons_self)
      have run : lookupFrom s hash query (n + 1) k =
          if e.hash = hash ∧ entryEquals e.query query then .ok k else lookupFrom s hash query n (.hlink a) := by
        rw [lookupFrom, hk]
        show (s.deref a >>= fun e => _) = _
        rw [deref_eq he]
        rfl
      by_cases hm : e.hash = hash ∧ entryEquals e.query query
      · refine ⟨[], a :: l, rfl, ?_, hk, fun b hb => absurd hb List.not_mem_nil, ?_⟩
        · rw [run, if_pos hm]
          rfl
        · rintro b hb
          obtain rfl := Option.some.inj hb
          exact ⟨e, he, hm⟩
      · obtain ⟨l₁, r, rfl, found, hload, other, here⟩ := ih seg (load_hlink (live a List.mem_cons_self))
          (fun b hb => live b (List.mem_cons_of_mem _ hb)) (Nat.lt_of_succ_lt_succ hn)
        refine ⟨a :: l₁, r, rfl, ?_, hload, fun b hb => ?_, here⟩
        · rw [run, if_neg hm, found]
          rfl
        · rcases List.mem_cons.1 hb with rfl | hb
          · rintro ⟨f, hf, hmatch⟩
            obtain rfl := Option.some.inj (he.symm.trans hf)
            exact hm hmatch
          · exact other b hb

/-- An assignment to the pointer behind `l₁` replaces the nodes behind `l₁`. -/
theorem store_spec {v : Option Addr} (seg : ∀ i, Seg s.hlink (s.entries i) (chain i) none)
    (hchain : chain i = l₁ ++ r) (live : ∀ a ∈ l₁, (s.heap a).isSome)
    (disjoint : ∀ a ∈ l₁, ∀ j, j ≠ i → a ∉ chain j) (hv : Seg s.hlink v r' none) (hr' : ∀ a ∈ l₁, a ∉ r') :
    ∃ E H, s.store (slotAfter (.bucket i) l₁) v = .ok { s with entries := E, hlink := H } ∧
      ∀ j, Seg H (E j) (Function.update chain i (l₁ ++ r') j) none := by
  rcases l₁.eq_nil_or_concat' with rfl | ⟨l, a, rfl⟩
  · refine ⟨Function.update s.entries i v, s.hlink, rfl, fun j => ?_⟩
    by_cases hj : j = i
    · subst hj
      rwa [Function.update_self, Function.update_self]
    · rw [Function.update_of_ne hj, Function.update_of_ne hj]
      exact seg j
  · rw [slotAfter_concat]
    have ha : a ∈ l ++ [a] := List.mem_append_right _ List.mem_cons_self
    refine ⟨s.entries, Function.update s.hlink a v, if_pos (live a ha), fun j => ?_⟩
    by_cases hj : j = i
    · subst hj
      have hseg := seg j
      rw [hchain, List.append_assoc, List.singleton_append] at hseg
      have hal : a ∉ l := fun hm => (List.nodup_append.1 hseg.nodup).2.2 a hm a List.mem_cons_self rfl
      rw [Function.update_self, List.append_assoc, List.singleton_append, seg_middle, Function.update_self]
      exact ⟨(seg_middle.1 hseg).1.update hal v, hv.update (hr' a ha) v⟩
    · rw [Function.update_of_ne hj]
      exact (seg j).update (disjoint a ha j hj) v

theorem mem_ring {n : Node} (h : n ∈ Node.list :: mru.map .entry) (live : ∀ a ∈ mru, (s.heap a).isSome) :
    s.valid n = true := by
  rcases List.mem_cons.1 h with rfl | h
  · rfl
  · obtain ⟨a, ha, rfl⟩ := List.mem_map.1 h
    exact live a ha

theorem entry_mem : Node.entry a ∈ Node.list :: mru.map .entry ↔ a ∈ mru := by
  simp

theorem entryMruRemove_spec (ring : Ring s.mruNext s.mruPrev .list ((m₁ ++ x :: m₂).map .entry))
    (live : ∀ a ∈ m₁ ++ x :: m₂, (s.heap a).isSome) :
    ∃ N P, entryMruRemove s (.entry x) = .ok { s with mruNext := N, mruPrev := P } ∧
      Ring N P .list ((m₁ ++ m₂).map .entry) := by
  have hx : Node.entry x ∈ Node.list :: (m₁ ++ x :: m₂).map .entry := by simp
  have hne : Node.entry x ≠ s.mruPrev (.entry x) := by
    intro he
    rw [List.map_append, List.map_cons] at ring
    have hm := (path_append.1 ring.path).1.prev_mem
    rw [← he] at hm
    have hn := List.nodup_cons.1 ring.nodup
    rcases List.mem_cons.1 hm with h | h
    · cases h
    · exact (List.nodup_append.1 hn.2).2.2 _ h _ List.mem_cons_self rfl
  refine ⟨Function.update s.mruNext (s.mruPrev (.entry x)) (s.mruNext (.entry x)),
    Function.update s.mruPrev (s.mruNext (.entry x)) (s.mruPrev (.entry x)),
    bind_eq_ok.2 ⟨_, if_pos (mem_ring (ring.prev_mem hx) live), ?_⟩, ?_⟩
  · dsimp only
    rw [Function.update_of_ne hne]
    exact if_pos (mem_ring (ring.next_mem hx) live)
  · rw [List.map_append] at ring ⊢
    exact ring.remove

theorem entryMruAdd_spec (ring : Ring s.mruNext s.mruPrev .list (mru.map .entry))
    (live : ∀ a ∈ mru, (s.heap a).isSome) (hx : x ∉ mru) (hlive : (s.heap x).isSome) :
    ∃ N P, entryMruAdd s (.entry x) .list = .ok { s with mruNext := N, mruPrev := P } ∧
      Ring N P .list ((x :: mru).map .entry) := by
  have hnext : s.valid (s.mruNext .list) = true := mem_ring (ring.next_mem List.mem_cons_self) live
  refine ⟨Function.update (Function.update s.mruNext (.entry x) (s.mruNext .list)) .list (.entry x),
    Function.update (Function.update s.mruPrev (.entry x) .list) (s.mruNext .list) (.entry x),
    bind_eq_ok.2 ⟨_, if_pos hlive, bind_eq_ok.2 ⟨_, if_pos hlive, bind_eq_ok.2 ⟨_, if_pos rfl, ?_⟩⟩⟩, ?_⟩
  · exact if_pos hnext
  · exact ring.push_front fun h => hx (entry_mem.1 h)

end Pointers

/-! ### The operations keep the invariant -/

theorem mem_remove {l r : List Addr} {x a : Addr} (h : (l ++ x :: r).Nodup) :
    a ∈ l ++ r ↔ a ∈ l ++ x :: r ∧ a ≠ x := by
  have hm := List.nodup_cons.1 (List.nodup_middle.1 h)
  rw [List.perm_middle.mem_iff, List.mem_cons]
  constructor
  · intro ha
    refine ⟨.inr ha, ?_⟩
    rintro rfl
    exact hm.1 ha
  · rintro ⟨ha, hne⟩
    exact ha.resolve_left hne

namespace Inv

variable {s : Cache} {mru m₁ m₂ l₁ r : List Addr} {chain : Chains} {i j : Fin MAX_HASH_ENTRIES} {a x : Addr}

theorem nodup (h : Inv s mru chain) : mru.Nodup :=
  (List.nodup_cons.1 h.ring.nodup).2.of_map _

theorem chain_live (h : Inv s mru chain) (ha : a ∈ chain i) : (s.heap a).isSome :=
  (h.live a).2 ((h.mem a).2 ⟨i, ha⟩)

/-- No entry is in two chains. -/
theorem disjoint (h : Inv s mru chain) (hi : a ∈ chain i) (hj : a ∈ chain j) : i = j := by
  obtain ⟨e, he⟩ := Option.isSome_iff_exists.1 (h.chain_live hi)
  rw [← h.home i a hi e he, h.home j a hj e he]

theorem mem_chain (h : Inv s mru chain) {e : Entry} (he : s.heap a = some e) : a ∈ chain (bucketOf e.hash) := by
  obtain ⟨i, hi⟩ := (h.mem a).1 ((h.live a).1 (Option.isSome_iff_exists.2 ⟨e, he⟩))
  rwa [h.home i a hi e he]

theorem chain_length (h : Inv s mru chain) (i : Fin MAX_HASH_ENTRIES) : (chain i).length ≤ CONFIG_MAX_ENTRIES := by
  have sub : chain i ⊆ mru := fun a ha => (h.mem a).2 ⟨i, ha⟩
  exact ((h.seg i).nodup.subperm sub).length_le.trans h.bound

/-- The table holds each entry of the ring once. -/
theorem perm (h : Inv s mru chain) : mru.Perm ((List.finRange MAX_HASH_ENTRIES).flatMap chain) := by
  refine (List.perm_ext_iff_of_nodup h.nodup ?_).2 fun a => ?_
  · refine List.nodup_flatMap.2 ⟨fun i _ => (h.seg i).nodup, ?_⟩
    refine (List.nodup_finRange _).imp fun ne => List.disjoint_left.2 fun a hi hj => ?_
    exact ne (h.disjoint hi hj)
  · rw [h.mem, List.mem_flatMap]
    exact ⟨fun ⟨i, hi⟩ => ⟨i, List.mem_finRange i, hi⟩, fun ⟨i, _, hi⟩ => ⟨i, hi⟩⟩

theorem lookup (h : Inv s mru chain) (hash : BitVec 32) (query : List Byte) :
    ∃ l₁ r, chain (bucketOf hash) = l₁ ++ r ∧
      cacheLookupP s hash query = .ok (slotAfter (.bucket (bucketOf hash)) l₁) ∧
      s.load (slotAfter (.bucket (bucketOf hash)) l₁) = .ok r.head? ∧ (∀ a ∈ l₁, ¬ Matches s hash query a) ∧
      ∀ a ∈ r.head?, Matches s hash query a :=
  lookupFrom_spec (h.seg _) rfl (fun _ ha => h.chain_live ha) (Nat.lt_succ_of_le (h.chain_length _))

/-- `_cache_remove_p` takes the entry `x` out of its chain and out of the ring. -/
theorem removeP (h : Inv s (m₁ ++ x :: m₂) chain) (hchain : chain i = l₁ ++ x :: r) :
    ∃ s', cacheRemoveP s (slotAfter (.bucket i) l₁) x = .ok s' ∧
      Inv s' (m₁ ++ m₂) (Function.update chain i (l₁ ++ r)) ∧ s'.heap = Function.update s.heap x none ∧
      s'.generation = s.generation := by
  have hx : x ∈ m₁ ++ x :: m₂ := List.mem_append_right _ List.mem_cons_self
  have hxi : x ∈ chain i := by rw [hchain]; exact List.mem_append_right _ List.mem_cons_self
  obtain ⟨e, he⟩ := Option.isSome_iff_exists.1 ((h.live x).2 hx)
  obtain ⟨N, P, hring, ring⟩ := entryMruRemove_spec h.ring fun a ha => (h.live a).2 ha
  have seg := h.seg i
  rw [hchain] at seg
  have hn := List.nodup_append.1 seg.nodup
  have hl₁ : ∀ a ∈ l₁, a ∈ chain i := fun a ha => hchain ▸ List.mem_append_left _ ha
  obtain ⟨E, H, hstore, chains⟩ := store_spec (s := { s with mruNext := N, mruPrev := P }) h.seg hchain
    (fun a ha => h.chain_live (hl₁ a ha)) (fun a ha j hj hm => hj (h.disjoint hm (hl₁ a ha)))
    (seg_middle.1 seg).2 fun a ha hm => hn.2.2 a ha a (List.mem_cons_of_mem _ hm) rfl
  refine ⟨_, bind_eq_ok.2 ⟨e, deref_eq he, bind_eq_ok.2 ⟨_, hring, bind_eq_ok.2 ⟨_, hstore, rfl⟩⟩⟩, ?_, rfl, rfl⟩
  have hchains (a : Addr) (j : Fin MAX_HASH_ENTRIES) :
      a ∈ Function.update chain i (l₁ ++ r) j ↔ a ∈ chain j ∧ a ≠ x := by
    by_cases hj : j = i
    · subst hj
      rw [Function.update_self, hchain]
      exact mem_remove seg.nodup
    · rw [Function.update_of_ne hj]
      refine ⟨fun ha => ⟨ha, ?_⟩, And.left⟩
      rintro rfl
      exact hj (h.disjoint ha hxi)
  have old {a : Addr} {e : Entry} (ha : Function.update s.heap x none a = some e) : s.heap a = some e := by
    by_cases hax : a = x
    · rw [hax, Function.update_self] at ha
      cases ha
    · rwa [Function.update_of_ne hax] at ha
  exact {
    ring := ring
    seg := chains
    mem := fun a => by
      rw [mem_remove h.nodup, h.mem]
      constructor
      · rintro ⟨⟨j, hj⟩, hne⟩
        exact ⟨j, (hchains a j).2 ⟨hj, hne⟩⟩
      · rintro ⟨j, hj⟩
        obtain ⟨hj, hne⟩ := (hchains a j).1 hj
        exact ⟨⟨j, hj⟩, hne⟩
    live := fun a => by
      rw [mem_remove h.nodup, ← h.live]
      show (Function.update s.heap x none a).isSome ↔ _
      by_cases hax : a = x
      · rw [hax, Function.update_self]
        exact ⟨nofun, fun hh => absurd rfl hh.2⟩
      · rw [Function.update_of_ne hax]
        exact ⟨fun hh => ⟨hh, hax⟩, And.left⟩
    home := fun j a ha e he => h.home j a ((hchains a j).1 ha).1 e (old he)
    keyed := fun a e he => h.keyed a e (old he)
    distinct := fun a b e f he hf => h.distinct a b e f (old he) (old hf)
    count := by
      show s.numEntries - 1 = _
      rw [h.count, List.length_append, List.length_append, List.length_cons]
      omega
    bound := by
      have hb := h.bound
      rw [List.length_append, List.length_cons] at hb
      rw [List.length_append]
      omega }

/-- The pointers after `_cache_add_p`. -/
theorem addEntry_run (h : Inv s mru chain) (hash : BitVec 32) (query answer : List Byte) (now : BitVec 32)
    (hchain : chain i = l₁) (fresh : s.heap a = none) :
    ∃ E H N P, cacheAddP (entryAlloc s a hash query answer now) (slotAfter (.bucket i) l₁) a = .ok
      { s with
        entries := E, hlink := H, mruNext := N, mruPrev := P, lastId := s.lastId + 1, numEntries := s.numEntries + 1
        heap := Function.update s.heap a (some ⟨hash, query, answer, now, s.lastId + 1⟩) } ∧
      (∀ j, Seg H (E j) (Function.update chain i (l₁ ++ [a]) j) none) ∧ Ring N P .list ((a :: mru).map .entry) := by
  have notMem : a ∉ mru := fun ha => ne_of_live fresh ((h.live a).2 ha) rfl
  have hl₁ : ∀ b ∈ l₁, b ∈ chain i := fun b hb => hchain ▸ hb
  have allocated {b : Addr} (v : Entry) (hb : (s.heap b).isSome) : (Function.update s.heap a (some v) b).isSome := by
    rwa [Function.update_of_ne (ne_of_live fresh hb)]
  have seg (j : Fin MAX_HASH_ENTRIES) : Seg (Function.update s.hlink a none) (s.entries j) (chain j) none :=
    (h.seg j).update (fun ha => ne_of_live fresh (h.chain_live ha) rfl) none
  have new : Seg (Function.update s.hlink a none) (some a) [a] none :=
    seg_cons.2 ⟨rfl, seg_nil.2 (Function.update_self _ _ _)⟩
  obtain ⟨E, H, hstore, chains⟩ := store_spec (s := entryAlloc s a hash query answer now) (r := []) seg
    (by rw [hchain, List.append_nil]) (fun b hb => allocated _ (h.chain_live (hl₁ b hb)))
    (fun b hb j hj hm => hj (h.disjoint hm (hl₁ b hb))) new
    fun b hb hm => ne_of_live fresh (h.chain_live (hl₁ b hb)) (List.mem_singleton.1 hm)
  have entry : Function.update s.heap a (some ⟨hash, query, answer, now, 0⟩) a =
      some ⟨hash, query, answer, now, 0⟩ := Function.update_self _ _ _
  have idem : Function.update (Function.update s.heap a (some ⟨hash, query, answer, now, 0⟩)) a
      (some ⟨hash, query, answer, now, s.lastId + 1⟩) =
      Function.update s.heap a (some ⟨hash, query, answer, now, s.lastId + 1⟩) := Function.update_idem _ _ _
  obtain ⟨N, P, hring, ring⟩ := entryMruAdd_spec (x := a) (s := { s with
      entries := E, hlink := H, lastId := s.lastId + 1
      heap := Function.update s.heap a (some ⟨hash, query, answer, now, s.lastId + 1⟩) }) h.ring
    (fun b hb => allocated _ ((h.live b).2 hb)) notMem (Option.isSome_iff_exists.2 ⟨_, Function.update_self _ _ _⟩)
  refine ⟨E, H, N, P, bind_eq_ok.2 ⟨_, hstore, bind_eq_ok.2 ⟨_, deref_eq entry, ?_⟩⟩, chains, ring⟩
  simp only [entryAlloc, idem]
  exact bind_eq_ok.2 ⟨_, hring, rfl⟩

/-- `_cache_add_p` appends a new entry to its chain, and puts it in front of the ring. -/
theorem addEntry (h : Inv s mru chain) {query : List Byte} (hchain : chain (bucketOf (entryHash query)) = l₁)
    (checked : (checkQuery query).isSome) (fresh : s.heap a = none) (room : mru.length < CONFIG_MAX_ENTRIES)
    (other : ∀ b e, s.heap b = some e → e.hash = entryHash query →
      entryEquals e.query query = false ∧ entryEquals query e.query = false) (answer : List Byte) (now : BitVec 32) :
    ∃ s' id, addEntry s (slotAfter (.bucket (bucketOf (entryHash query))) l₁) query answer now (some a) = .ok s' ∧
      Inv s' (a :: mru) (Function.update chain (bucketOf (entryHash query)) (l₁ ++ [a])) ∧
      s'.heap = Function.update s.heap a (some ⟨entryHash query, query, answer, now, id⟩) ∧
      s'.generation = s.generation := by
  obtain ⟨E, H, N, P, run, chains, ring⟩ := h.addEntry_run (entryHash query) query answer now hchain fresh
  refine ⟨_, s.lastId + 1, run, ?_, rfl, rfl⟩
  have notChain {b : Addr} {j : Fin MAX_HASH_ENTRIES} (hb : b ∈ chain j) : b ≠ a :=
    ne_of_live fresh (h.chain_live hb)
  generalize hheap : Function.update s.heap a (some ⟨entryHash query, query, answer, now, s.lastId + 1⟩) = heap
  have old {b : Addr} (hb : b ≠ a) : heap b = s.heap b := by rw [← hheap, Function.update_of_ne hb]
  have new : heap a = some ⟨entryHash query, query, answer, now, s.lastId + 1⟩ := by
    rw [← hheap, Function.update_self]
  have inChain (b : Addr) (j : Fin MAX_HASH_ENTRIES) :
      b ∈ Function.update chain (bucketOf (entryHash query)) (l₁ ++ [a]) j ↔
        b ∈ chain j ∨ b = a ∧ j = bucketOf (entryHash query) := by
    by_cases hj : j = bucketOf (entryHash query)
    · rw [hj, Function.update_self, List.mem_append, List.mem_singleton, hchain, and_iff_left rfl]
    · rw [Function.update_of_ne hj]
      exact ⟨.inl, fun hb => hb.resolve_right fun hh => hj hh.2⟩
  exact {
    ring := ring
    seg := chains
    mem := fun b => by
      rw [List.mem_cons, h.mem]
      constructor
      · rintro (rfl | ⟨j, hj⟩)
        · exact ⟨_, (inChain b _).2 (.inr ⟨rfl, rfl⟩)⟩
        · exact ⟨j, (inChain b j).2 (.inl hj)⟩
      · rintro ⟨j, hj⟩
        rcases (inChain b j).1 hj with hj | ⟨rfl, -⟩
        · exact .inr ⟨j, hj⟩
        · exact .inl rfl
    live := fun b => by
      rw [List.mem_cons, ← h.live]
      show (heap b).isSome ↔ _
      by_cases hb : b = a
      · rw [hb, new]
        exact ⟨fun _ => .inl rfl, fun _ => rfl⟩
      · rw [old hb]
        exact ⟨.inr, fun hh => hh.resolve_left hb⟩
    home := fun j b hb e (he : heap b = some e) => by
      rcases (inChain b j).1 hb with hb | ⟨rfl, rfl⟩
      · rw [old (notChain hb)] at he
        exact h.home j b hb e he
      · rw [new] at he
        rw [← Option.some.inj he]
    keyed := fun b e (he : heap b = some e) => by
      by_cases hb : b = a
      · rw [hb, new] at he
        rw [← Option.some.inj he]
        exact ⟨rfl, checked⟩
      · rw [old hb] at he
        exact h.keyed b e he
    distinct := fun b c e f (he : heap b = some e) (hf : heap c = some f) ne hash => by
      by_cases hb : b = a
      · have hc : c ≠ a := fun hc => ne (hb.trans hc.symm)
        rw [hb, new] at he
        rw [old hc] at hf
        obtain rfl := Option.some.inj he
        exact (other c f hf hash.symm).2
      · rw [old hb] at he
        by_cases hc : c = a
        · rw [hc, new] at hf
          obtain rfl := Option.some.inj hf
          exact (other b e he hash).1
        · rw [old hc] at hf
          exact h.distinct b c e f he hf ne hash
    count := by
      show s.numEntries + 1 = _
      rw [h.count, List.length_cons]
      rfl
    bound := room }

/-- The entries in another order. -/
theorem reorder (h : Inv s mru chain) {mru' : List Addr} {N P : Node → Node} (perm : mru'.Perm mru)
    (ring : Ring N P .list (mru'.map .entry)) : Inv { s with mruNext := N, mruPrev := P } mru' chain where
  ring := ring
  seg := h.seg
  mem a := perm.mem_iff.trans (h.mem a)
  live a := (h.live a).trans perm.mem_iff.symm
  home := h.home
  keyed := h.keyed
  distinct := h.distinct
  count := h.count.trans (congrArg _ perm.length_eq.symm)
  bound := perm.length_eq.trans_le h.bound

/-- A hit moves its entry to the front of the ring. -/
theorem bump (h : Inv s (m₁ ++ x :: m₂) chain) :
    ∃ s', (do
        let s ← entryMruRemove s (.entry x)
        entryMruAdd s (.entry x) .list) = .ok s' ∧
      Inv s' (x :: (m₁ ++ m₂)) chain ∧ s'.heap = s.heap ∧ s'.generation = s.generation := by
  have live : ∀ a ∈ m₁ ++ x :: m₂, (s.heap a).isSome := fun a ha => (h.live a).2 ha
  have nodup := List.nodup_cons.1 (List.nodup_middle.1 h.nodup)
  obtain ⟨N, P, hremove, ring⟩ := entryMruRemove_spec h.ring live
  obtain ⟨N', P', hadd, ring'⟩ := entryMruAdd_spec (s := { s with mruNext := N, mruPrev := P }) ring
    (fun a ha => live a (List.perm_middle.mem_iff.2 (List.mem_cons_of_mem _ ha))) nodup.1
    (live x (List.mem_append_right _ List.mem_cons_self))
  exact ⟨_, bind_eq_ok.2 ⟨_, hremove, hadd⟩, h.reorder List.perm_middle.symm ring', rfl, rfl⟩

/-- The key of an entry leads to that entry. -/
theorem found (h : Inv s mru chain) {e : Entry} (he : s.heap x = some e) :
    ∃ l₁ r, chain (bucketOf e.hash) = l₁ ++ x :: r ∧
      cacheLookupP s e.hash e.query = .ok (slotAfter (.bucket (bucketOf e.hash)) l₁) ∧
      s.load (slotAfter (.bucket (bucketOf e.hash)) l₁) = .ok (some x) := by
  obtain ⟨l₁, r, hchain, hlookup, hload, before, here⟩ := h.lookup e.hash e.query
  have self : Matches s e.hash e.query x := by
    obtain ⟨_, hq⟩ := Option.isSome_iff_exists.1 (h.keyed x e he).2
    exact ⟨e, he, rfl, entryEquals_refl hq⟩
  have hx : x ∈ l₁ ++ r := hchain ▸ h.mem_chain he
  have hr : x ∈ r := (List.mem_append.1 hx).resolve_left fun hm => before x hm self
  cases r with
  | nil => exact absurd hr List.not_mem_nil
  | cons y r =>
      obtain ⟨f, hf, hash, equal⟩ := here y rfl
      have same : y = x := by
        by_contra ne
        rw [h.distinct y x f e hf he ne hash] at equal
        cases equal
      rw [same] at hchain hload
      exact ⟨l₁, r, hchain, hlookup, hload⟩

theorem last_eq (h : Inv s (m₁ ++ [x]) chain) : s.mruPrev .list = .entry x := by
  have ring := h.ring
  rw [List.map_append] at ring
  exact ring.prev_eq

/-- `_cache_remove_oldest` finds the last entry of the ring, and removes it. -/
theorem removeOldest (h : Inv s (m₁ ++ [x]) chain) :
    ∃ s' chain', cacheRemoveOldest s = .ok s' ∧ Inv s' m₁ chain' ∧ s'.heap = Function.update s.heap x none ∧
      s'.generation = s.generation := by
  obtain ⟨e, he⟩ := Option.isSome_iff_exists.1 ((h.live x).2 (List.mem_append_right _ List.mem_cons_self))
  obtain ⟨l₁, r, hchain, hlookup, hload⟩ := h.found he
  obtain ⟨s', hremove, inv, heap, generation⟩ := h.removeP hchain
  rw [List.append_nil] at inv
  refine ⟨s', _, bind_eq_ok.2 ⟨(e.hash, e.query), ?_, bind_eq_ok.2 ⟨_, hlookup, bind_eq_ok.2 ⟨_, hload, hremove⟩⟩⟩,
    inv, heap, generation⟩
  rw [h.last_eq]
  exact bind_eq_ok.2 ⟨e, deref_eq he, rfl⟩

omit s mru m₁ m₂ l₁ r chain i j a x in
theorem flushChain_spec {s : Cache} {l : List Addr} {nn : Fin MAX_HASH_ENTRIES} {n : ℕ}
    (seg : Seg s.hlink (s.entries nn) l none) (live : ∀ a ∈ l, (s.heap a).isSome) (hn : l.length ≤ n) :
    flushChain nn n s = .ok { s with
      entries := Function.update s.entries nn none, heap := fun a => if a ∈ l then none else s.heap a } := by
  induction l generalizing s n with
  | nil =>
      have hs : s.entries nn = none := seg
      rw [flushChain, hs]
      simp only [List.not_mem_nil, if_false]
      rw [← hs, Function.update_eq_self]
  | cons a l ih =>
      obtain ⟨hs, hl⟩ := seg
      obtain ⟨n, rfl⟩ := Nat.exists_eq_succ_of_ne_zero (Nat.ne_of_gt (Nat.lt_of_lt_of_le (Nat.succ_pos _) hn))
      obtain ⟨e, he⟩ := Option.isSome_iff_exists.1 (live a List.mem_cons_self)
      have notMem : a ∉ l := by
        have nodup : (a :: l).Nodup := Seg.nodup ⟨hs, hl⟩
        exact (List.nodup_cons.1 nodup).1
      have rest := ih (n := n) (s := { s with
          entries := Function.update s.entries nn (s.hlink a), heap := Function.update s.heap a none })
        ?_ (fun b hb => ?_) (Nat.le_of_succ_le_succ hn)
      · rw [flushChain, hs]
        refine bind_eq_ok.2 ⟨e, deref_eq he, rest.trans ?_⟩
        simp only [Function.update_idem, List.mem_cons]
        congr 2
        funext b
        by_cases hb : b = a
        · rw [hb, if_neg notMem, Function.update_self, if_pos (.inl rfl)]
        · rw [Function.update_of_ne hb]
          simp only [hb, false_or]
      · show Seg s.hlink (Function.update s.entries nn (s.hlink a) nn) l none
        rw [Function.update_self]
        exact hl
      · have hne : b ≠ a := fun hba => notMem (hba ▸ hb)
        show (Function.update s.heap a none b).isSome
        rw [Function.update_of_ne hne]
        exact live b (List.mem_cons_of_mem _ hb)

omit s mru m₁ m₂ l₁ r i j a x in
theorem flushChains_spec {s : Cache} {buckets : List (Fin MAX_HASH_ENTRIES)} (nodup : buckets.Nodup)
    (seg : ∀ i ∈ buckets, Seg s.hlink (s.entries i) (chain i) none)
    (live : ∀ i ∈ buckets, ∀ a ∈ chain i, (s.heap a).isSome)
    (disjoint : ∀ i j a, a ∈ chain i → a ∈ chain j → i = j)
    (length : ∀ i, (chain i).length ≤ CONFIG_MAX_ENTRIES) :
    buckets.foldlM (fun s nn => flushChain nn CONFIG_MAX_ENTRIES s) s = .ok { s with
      entries := fun i => if i ∈ buckets then none else s.entries i
      heap := fun a => if a ∈ buckets.flatMap chain then none else s.heap a } := by
  induction buckets generalizing s with
  | nil => simp only [List.foldlM_nil, List.flatMap_nil, List.not_mem_nil, if_false, pure_eq_ok]
  | cons nn buckets ih =>
      have hnn := List.nodup_cons.1 nodup
      rw [List.foldlM_cons]
      refine bind_eq_ok.2 ⟨_, flushChain_spec (seg nn List.mem_cons_self) (live nn List.mem_cons_self) (length nn),
        (ih hnn.2 (fun i hi => ?_) fun i hi a ha => ?_).trans ?_⟩
      · have hne : i ≠ nn := fun he => hnn.1 (he ▸ hi)
        show Seg s.hlink (Function.update s.entries nn none i) (chain i) none
        rw [Function.update_of_ne hne]
        exact seg i (List.mem_cons_of_mem _ hi)
      · have hne : a ∉ chain nn := fun hm => hnn.1 (disjoint i nn a ha hm ▸ hi)
        show (if a ∈ chain nn then none else s.heap a).isSome
        rw [if_neg hne]
        exact live i (List.mem_cons_of_mem _ hi) a ha
      · congr 2
        · funext i
          by_cases hi : i = nn
          · simp [hi]
          · simp [hi]
        · funext a
          by_cases ha : a ∈ chain nn
          · simp [ha]
          · simp [ha]

/-- `_cache_flush_locked` frees all entries. -/
theorem flush (h : Inv s mru chain) :
    ∃ s', cacheFlushLocked s = .ok s' ∧ Inv s' [] (fun _ => []) ∧ (∀ a, s'.heap a = none) ∧
      s'.generation = s.generation := by
  have run := flushChains_spec (List.nodup_finRange MAX_HASH_ENTRIES) (fun i _ => h.seg i)
    (fun i _ a ha => h.chain_live ha) (fun i j a hi hj => h.disjoint hi hj) h.chain_length
  have empty (a : Addr) :
      (if a ∈ (List.finRange MAX_HASH_ENTRIES).flatMap chain then none else s.heap a) = none := by
    split
    · rfl
    · next hne =>
      rw [Option.eq_none_iff_forall_not_mem]
      intro e he
      exact hne (List.mem_flatMap.2 ⟨_, List.mem_finRange _, h.mem_chain he⟩)
  have self (f : Node → Node) : Function.update f .list .list .list = .list := Function.update_self _ _ _
  refine ⟨_, bind_eq_ok.2 ⟨_, run, rfl⟩, ?_, empty, rfl⟩
  exact {
    ring := .nil (self s.mruNext) (self s.mruPrev)
    seg := fun i => if_pos (List.mem_finRange i)
    mem := fun a => by simp
    live := fun a => by
      show (if a ∈ (List.finRange MAX_HASH_ENTRIES).flatMap chain then none else s.heap a).isSome ↔ _
      rw [empty a]
      exact ⟨nofun, fun ha => absurd ha List.not_mem_nil⟩
    home := fun i a ha => absurd ha List.not_mem_nil
    keyed := fun a e he => absurd ((empty a).symm.trans he) nofun
    distinct := fun a b e f he => absurd ((empty a).symm.trans he) nofun
    count := rfl
    bound := Nat.zero_le _ }

end Inv

/-! ### What a call does -/

/-- The conditions of a call: a query has a header, and `calloc` returns no entry in use.  It may return the one that
the call has evicted. -/
def Allowed (s : Cache) : Op → Prop
  | .lookup query _ _ => 12 ≤ query.length
  | .add query _ _ calloc => 12 ≤ query.length ∧
      ∀ a ∈ calloc, s.heap a = none ∨ CONFIG_MAX_ENTRIES ≤ s.numEntries ∧ s.mruPrev .list = .entry a
  | .reset _ => True

/-- The entry `x` of the ring has the key `query`. -/
structure Hit (s : Cache) (query : List Byte) (x : Addr) (e : Entry) : Prop where
  entry : s.heap x = some e
  hash : e.hash = entryHash query
  equals : entryEquals e.query query = true

/-- The last entry is evicted if the table is full. -/
def Evicts (s : Cache) (mru kept : List Addr) (heap : Addr → Option Entry) : Prop :=
  mru.length < CONFIG_MAX_ENTRIES ∧ kept = mru ∧ heap = s.heap ∨
    ∃ x, CONFIG_MAX_ENTRIES ≤ mru.length ∧ mru = kept ++ [x] ∧ heap = Function.update s.heap x none

/-- The result of a call, and the entries afterwards. -/
inductive Effect (s s' : Cache) (mru : List Addr) : Op → Option Result → List Addr → Prop
  | malformed {query size now} (unchecked : checkQuery query = none) (same : s' = s) :
      Effect s s' mru (.lookup query size now) (some ⟨.unsupported, none, none⟩) mru
  | miss {query size now} (checked : (checkQuery query).isSome) (absent : ∀ x e, ¬ Hit s query x e) (same : s' = s) :
      Effect s s' mru (.lookup query size now) (some ⟨.notFound, none, none⟩) mru
  | stale {query size now m₁ m₂ x e} (checked : (checkQuery query).isSome) (split : mru = m₁ ++ x :: m₂)
      (hit : Hit s query x e) (old : CONFIG_SECONDS ≤ now - e.when) (heap : s'.heap = Function.update s.heap x none)
      (generation : s'.generation = s.generation) :
      Effect s s' mru (.lookup query size now) (some ⟨.notFound, none, none⟩) (m₁ ++ m₂)
  | long {query size now x e} (checked : (checkQuery query).isSome) (hit : Hit s query x e)
      (young : ¬ CONFIG_SECONDS ≤ now - e.when) (length : size < e.answer.length) (same : s' = s) :
      Effect s s' mru (.lookup query size now) (some ⟨.unsupported, some e.answer.length, none⟩) mru
  | found {query size now m₁ m₂ x e} (checked : (checkQuery query).isSome) (split : mru = m₁ ++ x :: m₂)
      (hit : Hit s query x e) (young : ¬ CONFIG_SECONDS ≤ now - e.when) (length : e.answer.length ≤ size)
      (heap : s'.heap = s.heap) (generation : s'.generation = s.generation) :
      Effect s s' mru (.lookup query size now) (some ⟨.found, some e.answer.length, some e.answer⟩)
        (x :: (m₁ ++ m₂))
  | invalid {query answer now calloc} (unchecked : checkQuery query = none) (same : s' = s) :
      Effect s s' mru (.add query answer now calloc) none mru
  | present {query answer now calloc x e} (checked : (checkQuery query).isSome) (hit : Hit s query x e)
      (same : s' = s) : Effect s s' mru (.add query answer now calloc) none mru
  | noMemory {query answer now kept} (checked : (checkQuery query).isSome) (absent : ∀ x e, ¬ Hit s query x e)
      (evicts : Evicts s mru kept s'.heap) (generation : s'.generation = s.generation) :
      Effect s s' mru (.add query answer now none) none kept
  | added {query answer now kept heap a id} (checked : (checkQuery query).isSome) (absent : ∀ x e, ¬ Hit s query x e)
      (evicts : Evicts s mru kept heap) (fresh : heap a = none)
      (new : s'.heap = Function.update heap a (some ⟨entryHash query, query, answer, now, id⟩))
      (generation : s'.generation = s.generation) : Effect s s' mru (.add query answer now (some a)) none (a :: kept)
  | sameGeneration (same : s' = s) : Effect s s' mru (.reset s.generation) none mru
  | flushed {g} (other : s.generation ≠ g) (empty : ∀ a, s'.heap a = none) (generation : s'.generation = g) :
      Effect s s' mru (.reset g) none []

namespace Inv

variable {s : Cache} {mru : List Addr} {chain : Chains} {query : List Byte} {x : Addr}

/-- The lookup of a key stops at its entry, or at the end of its chain if there is none. -/
theorem lookup_cases (h : Inv s mru chain) (query : List Byte) :
    ∃ l₁, cacheLookupP s (entryHash query) query = .ok (slotAfter (.bucket (bucketOf (entryHash query))) l₁) ∧
      (chain (bucketOf (entryHash query)) = l₁ ∧ (∀ x e, ¬ Hit s query x e) ∧
          s.load (slotAfter (.bucket (bucketOf (entryHash query))) l₁) = .ok none ∨
        ∃ x e r, chain (bucketOf (entryHash query)) = l₁ ++ x :: r ∧ Hit s query x e ∧
          s.load (slotAfter (.bucket (bucketOf (entryHash query))) l₁) = .ok (some x)) := by
  obtain ⟨l₁, r, hchain, hlookup, hload, before, here⟩ := h.lookup (entryHash query) query
  refine ⟨l₁, hlookup, ?_⟩
  cases r with
  | nil =>
      rw [List.append_nil] at hchain
      refine .inl ⟨hchain, fun x e hit => ?_, hload⟩
      have hx := h.mem_chain hit.entry
      rw [hit.hash, hchain] at hx
      exact before x hx ⟨e, hit.entry, hit.hash, hit.equals⟩
  | cons x r =>
      obtain ⟨e, he, hash, equals⟩ := here x rfl
      exact .inr ⟨x, e, r, hchain, ⟨he, hash, equals⟩, hload⟩

theorem lookupHit_spec (h : Inv s mru chain) {e : Entry} {l₁ r : List Addr} {i : Fin MAX_HASH_ENTRIES} (size : ℕ)
    (now : BitVec 32) (checked : (checkQuery query).isSome) (hit : Hit s query x e) (hchain : chain i = l₁ ++ x :: r) :
    ∃ r s' mru' chain', lookupHit s (slotAfter (.bucket i) l₁) x size now = .ok (r, s') ∧ Inv s' mru' chain' ∧
      Effect s s' mru (.lookup query size now) (some r) mru' := by
  obtain ⟨m₁, m₂, rfl⟩ := List.append_of_mem ((h.live x).1 (Option.isSome_iff_exists.2 ⟨e, hit.entry⟩))
  unfold lookupHit
  rw [deref_eq hit.entry]
  by_cases old : CONFIG_SECONDS ≤ now - e.when
  · obtain ⟨s', hremove, inv, heap, generation⟩ := h.removeP hchain
    refine ⟨_, s', _, _, ?_, inv, .stale checked rfl hit old heap generation⟩
    exact (if_pos old).trans (bind_eq_ok.2 ⟨_, hremove, rfl⟩)
  · by_cases length : size < e.answer.length
    · refine ⟨_, s, _, _, ?_, h, .long checked hit old length rfl⟩
      exact (if_neg old).trans (if_pos length)
    · by_cases first : Node.entry x ≠ s.mruNext .list
      · obtain ⟨s', hbump, inv, heap, generation⟩ := h.bump
        refine ⟨_, s', _, _, ?_, inv, .found checked rfl hit old (Nat.le_of_not_lt length) heap generation⟩
        obtain ⟨t, hremove, hadd⟩ := bind_eq_ok.1 hbump
        refine (if_neg old).trans ((if_neg length).trans ((if_pos first).trans ?_))
        exact bind_eq_ok.2 ⟨t, hremove, bind_eq_ok.2 ⟨_, hadd, rfl⟩⟩
      · have front : m₁ = [] := by
          cases m₁ with
          | nil => rfl
          | cons y m₁ =>
              have hnext : s.mruNext .list = .entry y := h.ring.next_eq
              have same := Node.entry.inj ((not_not.1 first).trans hnext)
              have nodup := (List.nodup_cons.1 h.nodup).1
              exact absurd (same ▸ List.mem_append_right _ List.mem_cons_self) nodup
        subst front
        refine ⟨_, s, _, _, ?_, h, .found checked (List.nil_append _).symm hit old (Nat.le_of_not_lt length) rfl rfl⟩
        exact (if_neg old).trans ((if_neg length).trans (if_neg first))

theorem resolvCacheLookup_spec (h : Inv s mru chain) (query : List Byte) (size : ℕ) (now : BitVec 32) :
    ∃ r s' mru' chain', resolvCacheLookup s query size now = .ok (r, s') ∧ Inv s' mru' chain' ∧
      Effect s s' mru (.lookup query size now) (some r) mru' := by
  unfold resolvCacheLookup
  by_cases hq : checkQuery query = none
  · exact ⟨_, s, mru, chain, if_pos hq, h, .malformed hq rfl⟩
  · rw [if_neg hq]
    have checked := Option.isSome_iff_ne_none.2 hq
    obtain ⟨l₁, hlookup, ⟨hchain, absent, hload⟩ | ⟨x, e, r, hchain, hit, hload⟩⟩ := h.lookup_cases query
    · exact ⟨_, s, mru, chain, bind_eq_ok.2 ⟨_, hlookup, bind_eq_ok.2 ⟨_, hload, rfl⟩⟩, h, .miss checked absent rfl⟩
    · obtain ⟨r, s', mru', chain', run, post⟩ := h.lookupHit_spec size now checked hit hchain
      exact ⟨r, s', mru', chain', bind_eq_ok.2 ⟨_, hlookup, bind_eq_ok.2 ⟨_, hload, run⟩⟩, post⟩

/-- The end of `_resolv_cache_add`, where there is room for the new entry. -/
theorem insert (h : Inv s mru chain) {l₁ : List Addr} {calloc : Option Addr} (checked : (checkQuery query).isSome)
    (absent : ∀ x e, ¬ Hit s query x e) (room : mru.length < CONFIG_MAX_ENTRIES)
    (hchain : chain (bucketOf (entryHash query)) = l₁) (fresh : ∀ a ∈ calloc, s.heap a = none) (answer : List Byte)
    (now : BitVec 32) : ∃ s' mru' chain',
      DnsCache.addEntry s (slotAfter (.bucket (bucketOf (entryHash query))) l₁) query answer now calloc = .ok s' ∧
      Inv s' mru' chain' ∧ s'.generation = s.generation ∧ (calloc = none ∧ mru' = mru ∧ s'.heap = s.heap ∨
        ∃ a id, calloc = some a ∧ mru' = a :: mru ∧
          s'.heap = Function.update s.heap a (some ⟨entryHash query, query, answer, now, id⟩)) := by
  have other {b : Addr} {e : Entry} (he : s.heap b = some e) (hash : e.hash = entryHash query) :
      entryEquals e.query query = false ∧ entryEquals query e.query = false := by
    have first : entryEquals e.query query = false := by
      by_contra ht
      exact absent b e ⟨he, hash, Bool.of_not_eq_false ht⟩
    obtain ⟨_, hq⟩ := Option.isSome_iff_exists.1 checked
    obtain ⟨_, he'⟩ := Option.isSome_iff_exists.1 (h.keyed b e he).2
    exact ⟨first, (entryEquals_comm hq he').trans first⟩
  cases calloc with
  | none => exact ⟨s, mru, chain, rfl, h, rfl, .inl ⟨rfl, rfl, rfl⟩⟩
  | some a =>
      obtain ⟨s', id, run, inv, heap, generation⟩ :=
        h.addEntry hchain checked (fresh a rfl) room (fun _ _ => other) answer now
      exact ⟨s', _, _, run, inv, generation, .inr ⟨a, id, rfl, rfl, heap⟩⟩

/-- What is left of the keys when an entry is gone. -/
theorem absent_of_remove {s' : Cache} {y : Addr} (absent : ∀ x e, ¬ Hit s query x e)
    (heap : s'.heap = Function.update s.heap y none) (x : Addr) (e : Entry) : ¬ Hit s' query x e := by
  rintro ⟨entry, hash, equals⟩
  rw [heap] at entry
  by_cases hx : x = y
  · rw [hx, Function.update_self] at entry
    cases entry
  · rw [Function.update_of_ne hx] at entry
    exact absent x e ⟨entry, hash, equals⟩

theorem resolvCacheAdd_spec (h : Inv s mru chain) {query answer : List Byte} {now : BitVec 32} {calloc : Option Addr}
    (allowed : Allowed s (.add query answer now calloc)) :
    ∃ s' mru' chain', resolvCacheAdd s query answer now calloc = .ok s' ∧ Inv s' mru' chain' ∧
      Effect s s' mru (.add query answer now calloc) none mru' := by
  unfold resolvCacheAdd
  by_cases hq : checkQuery query = none
  · exact ⟨s, mru, chain, if_pos hq, h, .invalid hq rfl⟩
  · rw [if_neg hq]
    have checked := Option.isSome_iff_ne_none.2 hq
    obtain ⟨l₁, hlookup, ⟨hchain, absent, hload⟩ | ⟨x, e, r, hchain, hit, hload⟩⟩ := h.lookup_cases query
    · by_cases full : CONFIG_MAX_ENTRIES ≤ mru.length
      · have hne : mru ≠ [] := by
          rintro rfl
          exact absurd full (by decide)
        obtain ⟨kept, x, rfl⟩ : ∃ kept x, mru = kept ++ [x] := ⟨_, _, (List.dropLast_concat_getLast hne).symm⟩
        obtain ⟨t, chain', hremove, inv, heap, generation⟩ := h.removeOldest
        have absent' := absent_of_remove absent heap
        have evicts : Evicts s (kept ++ [x]) kept t.heap := .inr ⟨x, full, rfl, heap⟩
        have room : kept.length < CONFIG_MAX_ENTRIES := by
          have hb := h.bound
          rw [List.length_append, List.length_singleton] at hb
          exact hb
        have fresh : ∀ a ∈ calloc, t.heap a = none := by
          intro a ha
          rw [heap]
          by_cases hax : a = x
          · rw [hax, Function.update_self]
          · rw [Function.update_of_ne hax]
            exact (allowed.2 a ha).resolve_right fun hh => hax (Node.entry.inj (hh.2.symm.trans h.last_eq))
        obtain ⟨l₂, hlookup', ⟨hchain', -, hload'⟩ | ⟨y, f, -, -, hit, -⟩⟩ := inv.lookup_cases query
        · obtain ⟨s', mru', chain'', run, inv', generation', post⟩ :=
            inv.insert checked absent' room hchain' fresh answer now
          refine ⟨s', mru', chain'', bind_eq_ok.2 ⟨_, hlookup, bind_eq_ok.2 ⟨_, hload, ?_⟩⟩, inv', ?_⟩
          · refine (if_neg (by decide)).trans ((if_pos ?_).trans ?_)
            · rw [h.count]
              exact Int.ofNat_le.2 full
            · refine bind_eq_ok.2 ⟨t, hremove, bind_eq_ok.2 ⟨_, hlookup', bind_eq_ok.2 ⟨_, hload', ?_⟩⟩⟩
              exact (if_neg (by decide)).trans run
          · rcases post with ⟨rfl, rfl, hs'⟩ | ⟨a, id, rfl, rfl, hs'⟩
            · exact .noMemory checked absent (hs' ▸ evicts) (generation'.trans generation)
            · exact .added checked absent evicts (fresh a rfl) hs' (generation'.trans generation)
        · exact absurd hit (absent' y f)
      · have room := Nat.lt_of_not_le full
        have evicts : Evicts s mru mru s.heap := .inl ⟨room, rfl, rfl⟩
        have fresh : ∀ a ∈ calloc, s.heap a = none := fun a ha =>
          (allowed.2 a ha).resolve_right fun hh => full (Int.ofNat_le.1 (h.count ▸ hh.1))
        obtain ⟨s', mru', chain', run, inv, generation, post⟩ :=
          h.insert checked absent room hchain fresh answer now
        refine ⟨s', mru', chain', bind_eq_ok.2 ⟨_, hlookup, bind_eq_ok.2 ⟨_, hload, ?_⟩⟩, inv, ?_⟩
        · refine (if_neg (by decide)).trans ((if_neg ?_).trans run)
          rw [h.count]
          exact fun hc => full (Int.ofNat_le.1 hc)
        · rcases post with ⟨rfl, rfl, hs'⟩ | ⟨a, id, rfl, rfl, hs'⟩
          · exact .noMemory checked absent (hs' ▸ evicts) generation
          · exact .added checked absent evicts (fresh a rfl) hs' generation
    · refine ⟨s, mru, chain, bind_eq_ok.2 ⟨_, hlookup, bind_eq_ok.2 ⟨_, hload, ?_⟩⟩, h, .present checked hit rfl⟩
      exact if_pos rfl

theorem resolvCacheReset_spec (h : Inv s mru chain) (g : BitVec 32) :
    ∃ s' mru' chain', resolvCacheReset s g = .ok s' ∧ Inv s' mru' chain' ∧ Effect s s' mru (.reset g) none mru' := by
  unfold resolvCacheReset
  by_cases hg : s.generation ≠ g
  · obtain ⟨s', run, inv, empty, -⟩ := h.flush
    refine ⟨{ s' with generation := g }, [], fun _ => [], (if_pos hg).trans (bind_eq_ok.2 ⟨s', run, rfl⟩), ?_,
      .flushed hg empty rfl⟩
    exact { inv with }
  · obtain rfl := not_not.1 hg
    exact ⟨s, mru, chain, if_neg hg, h, .sameGeneration rfl⟩

/-- Every call returns, keeps the invariant and has its effect. -/
theorem exec (h : Inv s mru chain) {op : Op} (allowed : Allowed s op) :
    ∃ r s' mru' chain', DnsCache.exec s op = .ok (r, s') ∧ Inv s' mru' chain' ∧ Effect s s' mru op r mru' := by
  cases op with
  | lookup query size now =>
      obtain ⟨r, s', mru', chain', run, post⟩ := h.resolvCacheLookup_spec query size now
      exact ⟨some r, s', mru', chain', bind_eq_ok.2 ⟨_, run, rfl⟩, post⟩
  | add query answer now calloc =>
      obtain ⟨s', mru', chain', run, post⟩ := h.resolvCacheAdd_spec allowed
      exact ⟨none, s', mru', chain', bind_eq_ok.2 ⟨_, run, rfl⟩, post⟩
  | reset g =>
      obtain ⟨s', mru', chain', run, post⟩ := h.resolvCacheReset_spec g
      exact ⟨none, s', mru', chain', bind_eq_ok.2 ⟨_, run, rfl⟩, post⟩

end Inv

theorem inv_create : Inv resolvCacheCreate [] fun _ => [] where
  ring := .nil rfl rfl
  seg _ := rfl
  mem a := by simp
  live a := ⟨nofun, fun ha => absurd ha List.not_mem_nil⟩
  home i a ha := absurd ha List.not_mem_nil
  keyed a e he := nomatch he
  distinct a b e f he := nomatch he
  count := rfl
  bound := Nat.zero_le _

/-! ### Runs -/

/-- A run of calls with their results. -/
inductive Run : Cache → List (Op × Option Result) → Cache → Prop
  | nil (s) : Run s [] s
  | cons {s s' s'' op r calls} (allowed : Allowed s op) (run : exec s op = .ok (r, s')) (rest : Run s' calls s'') :
      Run s ((op, r) :: calls) s''

/-- Each call is allowed in the cache that the calls before it leave. -/
def AllowedFrom (s : Cache) : List Op → Prop
  | [] => True
  | op :: ops => Allowed s op ∧ ∀ r s', exec s op = .ok (r, s') → AllowedFrom s' ops

/-- The query of a call. -/
def Op.query : Op → Option (List Byte)
  | .lookup query _ _ => some query
  | .add query _ _ _ => some query
  | .reset _ => none

/-- The address that `calloc` gives in a call. -/
def Op.calloc : Op → Option Addr
  | .add _ _ _ calloc => calloc
  | _ => none

section Sequences

variable {s s' : Cache} {mru mru' : List Addr} {chain : Chains} {op : Op} {r : Option Result} {a : Addr}

theorem Evicts.heap_eq_none {kept : List Addr} {heap : Addr → Option Entry} (h : Evicts s mru kept heap)
    (free : s.heap a = none) : heap a = none := by
  rcases h with ⟨-, -, rfl⟩ | ⟨x, -, -, rfl⟩
  · exact free
  · by_cases ha : a = x
    · rw [ha, Function.update_self]
    · rw [Function.update_of_ne ha]
      exact free

/-- A call takes no other address than that of `calloc`. -/
theorem Effect.heap_eq_none (h : Effect s s' mru op r mru') (free : s.heap a = none) (other : op.calloc ≠ some a) :
    s'.heap a = none := by
  cases h with
  | malformed _ same => rw [same]; exact free
  | miss _ _ same => rw [same]; exact free
  | @stale _ _ _ _ _ x _ _ _ _ _ heap =>
      rw [heap]
      by_cases ha : a = x
      · rw [ha, Function.update_self]
      · rw [Function.update_of_ne ha]
        exact free
  | long _ _ _ _ same => rw [same]; exact free
  | found _ _ _ _ _ heap => rw [heap]; exact free
  | invalid _ same => rw [same]; exact free
  | present _ _ same => rw [same]; exact free
  | noMemory _ _ evicts => exact evicts.heap_eq_none free
  | @added _ _ _ _ _ y _ _ _ evicts _ new =>
      have ne : a ≠ y := fun ha => other (congrArg some ha.symm)
      rw [new, Function.update_of_ne ne]
      exact evicts.heap_eq_none free
  | sameGeneration same => rw [same]; exact free
  | flushed _ empty => exact empty a

/-- With a new address for each call, a sequence of calls is allowed. -/
theorem Inv.allowedFrom (h : Inv s mru chain) {ops : List Op} (headers : ∀ op ∈ ops, ∀ q ∈ op.query, 12 ≤ q.length)
    (nodup : (ops.filterMap Op.calloc).Nodup) (free : ∀ a ∈ ops.filterMap Op.calloc, s.heap a = none) :
    AllowedFrom s ops := by
  induction ops generalizing s mru chain with
  | nil => trivial
  | cons op ops ih =>
      have header := headers op List.mem_cons_self
      have allowed : Allowed s op := by
        cases op with
        | lookup query size now => exact header query rfl
        | add query answer now calloc =>
            refine ⟨header query rfl, fun a ha => .inl (free a ?_)⟩
            exact List.mem_filterMap.2 ⟨_, List.mem_cons_self, ha⟩
        | reset g => trivial
      obtain ⟨r, s', mru', chain', run, inv, effect⟩ := h.exec allowed
      refine ⟨allowed, fun r' s'' run' => ?_⟩
      obtain ⟨-, rfl⟩ := Prod.mk.inj (Except.ok.inj (run.symm.trans run'))
      refine ih inv (fun op' hop => headers op' (List.mem_cons_of_mem _ hop)) ?_ fun a ha => ?_
      · exact nodup.sublist ((List.sublist_cons_self op ops).filterMap _)
      · refine effect.heap_eq_none (free a ?_) fun same => ?_
        · exact ((List.sublist_cons_self op ops).filterMap _).subset ha
        · rw [List.filterMap_cons_some same] at nodup
          exact (List.nodup_cons.1 nodup).1 ha

/-- An allowed sequence of calls has a run. -/
theorem Inv.exists_run (h : Inv s mru chain) {ops : List Op} (allowed : AllowedFrom s ops) :
    ∃ calls s', Run s calls s' ∧ calls.map Prod.fst = ops := by
  induction ops generalizing s mru chain with
  | nil => exact ⟨[], s, .nil s, rfl⟩
  | cons op ops ih =>
      obtain ⟨r, s', mru', chain', run, inv, -⟩ := h.exec allowed.1
      obtain ⟨calls, s'', rest, same⟩ := ih inv (allowed.2 r s' run)
      exact ⟨(op, r) :: calls, s'', .cons allowed.1 run rest, congrArg (op :: ·) same⟩

end Sequences

/-- The key of the last entry of the ring leads to that entry. -/
def OldestFound (s : Cache) : Prop :=
  ∃ x e lookup, s.mruPrev .list = .entry x ∧ s.heap x = some e ∧ cacheLookupP s e.hash e.query = .ok lookup ∧
    s.load lookup = .ok (some x)

theorem Inv.oldestFound {s : Cache} {mru : List Addr} {chain : Chains} (h : Inv s mru chain)
    (nonempty : 0 < s.numEntries) : OldestFound s := by
  have hne : mru ≠ [] := by
    rintro rfl
    rw [h.count] at nonempty
    exact absurd nonempty (by decide)
  obtain ⟨kept, x, rfl⟩ : ∃ kept x, mru = kept ++ [x] := ⟨_, _, (List.dropLast_concat_getLast hne).symm⟩
  obtain ⟨e, he⟩ := Option.isSome_iff_exists.1 ((h.live x).2 (List.mem_append_right _ List.mem_cons_self))
  obtain ⟨l₁, r, -, hlookup, hload⟩ := h.found he
  exact ⟨x, e, _, h.last_eq, he, hlookup, hload⟩

theorem Inv.run {s s' : Cache} {mru : List Addr} {chain : Chains} {calls : List (Op × Option Result)}
    (h : Inv s mru chain) (run : Run s calls s') : ∃ mru' chain', Inv s' mru' chain' := by
  induction run generalizing mru chain with
  | nil s => exact ⟨mru, chain, h⟩
  | cons allowed run _ ih =>
      obtain ⟨_, _, mru', chain', run', inv, -⟩ := h.exec allowed
      obtain ⟨rfl, rfl⟩ := Prod.mk.inj (Except.ok.inj (run.symm.trans run'))
      exact ih inv

/-- In every run the ring and the chains hold the same entries, once each, the oldest entry is found in the table, and
no call can fault. -/
theorem run_wellFormed {s : Cache} {calls : List (Op × Option Result)} (h : Run resolvCacheCreate calls s) :
    ∃ mru chain, Inv s mru chain ∧ mru.Nodup ∧ mru.Perm ((List.finRange MAX_HASH_ENTRIES).flatMap chain) ∧
      (0 < s.numEntries → OldestFound s) ∧ ∀ op, Allowed s op → ∃ r s', exec s op = .ok (r, s') := by
  obtain ⟨mru, chain, inv⟩ := inv_create.run h
  refine ⟨mru, chain, inv, inv.nodup, inv.perm, inv.oldestFound, fun op allowed => ?_⟩
  obtain ⟨r, s', -, -, run, -⟩ := inv.exec allowed
  exact ⟨r, s', run⟩

/-- A query for a name of one label. -/
def queryOf (n : ℕ) : List Byte := [0, 0, 1, 0, 0, 1, 0, 0, 0, 0, 0, 0, 1, BitVec.ofNat 8 n, 0, 0, 1, 0, 1]

/-- The cache is filled, and answers the oldest query; another one evicts the second one; the third one is stale, and a
reset forgets the rest. -/
def busy : List Op :=
  (List.range CONFIG_MAX_ENTRIES).map (fun n => .add (queryOf n) [BitVec.ofNat 8 n] 0 (some (n + 1))) ++
    [.lookup (queryOf 0) 512 1, .add (queryOf 64) [64] 0 (some 65), .lookup (queryOf 1) 512 1,
      .lookup (queryOf 2) 512 700, .lookup (queryOf 2) 512 1, .lookup (queryOf 3) 512 1, .reset 0,
      .lookup (queryOf 0) 512 1]

theorem allowedFrom_busy : AllowedFrom resolvCacheCreate busy := by
  refine inv_create.allowedFrom ?_ (by decide) fun _ _ => rfl
  decide

theorem run_wellFormed_busy : ∃ calls s, Run resolvCacheCreate calls s ∧ calls.map Prod.fst = busy ∧
    ∃ mru chain, Inv s mru chain ∧ mru.Nodup ∧ mru.Perm ((List.finRange MAX_HASH_ENTRIES).flatMap chain) ∧
      (0 < s.numEntries → OldestFound s) ∧ ∀ op, Allowed s op → ∃ r s', exec s op = .ok (r, s') := by
  obtain ⟨calls, s, run, ops⟩ := inv_create.exists_run allowedFrom_busy
  exact ⟨calls, s, run, ops, run_wellFormed run⟩

end Bionic.DnsCache
