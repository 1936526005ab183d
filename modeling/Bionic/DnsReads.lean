import Bionic.DnsCache

/-! # The bytes of a query that are read (`libc/netbsd/resolv/res_cache.c`)

`DnsPacket` models a cursor by the bytes that are left, so that nothing can be read behind the end of a packet.  Here a
cursor is an index, each byte is read by itself, and a byte that the packet does not have is a fault.

The walks test the end before they read, and agree with those of `DnsPacket` (`hashQuery_eq`, `checkQuery_eq`).  Only
the flags of the header are read without a test, since a query is hashed before it is checked (`reads_inside_iff`). -/

namespace Bionic.DnsReads

open DnsPacket (Byte FNV_BASIS fnv dnsTypes dnsClassIn)
open DnsCache (Cache Slot Addr Result)

/-- The byte `index` of a packet is read, which has no such byte. -/
structure Overread where
  index : ℕ
deriving DecidableEq, Repr

abbrev Read := Except Overread

/-- `base[i]` -/
def readByte (q : List Byte) (i : ℕ) : Read Byte :=
  match q[i]? with
  | none => .error ⟨i⟩
  | some b => .ok b

/-- The bytes that `memcmp` and `memcpy` read. -/
def readBytes (q : List Byte) : ℕ → ℕ → Read (List Byte)
  | _, 0 => .ok []
  | p, n + 1 => do
      let b ← readByte q p
      let l ← readBytes q (p + 1) n
      return b :: l

/-! ### Checking -/

section Code

variable (q : List Byte)

/-- `_dnsPacket_skip` -/
def skip (p count : ℕ) : ℕ :=
  let p := p + count
  if p > q.length then q.length else p

/-- `_dnsPacket_readInt16` -/
def readInt16 (p : ℕ) : Read (ℤ × ℕ) :=
  if p + 2 > q.length then .ok (-1, p)
  else do
    let a ← readByte q p
    let b ← readByte q (p + 1)
    return ((a.toNat * 256 + b.toNat : ℕ), p + 2)

/-- `_dnsPacket_checkBytes` -/
def checkBytes (bytes : List Byte) (p : ℕ) : Read (Option ℕ) :=
  if p + bytes.length > q.length then .ok none
  else do
    let l ← readBytes q p bytes.length
    return if l ≠ bytes then none else some (p + bytes.length)

/-- `_dnsPacket_checkQName` -/
def checkQName (p : ℕ) : Read (Option ℕ) :=
  if p ≥ q.length then .ok none
  else do
    let c ← readByte q p
    if c = 0 then return some (p + 1)
    if 64 ≤ c then return none
    checkQName (p + 1 + c.toNat)
termination_by q.length - p

/-- `if (!x) return 0;`, and then `f`. -/
def andThen (x : Read (Option ℕ)) (f : ℕ → Read (Option ℕ)) : Read (Option ℕ) := do
  match ← x with
  | none => return none
  | some p => f p

/-- The types, one after another. -/
def checkTypes (p : ℕ) : List (List Byte) → Read (Option ℕ)
  | [] => .ok none
  | type :: types => do
      match ← checkBytes q type p with
      | none => checkTypes p types
      | some p => return some p

/-- `_dnsPacket_checkQR` -/
def checkQR (p : ℕ) : Read (Option ℕ) :=
  andThen (checkQName q p) fun p => andThen (checkTypes q p dnsTypes) fun p => checkBytes q dnsClassIn p

def checkQRs : ℕ → ℕ → Read (Option ℕ)
  | 0, p => .ok (some p)
  | n + 1, p => andThen (checkQR q p) (checkQRs n)

/-- `(p[i] << 8) | p[i+1]` -/
def int16At (i : ℕ) : Read ℕ := do
  let a ← readByte q i
  let b ← readByte q (i + 1)
  return a.toNat * 256 + b.toNat

/-- `_dnsPacket_checkQuery` -/
def checkQuery : Read Bool :=
  if q.length < 12 then .ok false
  else do
    if (← readByte q 2) &&& 0xfc ≠ 0 then return false
    if (← readByte q 3) ≠ 0 then return false
    let qdCount ← int16At q 4
    let anCount ← int16At q 6
    let dnCount ← int16At q 8
    let arCount ← int16At q 10
    if anCount ≠ 0 ∨ dnCount ≠ 0 ∨ arCount ≠ 0 then return false
    if qdCount = 0 then return false
    return (← checkQRs q qdCount 12).isSome

/-! ### Hashing -/

/-- `_dnsPacket_hashBytes`.  The loop does not change `numBytes`. -/
def hashBytes (numBytes p : ℕ) (hash : BitVec 32) : Read (ℕ × BitVec 32) :=
  if 0 < numBytes ∧ p < q.length then do
    let b ← readByte q p
    hashBytes numBytes (p + 1) (fnv hash b)
  else .ok (p, hash)
termination_by q.length - p

/-- The loop of `_dnsPacket_hashQName` for the `c` bytes of a label. -/
def hashLabel : ℕ → ℕ → BitVec 32 → Read (BitVec 32)
  | 0, _, hash => .ok hash
  | c + 1, p, hash => do
      let b ← readByte q p
      hashLabel c (p + 1) (fnv hash b)

/-- `_dnsPacket_hashQName` -/
def hashQName (p : ℕ) (hash : BitVec 32) : Read (ℕ × BitVec 32) :=
  if p ≥ q.length then .ok (p, hash)
  else do
    let c ← readByte q p
    if c = 0 then return (p + 1, hash)
    if 64 ≤ c then return (p + 1, hash)
    if p + 1 + c.toNat ≥ q.length then return (p + 1, hash)
    let hash ← hashLabel q c.toNat (p + 1) hash
    hashQName (p + 1 + c.toNat) hash
termination_by q.length - p

/-- `_dnsPacket_hashQR` -/
def hashQR (p : ℕ) (hash : BitVec 32) : Read (ℕ × BitVec 32) := do
  let (p, hash) ← hashQName q p hash
  hashBytes q 4 p hash

def hashQRs : ℕ → ℕ → BitVec 32 → Read (ℕ × BitVec 32)
  | 0, p, hash => .ok (p, hash)
  | n + 1, p, hash => do
      let (p, hash) ← hashQR q p hash
      hashQRs n p hash

/-- `_dnsPacket_hashQuery` -/
def hashQuery : Read (BitVec 32) := do
  let hash := fnv FNV_BASIS ((← readByte q 2) &&& 1)
  let (count, p) ← readInt16 q (skip q 0 4)
  let (_, hash) ← hashQRs q count.toNat (skip q p 6) hash
  return hash

end Code

/-! ### Comparing -/

section Compare

variable (q₁ q₂ : List Byte)

/-- `_dnsPacket_isEqualDomainName` -/
def isEqualDomainName (p₁ p₂ : ℕ) : Read (Option (ℕ × ℕ)) :=
  if p₁ ≥ q₁.length ∨ p₂ ≥ q₂.length then .ok none
  else do
    let c₁ ← readByte q₁ p₁
    let c₂ ← readByte q₂ p₂
    if c₁ ≠ c₂ then return none
    if c₁ = 0 then return some (p₁ + 1, p₂ + 1)
    if 64 ≤ c₁ then return none
    if p₁ + 1 + c₁.toNat > q₁.length ∨ p₂ + 1 + c₁.toNat > q₂.length then return none
    let l₁ ← readBytes q₁ (p₁ + 1) c₁.toNat
    let l₂ ← readBytes q₂ (p₂ + 1) c₁.toNat
    if l₁ ≠ l₂ then return none
    isEqualDomainName (p₁ + 1 + c₁.toNat) (p₂ + 1 + c₁.toNat)
termination_by q₁.length - p₁

/-- `_dnsPacket_isEqualBytes` -/
def isEqualBytes (numBytes p₁ p₂ : ℕ) : Read (Option (ℕ × ℕ)) :=
  if p₁ + numBytes > q₁.length ∨ p₂ + numBytes > q₂.length then .ok none
  else do
    let l₁ ← readBytes q₁ p₁ numBytes
    let l₂ ← readBytes q₂ p₂ numBytes
    return if l₁ ≠ l₂ then none else some (p₁ + numBytes, p₂ + numBytes)

/-- `_dnsPacket_isEqualQR` -/
def isEqualQR (p₁ p₂ : ℕ) : Read (Option (ℕ × ℕ)) := do
  match ← isEqualDomainName q₁ q₂ p₁ p₂ with
  | none => return none
  | some (p₁, p₂) => isEqualBytes q₁ q₂ (2 + 2) p₁ p₂

def isEqualQRs : ℕ → ℕ → ℕ → Read Bool
  | 0, _, _ => .ok true
  | n + 1, p₁, p₂ => do
      match ← isEqualQR q₁ q₂ p₁ p₂ with
      | none => return false
      | some (p₁, p₂) => isEqualQRs n p₁ p₂

/-- `_dnsPacket_isEqualQuery` -/
def isEqualQuery : Read Bool := do
  let flags₁ ← readByte q₁ 2
  let flags₂ ← readByte q₂ 2
  if flags₁ &&& 1 ≠ flags₂ &&& 1 then return false
  let (count₁, p₁) ← readInt16 q₁ (skip q₁ 0 4)
  let (count₂, p₂) ← readInt16 q₂ (skip q₂ 0 4)
  if count₁ ≠ count₂ ∨ count₁ < 0 then return false
  isEqualQRs q₁ q₂ count₁.toNat (skip q₁ p₁ 6) (skip q₂ p₂ 6)

/-- `entry_equals` -/
def entryEquals : Read Bool :=
  if q₁.length ≠ q₂.length then .ok false else isEqualQuery q₁ q₂

end Compare

/-! ### The cache -/

inductive Fault
  | overread (o : Overread)
  | cache (f : DnsCache.Fault)
deriving DecidableEq, Repr

/-- A part that reads a packet. -/
def packet {α : Type} (x : Read α) : Except Fault α := x.mapError .overread

/-- A part that does not read the query. -/
def inCache {α : Type} (x : Except DnsCache.Fault α) : Except Fault α := x.mapError .cache

/-- `entry_init_key`: the hash, and whether the query is supported. -/
def entryInitKey (query : List Byte) : Read (BitVec 32 × Bool) := do
  let hash ← hashQuery query
  let ok ← checkQuery query
  return (hash, ok)

/-- The loop of `_cache_lookup_p`, at the pointer `pnode`. -/
def lookupFrom (s : Cache) (hash : BitVec 32) (query : List Byte) : ℕ → Slot → Except Fault Slot
  | 0, _ => .error (.cache .loops)
  | n + 1, pnode => do
      match ← inCache (s.load pnode) with
      | none => return pnode
      | some node =>
          let e ← inCache (s.deref node)
          if e.hash = hash then
            if ← packet (entryEquals e.query query) then return pnode
          lookupFrom s hash query n (.hlink node)

/-- `_cache_lookup_p` -/
def cacheLookupP (s : Cache) (hash : BitVec 32) (query : List Byte) : Except Fault Slot :=
  lookupFrom s hash query (DnsCache.CONFIG_MAX_ENTRIES + 1) (.bucket (DnsCache.bucketOf hash))

/-- `_resolv_cache_lookup` -/
def resolvCacheLookup (s : Cache) (query : List Byte) (answersize : ℕ) (now : BitVec 32) :
    Except Fault (Result × Cache) := do
  let (hash, ok) ← packet (entryInitKey query)
  if ok = false then return (⟨.unsupported, none, none⟩, s)
  let lookup ← cacheLookupP s hash query
  match ← inCache (s.load lookup) with
  | none => return (⟨.notFound, none, none⟩, s)
  | some a => inCache (DnsCache.lookupHit s lookup a answersize now)

/-- The end of `_resolv_cache_add`, from `entry_alloc` on, which copies the query. -/
def addEntry (s : Cache) (lookup : Slot) (hash : BitVec 32) (query answer : List Byte) (now : BitVec 32)
    (calloc : Option Addr) : Except Fault Cache :=
  match calloc with
  | none => return s
  | some a => do
      let copy ← packet (readBytes query 0 query.length)
      inCache (DnsCache.cacheAddP (DnsCache.entryAlloc s a hash copy answer now) lookup a)

/-- `_resolv_cache_add` -/
def resolvCacheAdd (s : Cache) (query answer : List Byte) (now : BitVec 32) (calloc : Option Addr) :
    Except Fault Cache := do
  let (hash, ok) ← packet (entryInitKey query)
  if ok = false then return s
  let lookup ← cacheLookupP s hash query
  if (← inCache (s.load lookup)).isSome then return s
  if s.numEntries ≥ DnsCache.CONFIG_MAX_ENTRIES then
    let s ← inCache (DnsCache.cacheRemoveOldest s)
    let lookup ← cacheLookupP s hash query
    if (← inCache (s.load lookup)).isSome then return s
    addEntry s lookup hash query answer now calloc
  else addEntry s lookup hash query answer now calloc

/-! ### Reading -/

section

variable {q q₁ q₂ bytes l : List Byte} {p p₁ p₂ n : ℕ}

theorem readByte_eq (h : p < q.length) : readByte q p = .ok q[p] := by
  rw [readByte, List.getElem?_eq_getElem h]

theorem readByte_byteAt (h : p < q.length) : readByte q p = .ok (DnsPacket.byteAt q p) := by
  rw [readByte_eq h, DnsPacket.byteAt, List.getD_eq_getElem q 0 h]

theorem drop_eq_cons (h : p < q.length) : q.drop p = q[p] :: q.drop (p + 1) := List.drop_eq_getElem_cons h

theorem drop_eq_nil (h : p ≥ q.length) : q.drop p = [] := List.drop_of_length_le h

theorem readBytes_eq (h : p + n ≤ q.length) : readBytes q p n = .ok ((q.drop p).take n) := by
  induction n generalizing p with
  | zero => rfl
  | succ n ih =>
      have hp : p < q.length := by omega
      rw [readBytes, readByte_eq hp, drop_eq_cons hp, List.take_succ_cons]
      show (readBytes q (p + 1) n >>= fun l => pure (q[p] :: l)) = _
      rw [ih (by omega)]
      rfl

theorem skip_drop (q : List Byte) (p count : ℕ) : q.drop (skip q p count) = (q.drop p).drop count := by
  rw [List.drop_drop]
  unfold skip
  dsimp only
  split
  next past => rw [drop_eq_nil (Nat.le_refl _), drop_eq_nil (Nat.le_of_lt past)]
  next => rfl

/-- `x` reads inside the packet, and `view` of what it returns is `b`. -/
def Follows {α β : Type} (view : α → β) (x : Read α) (b : β) : Prop := ∃ a, x = .ok a ∧ view a = b

theorem Follows.bind {α β γ δ : Type} {view : α → β} {view' : γ → δ} {x : Read α} {f : α → Read γ} {b : β} {d : δ}
    (h : Follows view x b) (hf : ∀ a, view a = b → Follows view' (f a) d) : Follows view' (x >>= f) d := by
  obtain ⟨a, rfl, ha⟩ := h
  exact hf a ha

/-- The bytes that are left at a cursor. -/
def rest (q : List Byte) (p : ℕ) : List Byte := q.drop p

theorem rest_skip (q : List Byte) (p count : ℕ) : rest q (skip q p count) = (rest q p).drop count := skip_drop q p count

theorem follows_readInt16 (q : List Byte) (p : ℕ) :
    Follows (Prod.map id (rest q)) (readInt16 q p) (DnsPacket.readInt16 (rest q p)) := by
  unfold readInt16 rest
  split
  next past =>
    refine ⟨_, rfl, ?_⟩
    have few : (q.drop p).length < 2 := by
      rw [List.length_drop]
      omega
    show (-1, q.drop p) = _
    match q.drop p, few with
    | [], _ => rfl
    | [_], _ => rfl
  next inside =>
    have hp : p < q.length := by omega
    have hp' : p + 1 < q.length := by omega
    rw [readByte_eq hp, readByte_eq hp', drop_eq_cons hp, drop_eq_cons hp']
    exact ⟨_, rfl, rfl⟩

/-! ### Checking -/

theorem follows_andThen {x : Read (Option ℕ)} {f : ℕ → Read (Option ℕ)} {l : Option (List Byte)}
    {g : List Byte → Option (List Byte)} (h : Follows (Option.map (rest q)) x l)
    (hf : ∀ p, Follows (Option.map (rest q)) (f p) (g (rest q p))) :
    Follows (Option.map (rest q)) (andThen x f) (l.bind g) := by
  refine h.bind fun r hr => ?_
  subst hr
  cases r with
  | none => exact ⟨none, rfl, rfl⟩
  | some p => exact hf p

theorem follows_checkBytes (nonempty : 0 < bytes.length) (p : ℕ) :
    Follows (Option.map (rest q)) (checkBytes q bytes p) (DnsPacket.checkBytes bytes (rest q p)) := by
  have length : (rest q p).length = q.length - p := List.length_drop
  unfold checkBytes DnsPacket.checkBytes
  split
  next past =>
    rw [if_pos (by omega)]
    exact ⟨none, rfl, rfl⟩
  next inside =>
    rw [if_neg (by omega), readBytes_eq (by omega)]
    refine ⟨_, rfl, ?_⟩
    show Option.map (rest q) (if (rest q p).take bytes.length ≠ bytes then none else some (p + bytes.length)) = _
    split
    next => rfl
    next =>
      show some (q.drop (p + bytes.length)) = some ((q.drop p).drop bytes.length)
      rw [List.drop_drop]

/-- A label is skipped at once. -/
theorem checkLabels_drop (k : ℕ) (l : List Byte) :
    DnsPacket.checkLabels k l = DnsPacket.checkLabels 0 (l.drop k) := by
  induction k generalizing l with
  | zero => rfl
  | succ k ih =>
      cases l with
      | nil => rfl
      | cons b l => exact ih l

theorem follows_checkQName (q : List Byte) (p : ℕ) :
    Follows (Option.map (rest q)) (checkQName q p) (DnsPacket.checkQName (rest q p)) := by
  generalize hm : q.length - p = m
  induction m using Nat.strong_induction_on generalizing p with
  | _ m ih =>
      unfold rest at ih ⊢
      rw [checkQName]
      split
      next outside =>
        rw [drop_eq_nil outside]
        exact ⟨none, rfl, rfl⟩
      next inside =>
        have hp : p < q.length := Nat.lt_of_not_le inside
        rw [readByte_eq hp, drop_eq_cons hp, DnsPacket.checkQName, DnsPacket.checkLabels]
        show Follows _ (if q[p] = 0 then .ok (some (p + 1)) else if 64 ≤ q[p] then .ok none
          else checkQName q (p + 1 + q[p].toNat)) _
        split
        next => exact ⟨some (p + 1), rfl, rfl⟩
        next =>
          split
          next => exact ⟨none, rfl, rfl⟩
          next =>
            rw [checkLabels_drop, List.drop_drop]
            exact ih _ (by omega) _ rfl

theorem follows_checkTypes {types : List (List Byte)} (nonempty : ∀ type ∈ types, 0 < type.length) (p : ℕ) :
    Follows (Option.map (rest q)) (checkTypes q p types)
      (types.findSome? (DnsPacket.checkBytes · (rest q p))) := by
  induction types with
  | nil => exact ⟨none, rfl, rfl⟩
  | cons type types ih =>
      obtain ⟨first, others⟩ := List.forall_mem_cons.1 nonempty
      refine (follows_checkBytes first p).bind fun r hr => ?_
      rw [List.findSome?_cons, ← hr]
      cases r with
      | none => exact ih others
      | some p => exact ⟨some p, rfl, rfl⟩

theorem follows_checkQR (q : List Byte) (p : ℕ) :
    Follows (Option.map (rest q)) (checkQR q p) (DnsPacket.checkQR (rest q p)) := by
  rw [DnsPacket.checkQR_eq]
  refine follows_andThen (follows_checkQName q p) fun p => ?_
  exact follows_andThen (follows_checkTypes (by decide) p) fun p => follows_checkBytes (by decide) p

theorem follows_checkQRs (q : List Byte) (n p : ℕ) :
    Follows (Option.map (rest q)) (checkQRs q n p) (DnsPacket.checkQRs n (rest q p)) := by
  induction n generalizing p with
  | zero => exact ⟨some p, rfl, rfl⟩
  | succ n ih => exact follows_andThen (follows_checkQR q p) ih

theorem int16At_eq {i : ℕ} (h : i + 1 < q.length) : int16At q i = .ok (DnsPacket.int16At q i) := by
  rw [int16At, readByte_byteAt (Nat.lt_of_succ_lt h), readByte_byteAt h]
  rfl

/-- The checker reads inside the packet. -/
theorem checkQuery_eq (q : List Byte) : checkQuery q = .ok (DnsPacket.checkQuery q).isSome := by
  unfold checkQuery DnsPacket.checkQuery
  split
  next => rfl
  next long =>
    obtain ⟨r, run, hr⟩ := follows_checkQRs q (DnsPacket.int16At q 4) 12
    rw [readByte_byteAt (by omega), readByte_byteAt (by omega), int16At_eq (by omega), int16At_eq (by omega),
      int16At_eq (by omega), int16At_eq (by omega)]
    show (if DnsPacket.byteAt q 2 &&& 0xfc ≠ 0 then .ok false else if DnsPacket.byteAt q 3 ≠ 0 then .ok false
      else if DnsPacket.int16At q 6 ≠ 0 ∨ DnsPacket.int16At q 8 ≠ 0 ∨ DnsPacket.int16At q 10 ≠ 0 then .ok false
      else if DnsPacket.int16At q 4 = 0 then .ok false
      else checkQRs q (DnsPacket.int16At q 4) 12 >>= fun r => .ok r.isSome) = _
    rw [run, show q.drop 12 = rest q 12 from rfl, ← hr]
    simp only [ite_or]
    split_ifs
    all_goals first | rfl | exact congrArg Except.ok Option.isSome_map.symm

/-! ### Hashing -/

theorem follows_hashBytes (numBytes p : ℕ) (hash : BitVec 32) :
    Follows (Prod.map (rest q) id) (hashBytes q numBytes p hash) (DnsPacket.hashBytes numBytes (rest q p) hash) := by
  generalize hm : q.length - p = m
  induction m generalizing p hash with
  | zero =>
      have outside : p ≥ q.length := by omega
      rw [hashBytes, if_neg (by omega), rest, drop_eq_nil outside]
      exact ⟨(p, hash), rfl, congrArg (·, hash) (drop_eq_nil outside)⟩
  | succ m ih =>
      have hp : p < q.length := by omega
      rw [hashBytes, rest, drop_eq_cons hp, DnsPacket.hashBytes]
      by_cases some : 0 < numBytes
      · rw [if_pos ⟨some, hp⟩, if_pos some, readByte_eq hp]
        exact ih (p + 1) (DnsPacket.fnv hash q[p]) (by omega)
      · rw [if_neg fun h => some h.1, if_neg some]
        exact ⟨(p, hash), rfl, congrArg (·, hash) (drop_eq_cons hp)⟩

theorem hashLabel_eq {c : ℕ} (h : p + c ≤ q.length) (hash : BitVec 32) :
    hashLabel q c p hash = .ok (((rest q p).take c).foldl DnsPacket.fnv hash) := by
  induction c generalizing p hash with
  | zero => rfl
  | succ c ih =>
      have hp : p < q.length := by omega
      rw [hashLabel, readByte_eq hp, rest, drop_eq_cons hp, List.take_succ_cons, List.foldl_cons]
      exact ih (by omega) (DnsPacket.fnv hash q[p])

/-- The bytes of a label are hashed at once. -/
theorem hashLabels_drop (k : ℕ) (hash : BitVec 32) (l : List Byte) :
    DnsPacket.hashLabels k hash l = DnsPacket.hashLabels 0 ((l.take k).foldl DnsPacket.fnv hash) (l.drop k) := by
  induction k generalizing hash l with
  | zero => rfl
  | succ k ih =>
      cases l with
      | nil => rfl
      | cons b l => exact ih (DnsPacket.fnv hash b) l

theorem follows_hashQName (q : List Byte) (p : ℕ) (hash : BitVec 32) :
    Follows (Prod.map (rest q) id) (hashQName q p hash) (DnsPacket.hashQName (rest q p) hash) := by
  generalize hm : q.length - p = m
  induction m using Nat.strong_induction_on generalizing p hash with
  | _ m ih =>
      rw [hashQName, rest]
      split
      next outside =>
        rw [drop_eq_nil outside]
        exact ⟨(p, hash), rfl, congrArg (·, hash) (drop_eq_nil outside)⟩
      next inside =>
        have hp : p < q.length := Nat.lt_of_not_le inside
        have length : (q.drop (p + 1)).length = q.length - (p + 1) := List.length_drop
        rw [readByte_eq hp, drop_eq_cons hp, DnsPacket.hashQName, DnsPacket.hashLabels]
        show Follows _ (if q[p] = 0 then .ok (p + 1, hash) else if 64 ≤ q[p] then .ok (p + 1, hash)
          else if p + 1 + q[p].toNat ≥ q.length then .ok (p + 1, hash)
          else hashLabel q q[p].toNat (p + 1) hash >>= fun hash => hashQName q (p + 1 + q[p].toNat) hash) _
        split
        next => exact ⟨(p + 1, hash), rfl, rfl⟩
        next =>
          split
          next => exact ⟨(p + 1, hash), rfl, rfl⟩
          next =>
            split
            next past =>
              rw [if_pos (by omega)]
              exact ⟨(p + 1, hash), rfl, rfl⟩
            next fits =>
              rw [if_neg (by omega), hashLabel_eq (by omega), hashLabels_drop, List.drop_drop]
              exact ih _ (by omega) _ _ rfl

theorem follows_hashQR (q : List Byte) (p : ℕ) (hash : BitVec 32) :
    Follows (Prod.map (rest q) id) (hashQR q p hash) (DnsPacket.hashQR (rest q p) hash) := by
  refine (follows_hashQName q p hash).bind fun r hr => ?_
  show Follows _ _ (DnsPacket.hashBytes 4 (DnsPacket.hashQName (rest q p) hash).1
    (DnsPacket.hashQName (rest q p) hash).2)
  rw [← hr]
  exact follows_hashBytes 4 r.1 r.2

theorem follows_hashQRs (q : List Byte) (n p : ℕ) (hash : BitVec 32) :
    Follows (Prod.map (rest q) id) (hashQRs q n p hash) (DnsPacket.hashQRs n (rest q p) hash) := by
  induction n generalizing p hash with
  | zero => exact ⟨(p, hash), rfl, rfl⟩
  | succ n ih =>
      refine (follows_hashQR q p hash).bind fun r hr => ?_
      show Follows _ _ (DnsPacket.hashQRs n (DnsPacket.hashQR (rest q p) hash).1
        (DnsPacket.hashQR (rest q p) hash).2)
      rw [← hr]
      exact ih r.1 r.2

/-- The hash of a packet that has the flags. -/
theorem hashQuery_eq (h : 3 ≤ q.length) : hashQuery q = .ok (DnsPacket.hashQuery q) := by
  have walk : Follows id (hashQuery q) (DnsPacket.hashQuery q) := by
    unfold hashQuery DnsPacket.hashQuery
    rw [readByte_byteAt (by omega)]
    refine (follows_readInt16 q (skip q 0 4)).bind fun r hr => ?_
    rw [rest_skip] at hr
    show Follows id (hashQRs q r.1.toNat (skip q r.2 6) _ >>= fun r => .ok r.2) _
    rw [show DnsPacket.readInt16 (q.drop 4) = Prod.map id (rest q) r from hr.symm]
    refine (follows_hashQRs q r.1.toNat (skip q r.2 6) _).bind fun r' hr' => ?_
    rw [rest_skip] at hr'
    exact ⟨r'.2, rfl, congrArg Prod.snd hr'⟩
  obtain ⟨hash, run, rfl⟩ := walk
  exact run

/-- The flags are read from a packet that has none. -/
theorem hashQuery_short (h : q.length < 3) : hashQuery q = .error ⟨2⟩ := by
  have missing : readByte q 2 = .error ⟨2⟩ := by
    rw [readByte, List.getElem?_eq_none (Nat.le_of_lt_succ h)]
  unfold hashQuery
  rw [missing]
  rfl

/-! ### Comparing -/

theorem isEqualLabels_nil (k : ℕ) (l : List Byte) : DnsPacket.isEqualLabels k l [] = none := by
  cases l with
  | nil => rfl
  | cons b l => cases k <;> rfl

/-- A label that has been compared is skipped at once. -/
theorem isEqualLabels_drop (k : ℕ) (l₁ l₂ : List Byte) :
    DnsPacket.isEqualLabels k l₁ l₂ = DnsPacket.isEqualLabels 0 (l₁.drop k) (l₂.drop k) := by
  induction k generalizing l₁ l₂ with
  | zero => rfl
  | succ k ih =>
      cases l₁ with
      | nil => rw [List.drop_nil, DnsPacket.isEqualLabels, DnsPacket.isEqualLabels]
      | cons b₁ l₁ =>
          cases l₂ with
          | nil => rw [List.drop_nil, isEqualLabels_nil, isEqualLabels_nil]
          | cons b₂ l₂ => exact ih l₁ l₂

/-- The bytes that are left at two cursors. -/
def rests (q₁ q₂ : List Byte) : Option (ℕ × ℕ) → Option (List Byte × List Byte) :=
  Option.map (Prod.map (rest q₁) (rest q₂))

theorem follows_isEqualDomainName (q₁ q₂ : List Byte) (p₁ p₂ : ℕ) :
    Follows (rests q₁ q₂) (isEqualDomainName q₁ q₂ p₁ p₂) (DnsPacket.isEqualDomainName (rest q₁ p₁) (rest q₂ p₂)) := by
  generalize hm : q₁.length - p₁ = m
  induction m using Nat.strong_induction_on generalizing p₁ p₂ with
  | _ m ih =>
      rw [isEqualDomainName, rest, rest]
      split
      next outside =>
        rcases outside with outside | outside
        · rw [drop_eq_nil outside, DnsPacket.isEqualDomainName, DnsPacket.isEqualLabels]
          exact ⟨none, rfl, rfl⟩
        · rw [drop_eq_nil outside, DnsPacket.isEqualDomainName, isEqualLabels_nil]
          exact ⟨none, rfl, rfl⟩
      next inside =>
        have h₁ : p₁ < q₁.length := by omega
        have h₂ : p₂ < q₂.length := by omega
        have length₁ : (q₁.drop (p₁ + 1)).length = q₁.length - (p₁ + 1) := List.length_drop
        have length₂ : (q₂.drop (p₂ + 1)).length = q₂.length - (p₂ + 1) := List.length_drop
        rw [readByte_eq h₁, readByte_eq h₂, drop_eq_cons h₁, drop_eq_cons h₂, DnsPacket.isEqualDomainName,
          DnsPacket.isEqualLabels]
        generalize q₁[p₁] = c
        show Follows _ (if c ≠ q₂[p₂] then .ok none else if c = 0 then .ok (some (p₁ + 1, p₂ + 1))
          else if 64 ≤ c then .ok none
          else if p₁ + 1 + c.toNat > q₁.length ∨ p₂ + 1 + c.toNat > q₂.length then .ok none
          else readBytes q₁ (p₁ + 1) c.toNat >>= fun l₁ => readBytes q₂ (p₂ + 1) c.toNat >>= fun l₂ =>
            if l₁ ≠ l₂ then .ok none
            else isEqualDomainName q₁ q₂ (p₁ + 1 + c.toNat) (p₂ + 1 + c.toNat)) _
        split
        next => exact ⟨none, rfl, rfl⟩
        next =>
          split
          next => exact ⟨some (p₁ + 1, p₂ + 1), rfl, rfl⟩
          next =>
            split
            next => exact ⟨none, rfl, rfl⟩
            next =>
              split
              next past =>
                rw [if_pos (by omega)]
                exact ⟨none, rfl, rfl⟩
              next fits =>
                rw [if_neg (by omega), readBytes_eq (by omega), readBytes_eq (by omega)]
                show Follows _ (if (q₁.drop (p₁ + 1)).take c.toNat ≠ (q₂.drop (p₂ + 1)).take c.toNat then .ok none
                  else isEqualDomainName q₁ q₂ (p₁ + 1 + c.toNat) (p₂ + 1 + c.toNat)) _
                split
                next => exact ⟨none, rfl, rfl⟩
                next =>
                  rw [isEqualLabels_drop, List.drop_drop, List.drop_drop]
                  exact ih _ (by omega) _ _ rfl

theorem follows_isEqualBytes {numBytes : ℕ} (pos : 0 < numBytes) (p₁ p₂ : ℕ) :
    Follows (rests q₁ q₂) (isEqualBytes q₁ q₂ numBytes p₁ p₂)
      (DnsPacket.isEqualBytes numBytes (rest q₁ p₁) (rest q₂ p₂)) := by
  have length₁ : (rest q₁ p₁).length = q₁.length - p₁ := List.length_drop
  have length₂ : (rest q₂ p₂).length = q₂.length - p₂ := List.length_drop
  unfold isEqualBytes DnsPacket.isEqualBytes
  split
  next past =>
    rw [if_pos (by omega)]
    exact ⟨none, rfl, rfl⟩
  next fits =>
    rw [if_neg (by omega), readBytes_eq (by omega), readBytes_eq (by omega)]
    refine ⟨_, rfl, ?_⟩
    show rests q₁ q₂ (if (rest q₁ p₁).take numBytes ≠ (rest q₂ p₂).take numBytes then none
      else some (p₁ + numBytes, p₂ + numBytes)) = _
    split
    next => rfl
    next =>
      show some (q₁.drop (p₁ + numBytes), q₂.drop (p₂ + numBytes)) =
        some ((q₁.drop p₁).drop numBytes, (q₂.drop p₂).drop numBytes)
      rw [List.drop_drop, List.drop_drop]

theorem follows_isEqualQR (q₁ q₂ : List Byte) (p₁ p₂ : ℕ) :
    Follows (rests q₁ q₂) (isEqualQR q₁ q₂ p₁ p₂) (DnsPacket.isEqualQR (rest q₁ p₁) (rest q₂ p₂)) := by
  refine (follows_isEqualDomainName q₁ q₂ p₁ p₂).bind fun r hr => ?_
  show Follows _ _ ((DnsPacket.isEqualDomainName (rest q₁ p₁) (rest q₂ p₂)).bind fun l =>
    DnsPacket.isEqualBytes (2 + 2) l.1 l.2)
  rw [← hr]
  cases r with
  | none => exact ⟨none, rfl, rfl⟩
  | some p => exact follows_isEqualBytes (by decide) p.1 p.2

theorem isEqualQRs_eq (q₁ q₂ : List Byte) (n p₁ p₂ : ℕ) :
    isEqualQRs q₁ q₂ n p₁ p₂ = .ok (DnsPacket.isEqualQRs n (rest q₁ p₁) (rest q₂ p₂)) := by
  induction n generalizing p₁ p₂ with
  | zero => rfl
  | succ n ih =>
      obtain ⟨r, run, hr⟩ := follows_isEqualQR q₁ q₂ p₁ p₂
      rw [isEqualQRs, run, DnsPacket.isEqualQRs, ← hr]
      cases r with
      | none => rfl
      | some p => exact ih p.1 p.2

theorem isEqualQuery_eq (h₁ : 3 ≤ q₁.length) (h₂ : 3 ≤ q₂.length) :
    isEqualQuery q₁ q₂ = .ok (DnsPacket.isEqualQuery q₁ q₂) := by
  obtain ⟨⟨count₁, p₁⟩, run₁, left₁⟩ := follows_readInt16 q₁ (skip q₁ 0 4)
  obtain ⟨⟨count₂, p₂⟩, run₂, left₂⟩ := follows_readInt16 q₂ (skip q₂ 0 4)
  rw [rest_skip] at left₁ left₂
  unfold isEqualQuery DnsPacket.isEqualQuery
  rw [readByte_byteAt (by omega), readByte_byteAt (by omega), run₁, run₂,
    show DnsPacket.readInt16 (q₁.drop 4) = Prod.map id (rest q₁) (count₁, p₁) from left₁.symm,
    show DnsPacket.readInt16 (q₂.drop 4) = Prod.map id (rest q₂) (count₂, p₂) from left₂.symm]
  show (if DnsPacket.byteAt q₁ 2 &&& 1 ≠ DnsPacket.byteAt q₂ 2 &&& 1 then .ok false
    else if count₁ ≠ count₂ ∨ count₁ < 0 then .ok false
    else isEqualQRs q₁ q₂ count₁.toNat (skip q₁ p₁ 6) (skip q₂ p₂ 6)) = _
  split
  next => rfl
  next =>
    show _ = Except.ok (if count₁ ≠ count₂ ∨ count₁ < 0 then false
      else DnsPacket.isEqualQRs count₁.toNat ((rest q₁ p₁).drop 6) ((rest q₂ p₂).drop 6))
    split
    next => rfl
    next => rw [isEqualQRs_eq, rest_skip, rest_skip]

theorem entryEquals_eq (h : 3 ≤ q₂.length) : entryEquals q₁ q₂ = .ok (DnsPacket.entryEquals q₁ q₂) := by
  unfold entryEquals DnsPacket.entryEquals
  split
  next => rfl
  next same => exact isEqualQuery_eq (by omega) h

end

/-! ### The operations -/

section

variable {s : Cache} {query answer : List Byte} {hash now : BitVec 32} {answersize : ℕ} {calloc : Option Addr}

theorem inCache_bind {α β : Type} (x : Except DnsCache.Fault α) (f : α → Except DnsCache.Fault β) :
    inCache (x >>= f) = inCache x >>= fun a => inCache (f a) := by
  cases x <;> rfl

/-- Two runs agree if they agree behind a step that is the same in both. -/
theorem inCache_bind_congr {α β : Type} {x : Except DnsCache.Fault α} {f : α → Except Fault β}
    {g : α → Except DnsCache.Fault β} (h : ∀ a, f a = inCache (g a)) : inCache x >>= f = inCache (x >>= g) := by
  rw [inCache_bind]
  exact bind_congr h

theorem inCache_ne {α : Type} (x : Except DnsCache.Fault α) (o : Overread) : inCache x ≠ .error (.overread o) := by
  cases x <;> nofun

theorem entryInitKey_eq (h : 3 ≤ query.length) :
    entryInitKey query = .ok (DnsPacket.entryHash query, (DnsPacket.checkQuery query).isSome) := by
  rw [entryInitKey, hashQuery_eq h, checkQuery_eq]
  rfl

theorem entryInitKey_short (h : query.length < 3) : entryInitKey query = .error ⟨2⟩ := by
  rw [entryInitKey, hashQuery_short h]
  rfl

theorem lookupFrom_eq (h : 3 ≤ query.length) (n : ℕ) (pnode : Slot) :
    lookupFrom s hash query n pnode = inCache (DnsCache.lookupFrom s hash query n pnode) := by
  induction n generalizing pnode with
  | zero => rfl
  | succ n ih =>
      rw [lookupFrom, DnsCache.lookupFrom]
      refine inCache_bind_congr fun node => ?_
      cases node with
      | none => rfl
      | some node =>
          dsimp only
          refine inCache_bind_congr fun e => ?_
          by_cases sameHash : e.hash = hash
          · rw [if_pos sameHash, entryEquals_eq h]
            show (if DnsPacket.entryEquals e.query query then .ok pnode
              else lookupFrom s hash query n (.hlink node)) = _
            by_cases sameKey : DnsPacket.entryEquals e.query query
            · rw [if_pos sameKey, if_pos ⟨sameHash, sameKey⟩]
              rfl
            · rw [if_neg sameKey, if_neg fun both => sameKey both.2, ih]
          · rw [if_neg sameHash, if_neg fun both => sameHash both.1]
            exact ih (.hlink node)

theorem cacheLookupP_eq (h : 3 ≤ query.length) :
    cacheLookupP s hash query = inCache (DnsCache.cacheLookupP s hash query) := lookupFrom_eq h _ _

theorem resolvCacheLookup_eq (h : 3 ≤ query.length) :
    resolvCacheLookup s query answersize now = inCache (DnsCache.resolvCacheLookup s query answersize now) := by
  rw [resolvCacheLookup, entryInitKey_eq h, DnsCache.resolvCacheLookup]
  cases DnsPacket.checkQuery query with
  | none => rfl
  | some t =>
      show (cacheLookupP s (DnsPacket.entryHash query) query >>= fun lookup => _) = _
      rw [cacheLookupP_eq h, if_neg nofun]
      refine inCache_bind_congr fun lookup => ?_
      refine inCache_bind_congr fun found => ?_
      cases found <;> rfl

theorem addEntry_eq (lookup : Slot) :
    addEntry s lookup (DnsPacket.entryHash query) query answer now calloc =
      inCache (DnsCache.addEntry s lookup query answer now calloc) := by
  cases calloc with
  | none => rfl
  | some a =>
      rw [addEntry, readBytes_eq (Nat.le_of_eq (Nat.zero_add _)), List.drop_zero, List.take_length]
      rfl

theorem resolvCacheAdd_eq (h : 3 ≤ query.length) :
    resolvCacheAdd s query answer now calloc = inCache (DnsCache.resolvCacheAdd s query answer now calloc) := by
  rw [resolvCacheAdd, entryInitKey_eq h, DnsCache.resolvCacheAdd]
  cases DnsPacket.checkQuery query with
  | none => rfl
  | some t =>
      show (cacheLookupP s (DnsPacket.entryHash query) query >>= fun lookup => _) = _
      rw [cacheLookupP_eq h, if_neg nofun]
      refine inCache_bind_congr fun lookup => ?_
      refine inCache_bind_congr fun found => ?_
      cases found with
      | some a => rfl
      | none =>
          show (if s.numEntries ≥ DnsCache.CONFIG_MAX_ENTRIES then _ else addEntry s lookup _ query answer now calloc) =
            inCache (if s.numEntries ≥ DnsCache.CONFIG_MAX_ENTRIES then _
              else DnsCache.addEntry s lookup query answer now calloc)
          split
          next =>
            refine inCache_bind_congr fun s => ?_
            rw [cacheLookupP_eq h]
            refine inCache_bind_congr fun lookup => ?_
            refine inCache_bind_congr fun found => ?_
            cases found with
            | some a => rfl
            | none => exact addEntry_eq lookup
          next => exact addEntry_eq lookup

/-- The flags of a short query are read, in any cache. -/
theorem reads_outside_of_short (h : query.length < 3) :
    resolvCacheLookup s query answersize now = .error (.overread ⟨2⟩) ∧
      resolvCacheAdd s query answer now calloc = .error (.overread ⟨2⟩) := by
  rw [resolvCacheLookup, resolvCacheAdd, entryInitKey_short h]
  exact ⟨rfl, rfl⟩

end

/-- The bytes that the interface reads of a query are in it. -/
def ReadsInside (s : Cache) (query answer : List Byte) (answersize : ℕ) (now : BitVec 32) (calloc : Option Addr) :
    Prop :=
  (∀ o, resolvCacheLookup s query answersize now ≠ .error (.overread o)) ∧
    ∀ o, resolvCacheAdd s query answer now calloc ≠ .error (.overread o)

/-- A query is read inside its bounds if and only if it has the flags. -/
theorem reads_inside_iff (s : Cache) (query answer : List Byte) (answersize : ℕ) (now : BitVec 32)
    (calloc : Option Addr) : ReadsInside s query answer answersize now calloc ↔ 3 ≤ query.length := by
  constructor
  · intro inside
    by_contra short
    have outside := @reads_outside_of_short s query answer now answersize calloc (Nat.lt_of_not_le short)
    exact inside.1 ⟨2⟩ outside.1
  · intro long
    refine ⟨fun o => ?_, fun o => ?_⟩
    · rw [resolvCacheLookup_eq long]
      exact inCache_ne _ o
    · rw [resolvCacheAdd_eq long]
      exact inCache_ne _ o

/-- An empty query is read behind its end. -/
theorem reads_empty_query : ¬ ReadsInside DnsCache.resolvCacheCreate [] [] 0 0 none :=
  fun inside => inside.1 ⟨2⟩ rfl

end Bionic.DnsReads
