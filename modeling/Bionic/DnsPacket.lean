import Mathlib.Data.List.GetD
import Mathlib.Data.Int.Notation
import Mathlib.Data.Int.Basic
import Mathlib.Tactic.Common

/-! # DNS query packets (`libc/netbsd/resolv/res_cache.c`)

A query is checked, hashed and compared by three walks over its bytes.  A cursor is the list of the bytes that are
left, so that a cursor at the end of the packet is the empty list.

`checkQuery_eq_some` says what a checked query is: a header, the bytes of its questions, and bytes behind the last
question, which nobody looks at but `_dnsPacket_hashBytes`.  There the number of bytes is never counted down, so that
the hash of a query runs on to the end of the packet (`hash_agrees_iff`). -/

namespace Bionic.DnsPacket

abbrev Byte := BitVec 8

/-! ### Functions that take a piece off the front -/

section Cuts

variable {α : Type} {f g : List α → Option (List α)} {l r n : List α}

/-- Whether `f` succeeds, and where it stops, depends only on the bytes that it takes. -/
def Cuts (f : List α → Option (List α)) : Prop :=
  ∀ l r, f l = some r ↔ ∃ n, l = n ++ r ∧ f n = some []

theorem Cuts.append (hf : Cuts f) (h : f n = some []) (r : List α) : f (n ++ r) = some r :=
  (hf _ _).2 ⟨n, rfl, h⟩

theorem Cuts.split (hf : Cuts f) (h : f l = some r) : ∃ n, l = n ++ r ∧ f n = some [] := (hf _ _).1 h

theorem cuts_of (split : ∀ l r, f l = some r → ∃ n, l = n ++ r ∧ f n = some [])
    (append : ∀ n r, f n = some [] → f (n ++ r) = some r) : Cuts f := by
  refine fun l r => ⟨split l r, ?_⟩
  rintro ⟨n, rfl, h⟩
  exact append n r h

theorem cuts_some : Cuts (some : List α → Option (List α)) := by
  refine cuts_of (fun l r h => ⟨[], Option.some.inj h, rfl⟩) fun n r h => ?_
  rw [Option.some.inj h, List.nil_append]

theorem Cuts.bind (hf : Cuts f) (hg : Cuts g) : Cuts fun l => (f l).bind g := by
  refine cuts_of (fun l r h => ?_) fun n r h => ?_
  · obtain ⟨m, hm, hr⟩ := Option.bind_eq_some_iff.1 h
    obtain ⟨n₁, rfl, h₁⟩ := hf.split hm
    obtain ⟨n₂, rfl, h₂⟩ := hg.split hr
    refine ⟨n₁ ++ n₂, (List.append_assoc _ _ _).symm, ?_⟩
    rw [hf.append h₁, Option.bind_some, h₂]
  · obtain ⟨m, hm, hr⟩ := Option.bind_eq_some_iff.1 h
    obtain ⟨n₁, rfl, h₁⟩ := hf.split hm
    rw [List.append_assoc, hf.append h₁, Option.bind_some, hg.append hr]

/-- Two pieces at the front of one list are the same. -/
theorem Cuts.unique (hf : Cuts f) {n' r' : List α} (h : f n = some []) (h' : f n' = some [])
    (he : n ++ r = n' ++ r') : n = n' := by
  have hr : some r = some r' := by rw [← hf.append h r, he, hf.append h' r']
  rw [Option.some.inj hr] at he
  exact List.append_cancel_right he

end Cuts

/-! ### The code -/

section Code

/-- `_dnsPacket_readInt16`. -/
def readInt16 : List Byte → ℤ × List Byte
  | a :: b :: l => (a.toNat * 256 + b.toNat, l)
  | l => (-1, l)

/-- `_dnsPacket_checkBytes`. -/
def checkBytes (bytes l : List Byte) : Option (List Byte) :=
  if l.length < bytes.length then none
  else if l.take bytes.length ≠ bytes then none
  else some (l.drop bytes.length)

/-- The loop of `_dnsPacket_checkQName`, with `k` bytes of a label to skip. -/
def checkLabels : ℕ → List Byte → Option (List Byte)
  | _, [] => none
  | k + 1, _ :: l => checkLabels k l
  | 0, c :: l => if c = 0 then some l else if 64 ≤ c then none else checkLabels c.toNat l

/-- `_dnsPacket_checkQName`. -/
def checkQName (l : List Byte) : Option (List Byte) := checkLabels 0 l

/-- The types that are supported.  The last one is `DNS_TYPE_ALL`, where the escape is read as octal 37. -/
def dnsTypes : List (List Byte) := [[0, 1], [0, 12], [0, 15], [0, 28], [0, 31]]

/-- `DNS_CLASS_IN`. -/
def dnsClassIn : List Byte := [0, 1]

/-- `_dnsPacket_checkQR`. -/
def checkQR (l : List Byte) : Option (List Byte) := do
  let l ← checkQName l
  let l ← dnsTypes.findSome? (checkBytes · l)
  checkBytes dnsClassIn l

def checkQRs : ℕ → List Byte → Option (List Byte)
  | 0, l => some l
  | n + 1, l => (checkQR l).bind (checkQRs n)

/-- The byte `p[i]` of a packet that has it. -/
def byteAt (q : List Byte) (i : ℕ) : Byte := q.getD i 0

/-- `(p[i] << 8) | p[i+1]`. -/
def int16At (q : List Byte) (i : ℕ) : ℕ := (byteAt q i).toNat * 256 + (byteAt q (i + 1)).toNat

/-- `_dnsPacket_checkQuery`, with the cursor behind the last question. -/
def checkQuery (q : List Byte) : Option (List Byte) :=
  if q.length < 12 then none
  else if byteAt q 2 &&& 0xfc ≠ 0 ∨ byteAt q 3 ≠ 0 then none
  else if int16At q 6 ≠ 0 ∨ int16At q 8 ≠ 0 ∨ int16At q 10 ≠ 0 then none
  else if int16At q 4 = 0 then none
  else checkQRs (int16At q 4) (q.drop 12)

def FNV_MULT : BitVec 32 := 16777619#32

def FNV_BASIS : BitVec 32 := 2166136261#32

/-- A step of the FNV hash. -/
def fnv (hash : BitVec 32) (b : Byte) : BitVec 32 := hash * FNV_MULT ^^^ b.setWidth 32

/-- `_dnsPacket_hashBytes`.  The loop does not change `numBytes`. -/
def hashBytes (numBytes : ℕ) : List Byte → BitVec 32 → List Byte × BitVec 32
  | [], hash => ([], hash)
  | b :: l, hash => if 0 < numBytes then hashBytes numBytes l (fnv hash b) else (b :: l, hash)

/-- The loop of `_dnsPacket_hashQName`, with `k` bytes of a label to hash. -/
def hashLabels : ℕ → BitVec 32 → List Byte → List Byte × BitVec 32
  | _, hash, [] => ([], hash)
  | k + 1, hash, b :: l => hashLabels k (fnv hash b) l
  | 0, hash, c :: l =>
      if c = 0 then (l, hash)
      else if 64 ≤ c then (l, hash)
      else if l.length ≤ c.toNat then (l, hash)
      else hashLabels c.toNat hash l

/-- `_dnsPacket_hashQName`. -/
def hashQName (l : List Byte) (hash : BitVec 32) : List Byte × BitVec 32 := hashLabels 0 hash l

/-- `_dnsPacket_hashQR`. -/
def hashQR (l : List Byte) (hash : BitVec 32) : List Byte × BitVec 32 :=
  let (l, hash) := hashQName l hash
  hashBytes 4 l hash

def hashQRs : ℕ → List Byte → BitVec 32 → List Byte × BitVec 32
  | 0, l, hash => (l, hash)
  | n + 1, l, hash =>
      let (l, hash) := hashQR l hash
      hashQRs n l hash

/-- `_dnsPacket_hashQuery`. -/
def hashQuery (q : List Byte) : BitVec 32 :=
  let hash := fnv FNV_BASIS (byteAt q 2 &&& 1)
  let (count, l) := readInt16 (q.drop 4)
  (hashQRs count.toNat (l.drop 6) hash).2

/-- The loop of `_dnsPacket_isEqualDomainName`, with `k` bytes of a label that have been compared. -/
def isEqualLabels : ℕ → List Byte → List Byte → Option (List Byte × List Byte)
  | _, [], _ => none
  | _, _, [] => none
  | k + 1, _ :: l₁, _ :: l₂ => isEqualLabels k l₁ l₂
  | 0, c₁ :: l₁, c₂ :: l₂ =>
      if c₁ ≠ c₂ then none
      else if c₁ = 0 then some (l₁, l₂)
      else if 64 ≤ c₁ then none
      else if l₁.length < c₁.toNat ∨ l₂.length < c₁.toNat then none
      else if l₁.take c₁.toNat ≠ l₂.take c₁.toNat then none
      else isEqualLabels c₁.toNat l₁ l₂

/-- `_dnsPacket_isEqualDomainName`. -/
def isEqualDomainName (l₁ l₂ : List Byte) : Option (List Byte × List Byte) := isEqualLabels 0 l₁ l₂

/-- `_dnsPacket_isEqualBytes`. -/
def isEqualBytes (numBytes : ℕ) (l₁ l₂ : List Byte) : Option (List Byte × List Byte) :=
  if l₁.length < numBytes ∨ l₂.length < numBytes then none
  else if l₁.take numBytes ≠ l₂.take numBytes then none
  else some (l₁.drop numBytes, l₂.drop numBytes)

/-- `_dnsPacket_isEqualQR`. -/
def isEqualQR (l₁ l₂ : List Byte) : Option (List Byte × List Byte) := do
  let (l₁, l₂) ← isEqualDomainName l₁ l₂
  isEqualBytes (2 + 2) l₁ l₂

def isEqualQRs : ℕ → List Byte → List Byte → Bool
  | 0, _, _ => true
  | n + 1, l₁, l₂ =>
      match isEqualQR l₁ l₂ with
      | none => false
      | some (l₁, l₂) => isEqualQRs n l₁ l₂

/-- `_dnsPacket_isEqualQuery`. -/
def isEqualQuery (q₁ q₂ : List Byte) : Bool :=
  if byteAt q₁ 2 &&& 1 ≠ byteAt q₂ 2 &&& 1 then false
  else
    let (count₁, l₁) := readInt16 (q₁.drop 4)
    let (count₂, l₂) := readInt16 (q₂.drop 4)
    if count₁ ≠ count₂ ∨ count₁ < 0 then false
    else isEqualQRs count₁.toNat (l₁.drop 6) (l₂.drop 6)

/-- `entry_hash`. -/
def entryHash (q : List Byte) : BitVec 32 := hashQuery q

/-- `entry_equals`. -/
def entryEquals (q₁ q₂ : List Byte) : Bool :=
  if q₁.length ≠ q₂.length then false else isEqualQuery q₁ q₂

end Code

/-! ### Checked pieces -/

section Checked

variable {l r n s t : List Byte} {k c : ℕ}

theorem checkLabels_lt (h : checkLabels k l = some r) : k < l.length := by
  induction l generalizing k with
  | nil => cases h
  | cons b l ih =>
      cases k with
      | zero => exact Nat.succ_pos _
      | succ k => exact Nat.succ_lt_succ (ih h)

theorem cuts_checkLabels (k : ℕ) : Cuts (checkLabels k) := by
  refine cuts_of (fun l r h => ?_) fun n r h => ?_
  · induction l generalizing k with
    | nil => cases h
    | cons b l ih =>
        cases k with
        | succ k =>
            obtain ⟨n, rfl, hn⟩ := ih k h
            exact ⟨b :: n, rfl, hn⟩
        | zero =>
            rw [checkLabels] at h
            split at h
            · next hb =>
              obtain rfl := Option.some.inj h
              exact ⟨[b], rfl, if_pos hb⟩
            · next hb =>
              split at h
              · cases h
              · next hc =>
                obtain ⟨n, rfl, hn⟩ := ih _ h
                refine ⟨b :: n, rfl, ?_⟩
                rw [checkLabels, if_neg hb, if_neg hc, hn]
  · induction n generalizing k with
    | nil => cases h
    | cons b n ih =>
        cases k with
        | succ k => exact ih k h
        | zero =>
            rw [checkLabels] at h
            rw [List.cons_append, checkLabels]
            split
            · next hb =>
              rw [if_pos hb] at h
              rw [Option.some.inj h, List.nil_append]
            · next hb =>
              rw [if_neg hb] at h
              split
              · next hc =>
                rw [if_pos hc] at h
                cases h
              · next hc =>
                rw [if_neg hc] at h
                exact ih _ h

theorem checkBytes_eq_some {bytes : List Byte} : checkBytes bytes l = some r ↔ l = bytes ++ r := by
  unfold checkBytes
  constructor
  · intro h
    split at h
    · cases h
    · split at h
      · cases h
      · next ht =>
        rw [← Option.some.inj h]
        conv_lhs => rw [← List.take_append_drop bytes.length l, not_not.1 ht]
  · rintro rfl
    rw [if_neg (by simp), if_neg (by simp)]
    simp

theorem checkTypes_eq_some :
    dnsTypes.findSome? (checkBytes · l) = some r ↔ ∃ t ∈ dnsTypes, l = t ++ r := by
  constructor
  · intro h
    obtain ⟨t, ht, hl⟩ := List.exists_of_findSome?_eq_some h
    exact ⟨t, ht, checkBytes_eq_some.1 hl⟩
  · rintro ⟨t, ht, hl⟩
    have found : (dnsTypes.findSome? (checkBytes · l)).isSome := by
      rw [List.findSome?_isSome_iff]
      exact ⟨t, ht, by rw [checkBytes_eq_some.2 hl]; rfl⟩
    obtain ⟨r', hr'⟩ := Option.isSome_iff_exists.1 found
    obtain ⟨t', ht', hl'⟩ := List.exists_of_findSome?_eq_some hr'
    have two : ∀ t ∈ dnsTypes, t.length = 2 := by decide
    have he : t' ++ r' = t ++ r := (checkBytes_eq_some.1 hl').symm.trans hl
    rw [hr', (List.append_inj he ((two t' ht').trans (two t ht).symm)).2]

theorem checkQR_eq (l : List Byte) : checkQR l =
    (checkQName l).bind fun l => (dnsTypes.findSome? (checkBytes · l)).bind (checkBytes dnsClassIn) := rfl

theorem cuts_checkQR : Cuts checkQR := by
  have types : Cuts fun l => dnsTypes.findSome? (checkBytes · l) := by
    refine cuts_of (fun l r h => ?_) fun n r h => ?_
    · obtain ⟨t, ht, rfl⟩ := checkTypes_eq_some.1 h
      exact ⟨t, rfl, checkTypes_eq_some.2 ⟨t, ht, (List.append_nil t).symm⟩⟩
    · obtain ⟨t, ht, rfl⟩ := checkTypes_eq_some.1 h
      rw [List.append_nil]
      exact checkTypes_eq_some.2 ⟨t, ht, rfl⟩
  have dnsClass : Cuts (checkBytes dnsClassIn) := by
    refine cuts_of (fun l r h => ⟨dnsClassIn, checkBytes_eq_some.1 h, rfl⟩) fun n r h => ?_
    rw [checkBytes_eq_some.1 h, List.append_nil]
    exact checkBytes_eq_some.2 rfl
  exact (cuts_checkLabels 0).bind (types.bind dnsClass)

theorem cuts_checkQRs (c : ℕ) : Cuts (checkQRs c) := by
  induction c with
  | zero => exact cuts_some
  | succ c ih => exact cuts_checkQR.bind ih

/-- A question is a name, and four bytes of type and class. -/
theorem checkQR_eq_nil (h : checkQR l = some []) :
    ∃ n u, l = n ++ u ∧ checkLabels 0 n = some [] ∧ u.length = 4 := by
  rw [checkQR_eq] at h
  obtain ⟨u, hl, hu⟩ := Option.bind_eq_some_iff.1 h
  obtain ⟨n, rfl, hn⟩ := (cuts_checkLabels 0).split hl
  obtain ⟨v, hu, hv⟩ := Option.bind_eq_some_iff.1 hu
  obtain ⟨t, ht, rfl⟩ := checkTypes_eq_some.1 hu
  obtain rfl := checkBytes_eq_some.1 hv
  have two : ∀ t ∈ dnsTypes, t.length = 2 := by decide
  refine ⟨n, _, rfl, hn, ?_⟩
  rw [List.length_append, two t ht]
  rfl

theorem checkQRs_succ (h : checkQRs (c + 1) l = some []) :
    ∃ a s, l = a ++ s ∧ checkQR a = some [] ∧ checkQRs c s = some [] := by
  obtain ⟨s, hl, hs⟩ := Option.bind_eq_some_iff.1 h
  obtain ⟨a, rfl, ha⟩ := cuts_checkQR.split hl
  exact ⟨a, s, rfl, ha, hs⟩

/-! ### Hashing and comparing checked pieces -/

theorem hashLabels_append (h : checkLabels k n = some []) (r : List Byte) (hash : BitVec 32) :
    hashLabels k hash (n ++ r) = (r, (hashLabels k hash n).2) := by
  induction n generalizing k hash with
  | nil => cases h
  | cons b n ih =>
      cases k with
      | succ k =>
          rw [List.cons_append, hashLabels, hashLabels]
          exact ih h (fnv hash b)
      | zero =>
          rw [checkLabels] at h
          rw [List.cons_append, hashLabels, hashLabels]
          split at h
          · next hb => rw [if_pos hb, if_pos hb, Option.some.inj h, List.nil_append]
          · next hb =>
            split at h
            · cases h
            · next hc =>
              have hlt := checkLabels_lt h
              rw [if_neg hb, if_neg hb, if_neg hc, if_neg hc, if_neg (by rw [List.length_append]; omega),
                if_neg (by omega), ih h]

theorem hashBytes_eq {numBytes : ℕ} (h : 0 < numBytes) (l : List Byte) (hash : BitVec 32) :
    hashBytes numBytes l hash = ([], l.foldl fnv hash) := by
  induction l generalizing hash with
  | nil => rfl
  | cons b l ih => rw [hashBytes, if_pos h, ih, List.foldl_cons]

theorem hashQRs_nil (c : ℕ) (hash : BitVec 32) : hashQRs c [] hash = ([], hash) := by
  induction c with
  | zero => rfl
  | succ c ih => exact ih

/-- The name of the first question is hashed label by label, then everything up to the end of the packet. -/
theorem hashQRs_succ (h : checkLabels 0 n = some []) (c : ℕ) (r : List Byte) (hash : BitVec 32) :
    (hashQRs (c + 1) (n ++ r) hash).2 = r.foldl fnv (hashLabels 0 hash n).2 := by
  rw [hashQRs, hashQR, hashQName, hashLabels_append h]
  dsimp only
  rw [hashBytes_eq (by decide)]
  dsimp only
  rw [hashQRs_nil]

/-- The bytes behind the last question are hashed too. -/
theorem hashQRs_append (h : checkQRs c s = some []) (hc : c ≠ 0) (t : List Byte) (hash : BitVec 32) :
    (hashQRs c (s ++ t) hash).2 = t.foldl fnv (hashQRs c s hash).2 := by
  cases c with
  | zero => exact absurd rfl hc
  | succ c =>
      obtain ⟨a, s', rfl, ha, -⟩ := checkQRs_succ h
      obtain ⟨n, u, rfl, hn, -⟩ := checkQR_eq_nil ha
      rw [List.append_assoc, List.append_assoc, hashQRs_succ hn, List.append_assoc, hashQRs_succ hn,
        ← List.append_assoc, List.foldl_append]

theorem isEqualLabels_append {n₁ n₂ : List Byte} (h₁ : checkLabels k n₁ = some []) (h₂ : checkLabels k n₂ = some [])
    (r₁ r₂ : List Byte) : isEqualLabels k (n₁ ++ r₁) (n₂ ++ r₂) =
      if n₁.drop k = n₂.drop k then some (r₁, r₂) else none := by
  induction n₁ generalizing k n₂ with
  | nil => cases h₁
  | cons b₁ n₁ ih =>
      cases n₂ with
      | nil => cases h₂
      | cons b₂ n₂ =>
          cases k with
          | succ k => exact ih h₁ h₂
          | zero =>
              rw [checkLabels] at h₁ h₂
              rw [List.cons_append, List.cons_append, isEqualLabels, List.drop_zero, List.drop_zero]
              by_cases hb : b₁ = b₂
              · subst hb
                rw [if_neg (not_not.2 rfl)]
                by_cases h0 : b₁ = 0
                · rw [if_pos h0] at h₁ h₂ ⊢
                  rw [Option.some.inj h₁, Option.some.inj h₂, if_pos rfl]
                  rfl
                · rw [if_neg h0] at h₁ h₂ ⊢
                  by_cases hc : 64 ≤ b₁
                  · rw [if_pos hc] at h₁
                    cases h₁
                  · rw [if_neg hc] at h₁ h₂ ⊢
                    have hlt₁ := checkLabels_lt h₁
                    have hlt₂ := checkLabels_lt h₂
                    rw [if_neg (by rw [List.length_append, List.length_append]; omega),
                      List.take_append_of_le_length (Nat.le_of_lt hlt₁),
                      List.take_append_of_le_length (Nat.le_of_lt hlt₂), ih h₁ h₂]
                    by_cases ht : n₁.take b₁.toNat = n₂.take b₁.toNat
                    · rw [if_neg (not_not.2 ht)]
                      refine if_congr ⟨fun hd => ?_, fun he => ?_⟩ rfl rfl
                      · rw [← List.take_append_drop b₁.toNat n₁, ht, hd, List.take_append_drop]
                      · rw [(List.cons.inj he).2]
                    · rw [if_pos ht, if_neg fun he => ht (by rw [(List.cons.inj he).2])]
              · rw [if_pos hb, if_neg fun he => hb (List.cons.inj he).1]

theorem isEqualQR_append {a₁ a₂ : List Byte} (h₁ : checkQR a₁ = some []) (h₂ : checkQR a₂ = some [])
    (r₁ r₂ : List Byte) : isEqualQR (a₁ ++ r₁) (a₂ ++ r₂) = if a₁ = a₂ then some (r₁, r₂) else none := by
  obtain ⟨n₁, u₁, rfl, hn₁, hu₁⟩ := checkQR_eq_nil h₁
  obtain ⟨n₂, u₂, rfl, hn₂, hu₂⟩ := checkQR_eq_nil h₂
  have compare : isEqualBytes (2 + 2) (u₁ ++ r₁) (u₂ ++ r₂) = if u₁ = u₂ then some (r₁, r₂) else none := by
    unfold isEqualBytes
    rw [if_neg (by rw [List.length_append, List.length_append]; omega), List.take_left' hu₁, List.take_left' hu₂,
      List.drop_left' hu₁, List.drop_left' hu₂]
    exact ite_not _ _ _
  have unfolded : isEqualQR (n₁ ++ u₁ ++ r₁) (n₂ ++ u₂ ++ r₂) =
      (isEqualLabels 0 (n₁ ++ (u₁ ++ r₁)) (n₂ ++ (u₂ ++ r₂))).bind fun p => isEqualBytes (2 + 2) p.1 p.2 := by
    rw [List.append_assoc, List.append_assoc]
    rfl
  rw [unfolded, isEqualLabels_append hn₁ hn₂, List.drop_zero, List.drop_zero]
  by_cases hn : n₁ = n₂
  · rw [if_pos hn, Option.bind_some, compare, hn]
    exact if_congr (List.append_right_inj n₂).symm rfl rfl
  · rw [if_neg hn, if_neg fun he => hn ((cuts_checkLabels 0).unique hn₁ hn₂ he)]
    rfl

/-- The comparison of checked questions compares their bytes, and no others. -/
theorem isEqualQRs_append {s₁ s₂ : List Byte} (h₁ : checkQRs c s₁ = some []) (h₂ : checkQRs c s₂ = some [])
    (t₁ t₂ : List Byte) : isEqualQRs c (s₁ ++ t₁) (s₂ ++ t₂) = true ↔ s₁ = s₂ := by
  induction c generalizing s₁ s₂ with
  | zero =>
      rw [Option.some.inj h₁, Option.some.inj h₂]
      exact ⟨fun _ => rfl, fun _ => rfl⟩
  | succ c ih =>
      obtain ⟨a₁, s₁, rfl, ha₁, hs₁⟩ := checkQRs_succ h₁
      obtain ⟨a₂, s₂, rfl, ha₂, hs₂⟩ := checkQRs_succ h₂
      rw [isEqualQRs, List.append_assoc, List.append_assoc, isEqualQR_append ha₁ ha₂]
      by_cases ha : a₁ = a₂
      · rw [if_pos ha, ha]
        exact (ih hs₁ hs₂).trans (List.append_right_inj a₂).symm
      · rw [if_neg ha]
        exact ⟨nofun, fun he => absurd (cuts_checkQR.unique ha₁ ha₂ he) ha⟩

end Checked

/-! ### Checked queries -/

/-- What `_dnsPacket_checkQuery` demands of a header. -/
def HeaderOk (hd : List Byte) : Prop :=
  (byteAt hd 2 &&& 0xfc = 0 ∧ byteAt hd 3 = 0) ∧ (int16At hd 6 = 0 ∧ int16At hd 8 = 0 ∧ int16At hd 10 = 0) ∧
    int16At hd 4 ≠ 0

/-- The query `q` has the header `hd`, the questions `s`, and the bytes `t` behind them. -/
structure Query (q hd s t : List Byte) : Prop where
  eq : q = hd ++ (s ++ t)
  length : hd.length = 12
  header : HeaderOk hd
  questions : checkQRs (int16At hd 4) s = some []

section Query

variable {q hd s t q' hd' s' t' : List Byte}

theorem byteAt_append {i : ℕ} (h : i < hd.length) (l : List Byte) : byteAt (hd ++ l) i = byteAt hd i :=
  List.getD_append hd l 0 i h

theorem int16At_append {i : ℕ} (h : i + 1 < hd.length) (l : List Byte) : int16At (hd ++ l) i = int16At hd i := by
  rw [int16At, byteAt_append (Nat.lt_of_succ_lt h), byteAt_append h, int16At]

theorem checkQuery_append (h : hd.length = 12) (l : List Byte) :
    checkQuery (hd ++ l) = some t ↔ HeaderOk hd ∧ checkQRs (int16At hd 4) l = some t := by
  have byte (i : ℕ) (hi : i < 12) := byteAt_append (h ▸ hi) l
  have int16 (i : ℕ) (hi : i + 1 < 12) := int16At_append (h ▸ hi) l
  unfold checkQuery HeaderOk
  rw [byte 2 (by decide), byte 3 (by decide), int16 4 (by decide), int16 6 (by decide), int16 8 (by decide),
    int16 10 (by decide), if_neg (by rw [List.length_append]; omega), List.drop_left' h]
  split
  · next hf => exact ⟨nofun, fun hc => (hf.elim (· hc.1.1.1) (· hc.1.1.2)).elim⟩
  · next hf =>
    split
    · next hr => exact ⟨nofun, fun hc => (hr.elim (· hc.1.2.1.1) (·.elim (· hc.1.2.1.2.1) (· hc.1.2.1.2.2))).elim⟩
    · next hr =>
      split
      · next h0 => exact ⟨nofun, fun hc => (hc.1.2.2 h0).elim⟩
      · next h0 =>
        simp only [not_or, not_not] at hf hr
        exact ⟨fun hc => ⟨⟨hf, hr, h0⟩, hc⟩, And.right⟩

theorem checkQuery_eq_some : checkQuery q = some t ↔ ∃ hd s, Query q hd s t := by
  constructor
  · intro h
    have hlen : 12 ≤ q.length := by
      by_contra hlt
      rw [checkQuery, if_pos (Nat.lt_of_not_le hlt)] at h
      cases h
    have h12 : (q.take 12).length = 12 := by rw [List.length_take, Nat.min_eq_left hlen]
    rw [← List.take_append_drop 12 q, checkQuery_append h12] at h
    obtain ⟨s, hs, hq⟩ := (cuts_checkQRs _).split h.2
    refine ⟨q.take 12, s, ?_, h12, h.1, hq⟩
    rw [← hs, List.take_append_drop]
  · rintro ⟨hd, s, rfl, hlen, header, questions⟩
    exact (checkQuery_append hlen _).2 ⟨header, (cuts_checkQRs _).append questions t⟩

theorem readInt16_append (h : hd.length = 12) (l : List Byte) :
    ∃ r, readInt16 ((hd ++ l).drop 4) = ((int16At hd 4 : ℤ), r) ∧ r.drop 6 = l := by
  match hd, h with
  | [_, _, _, _, _, _, _, _, _, _, _, _], _ => exact ⟨_, rfl, rfl⟩

theorem hashQuery_append (h : hd.length = 12) (l : List Byte) : hashQuery (hd ++ l) =
    (hashQRs (int16At hd 4) l (fnv FNV_BASIS (byteAt hd 2 &&& 1))).2 := by
  obtain ⟨r, hread, hr⟩ := readInt16_append h l
  rw [hashQuery, hread, byteAt_append (by rw [h]; decide)]
  dsimp only
  rw [hr, Int.toNat_natCast]

theorem isEqualQuery_append (h : hd.length = 12) (h' : hd'.length = 12) (l l' : List Byte) :
    isEqualQuery (hd ++ l) (hd' ++ l') = true ↔ byteAt hd 2 &&& 1 = byteAt hd' 2 &&& 1 ∧
      int16At hd 4 = int16At hd' 4 ∧ isEqualQRs (int16At hd 4) l l' = true := by
  obtain ⟨r, hread, hr⟩ := readInt16_append h l
  obtain ⟨r', hread', hr'⟩ := readInt16_append h' l'
  rw [isEqualQuery, hread, hread', byteAt_append (by rw [h]; decide), byteAt_append (by rw [h']; decide)]
  dsimp only
  rw [hr, hr', Int.toNat_natCast]
  split
  · next hrd => exact ⟨nofun, fun he => absurd he.1 hrd⟩
  · next hrd =>
    split
    · next hc =>
      rcases hc with hc | hc
      · exact ⟨nofun, fun he => absurd (congrArg _ he.2.1) hc⟩
      · omega
    · next hc => exact ⟨fun he => ⟨not_not.1 hrd, by omega, he⟩, fun he => he.2.2⟩

/-- The bytes behind the last question are hashed, on top of the rest. -/
theorem Query.entryHash_eq (h : Query q hd s t) : entryHash q = t.foldl fnv (entryHash (hd ++ s)) := by
  unfold entryHash
  rw [h.eq, hashQuery_append h.length, hashQuery_append h.length, hashQRs_append h.questions h.header.2.2]

/-- The bytes behind the last question are not compared. -/
theorem Query.entryEquals_iff (h : Query q hd s t) (h' : Query q' hd' s' t') :
    entryEquals q q' = true ↔ q.length = q'.length ∧ byteAt hd 2 &&& 1 = byteAt hd' 2 &&& 1 ∧
      int16At hd 4 = int16At hd' 4 ∧ s = s' := by
  have key : isEqualQuery q q' = true ↔ byteAt hd 2 &&& 1 = byteAt hd' 2 &&& 1 ∧
      int16At hd 4 = int16At hd' 4 ∧ s = s' := by
    rw [h.eq, h'.eq, isEqualQuery_append h.length h'.length]
    refine and_congr_right fun _ => and_congr_right fun hc => ?_
    have questions' := h'.questions
    rw [← hc] at questions'
    exact isEqualQRs_append h.questions questions' t t'
  unfold entryEquals
  split
  · next hlen => exact ⟨nofun, fun he => absurd he.1 hlen⟩
  · next hlen => rw [key, and_iff_right (not_not.1 hlen)]

theorem entryEquals_refl (h : checkQuery q = some t) : entryEquals q q = true := by
  obtain ⟨hd, s, hq⟩ := checkQuery_eq_some.1 h
  rw [hq.entryEquals_iff hq]
  exact ⟨rfl, rfl, rfl, rfl⟩

theorem entryEquals_comm (h : checkQuery q = some t) (h' : checkQuery q' = some t') :
    entryEquals q q' = entryEquals q' q := by
  obtain ⟨hd, s, hq⟩ := checkQuery_eq_some.1 h
  obtain ⟨hd', s', hq'⟩ := checkQuery_eq_some.1 h'
  rw [Bool.eq_iff_iff, hq.entryEquals_iff hq', hq'.entryEquals_iff hq]
  exact ⟨fun ⟨a, b, c, d⟩ => ⟨a.symm, b.symm, c.symm, d.symm⟩, fun ⟨a, b, c, d⟩ => ⟨a.symm, b.symm, c.symm, d.symm⟩⟩

/-- Without those bytes, equal queries have the same hash. -/
theorem Query.entryHash_questions (h : Query q hd s t) (h' : Query q' hd' s' t')
    (he : entryEquals q q' = true) : entryHash (hd ++ s) = entryHash (hd' ++ s') := by
  obtain ⟨-, hrd, hc, rfl⟩ := (h.entryEquals_iff h').1 he
  unfold entryHash
  rw [hashQuery_append h.length, hashQuery_append h'.length, hrd, hc]

theorem fnv_right_injective (hash : BitVec 32) {b b' : Byte} (h : fnv hash b = fnv hash b') : b = b' := by
  have hx : b.setWidth 32 = b'.setWidth 32 := by
    have hm := congrArg (hash * FNV_MULT ^^^ ·) h
    simpa only [fnv, ← BitVec.xor_assoc, BitVec.xor_self, BitVec.zero_xor] using hm
  have h8 := congrArg (BitVec.setWidth 8) hx
  simpa using h8

/-- Another last byte behind the last question gives an equal query with another hash. -/
theorem Query.exists_other (h : Query q hd s t) (ht : t ≠ []) :
    ∃ q' t', Query q' hd s t' ∧ entryEquals q q' = true ∧ entryHash q ≠ entryHash q' := by
  obtain ⟨u, b, rfl⟩ : ∃ u b, t = u ++ [b] := ⟨_, _, (List.dropLast_concat_getLast ht).symm⟩
  have h' : Query (hd ++ (s ++ (u ++ [b + 1]))) hd s (u ++ [b + 1]) := ⟨rfl, h.length, h.header, h.questions⟩
  refine ⟨_, _, h', (h.entryEquals_iff h').2 ⟨?_, rfl, rfl, rfl⟩, fun he => ?_⟩
  · rw [h.eq]
    simp only [List.length_append, List.length_singleton]
  · rw [h.entryHash_eq, h'.entryHash_eq, List.foldl_append, List.foldl_append] at he
    have hb := fnv_right_injective _ he
    exact absurd hb (by bv_omega)

/-- The packet without the bytes `t` behind its last question. -/
def cut (q t : List Byte) : List Byte := q.take (q.length - t.length)

theorem Query.cut_eq (h : Query q hd s t) : cut q t = hd ++ s := by
  unfold cut
  rw [h.eq, ← List.append_assoc, List.length_append, Nat.add_sub_cancel, List.take_left]

/-- The bytes behind the last question have the same number in equal queries. -/
theorem Query.tail_length (h : Query q hd s t) (h' : Query q' hd' s' t') (he : entryEquals q q' = true) :
    t.length = t'.length := by
  obtain ⟨hlen, -, -, rfl⟩ := (h.entryEquals_iff h').1 he
  rw [h.eq, h'.eq] at hlen
  simp only [List.length_append, h.length, h'.length] at hlen
  omega

/-- Two equal queries have the same hash if and only if the hash of their questions, continued over what follows in the
one and in the other, is the same. -/
theorem entryHash_eq_iff (h : checkQuery q = some t) {q' t' : List Byte} (h' : checkQuery q' = some t')
    (he : entryEquals q q' = true) :
    entryHash q = entryHash q' ↔ t.foldl fnv (entryHash (cut q t)) = t'.foldl fnv (entryHash (cut q t)) := by
  obtain ⟨hd, s, hq⟩ := checkQuery_eq_some.1 h
  obtain ⟨hd', s', hq'⟩ := checkQuery_eq_some.1 h'
  rw [hq.entryHash_eq, hq'.entryHash_eq, ← hq.entryHash_questions hq' he, hq.cut_eq]

/-- So they have if no byte follows the last question of the first. -/
theorem entryHash_eq_of_nil (h : checkQuery q = some []) {q' t' : List Byte} (h' : checkQuery q' = some t')
    (he : entryEquals q q' = true) : entryHash q = entryHash q' := by
  obtain ⟨hd, s, hq⟩ := checkQuery_eq_some.1 h
  obtain ⟨hd', s', hq'⟩ := checkQuery_eq_some.1 h'
  obtain rfl : t' = [] := List.length_eq_zero_iff.1 (hq.tail_length hq' he).symm
  exact (entryHash_eq_iff h h' he).2 rfl

/-- A checked query has the hash of all queries that are equal to it if and only if no byte follows its last
question.  Two equal queries have the same hash if and only if the hash of their questions, continued over what
follows in the one and in the other, is the same. -/
theorem hash_agrees_iff (h : checkQuery q = some t) :
    ((∀ q' t', checkQuery q' = some t' → entryEquals q q' = true → entryHash q = entryHash q') ↔ t = []) ∧
    ∀ q' t', checkQuery q' = some t' → entryEquals q q' = true →
      (entryHash q = entryHash q' ↔ t.foldl fnv (entryHash (cut q t)) = t'.foldl fnv (entryHash (cut q t))) := by
  obtain ⟨hd, s, hq⟩ := checkQuery_eq_some.1 h
  refine ⟨⟨fun agrees => ?_, ?_⟩, fun q' t' h' he => entryHash_eq_iff h h' he⟩
  · by_contra ht
    obtain ⟨q', t', hq', he, hne⟩ := hq.exists_other ht
    exact hne (agrees q' t' (checkQuery_eq_some.2 ⟨hd, s, hq'⟩) he)
  · rintro rfl q' t' h' he
    exact entryHash_eq_of_nil h h' he

/-- A recursive query for the address of `a`. -/
def queryA : List Byte := [0, 0, 1, 0, 0, 1, 0, 0, 0, 0, 0, 0, 1, 97, 0, 0, 1, 0, 1]

theorem hash_agrees_queryA : checkQuery queryA = some [] ∧
    ∀ q' t', checkQuery q' = some t' → entryEquals queryA q' = true → entryHash queryA = entryHash q' :=
  ⟨by decide, (hash_agrees_iff (by decide)).1.2 rfl⟩

/-- Two packets that differ in a byte behind the question. -/
theorem hash_differs_queryA : (checkQuery (queryA ++ [0])).isSome ∧ (checkQuery (queryA ++ [1])).isSome ∧
    entryEquals (queryA ++ [0]) (queryA ++ [1]) = true ∧
    entryHash (queryA ++ [0]) ≠ entryHash (queryA ++ [1]) := by
  decide

end Query

end Bionic.DnsPacket
