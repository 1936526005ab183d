import Mathlib
import Bionic.DnsGrammar
import Bionic.Iterate
import Bionic.StateExcept

/-! # Encoded domain names (`libc/netbsd/nameser/ns_name.c`)

A name in a message is a sequence of labels that ends with a zero byte or with a pointer to another place of the message.
`ns_name_unpack` follows the pointers.  It stops on every message, loops of pointers included, and reads nothing behind the
message but the byte behind it, which it reads where the last byte of the message begins a bit string label
(`unpack_safe`).

* **Memory.** Addresses count from the beginning of the message.  Of the memory, the first `limit` bytes may be read; the
  message ends at `eom`, which is not more than that.
* **Failure.** All functions return -1 for every failure; here this is `none`. -/

namespace Bionic.NsName

open Iterate StateExcept
open DnsPacket (Byte)

def NS_CMPRSFLGS : Byte := 0xc0
def NS_TYPE_ELT : Byte := 0x40
def DNS_LABELTYPE_BITSTRING : Byte := 0x41

/-- A byte that may not be read. -/
structure Overread where
  address : ℕ
deriving DecidableEq, Repr

/-- A memory of which the first `limit` bytes may be read. -/
structure Memory where
  byte : ℕ → Byte
  limit : ℕ

def Memory.read (m : Memory) (i : ℕ) : Except Overread Byte :=
  if i < m.limit then .ok (m.byte i) else .error ⟨i⟩

/-- The source of `memcpy`. -/
def Memory.readBytes (m : Memory) (i : ℕ) : ℕ → Except Overread (List Byte)
  | 0 => .ok []
  | n + 1 => do
    let b ← m.read i
    let l ← m.readBytes (i + 1) n
    return b :: l

/-! ### The source -/

section Code

variable (m : Memory)

/-- `labellen` -/
def labellen (lp : ℕ) : Except Overread (Option ℕ) := do
  let l ← m.read lp
  if l &&& NS_CMPRSFLGS = NS_CMPRSFLGS then return none
  else if l &&& NS_CMPRSFLGS = NS_TYPE_ELT then
    if l = DNS_LABELTYPE_BITSTRING then
      let b ← m.read (lp + 1)
      let bitlen := if b = 0 then 256 else b.toNat
      return some ((bitlen + 7) / 8 + 1)
    else return none
  else return some l.toNat

/-- The variables of `ns_name_unpack`; `len` is `none` for -1. -/
structure Unpack where
  srcp : ℕ
  dst : List Byte
  len : Option ℕ
  checked : ℕ

/-- The offset in a compression pointer. -/
def offset (n b : Byte) : ℕ := ((n.setWidth 32 &&& 0x3f#32) <<< 8 ||| (b.setWidth 32 &&& 0xff#32)).toNat

/-- One pass of `while ((n = *srcp++) != 0)`: the variables behind it, or what the function returns: `len` and the bytes in
`dst`. -/
def unpackPass (eom src dstsiz : ℕ) (s : Unpack) : Except Overread (Unpack ⊕ Option (ℕ × List Byte)) := do
  let n ← m.read s.srcp
  let srcp := s.srcp + 1
  if n = 0 then return .inr (some (s.len.getD (srcp - src), s.dst ++ [0]))
  else if n &&& NS_CMPRSFLGS = 0 ∨ n &&& NS_CMPRSFLGS = NS_TYPE_ELT then
    match ← labellen m (srcp - 1) with
    | none => return .inr none
    | some l =>
      if dstsiz ≤ s.dst.length + l + 1 ∨ eom ≤ srcp + l then return .inr none
      else
        let bytes ← m.readBytes srcp l
        return .inl ⟨srcp + l, s.dst ++ n :: bytes, s.len, s.checked + (l + 1)⟩
  else if n &&& NS_CMPRSFLGS = NS_CMPRSFLGS then
    if eom ≤ srcp then return .inr none
    else
      let b ← m.read srcp
      let len := some (s.len.getD (srcp - src + 1))
      let srcp := offset n b
      if eom ≤ srcp then return .inr none
      else if eom ≤ s.checked + 2 then return .inr none
      else return .inl ⟨srcp, s.dst, len, s.checked + 2⟩
  else return .inr none

def unpackStep (eom src dstsiz : ℕ) (s : Unpack) : Unpack ⊕ Except Overread (Option (ℕ × List Byte)) :=
  match unpackPass m eom src dstsiz s with
  | .error e => .inr (.error e)
  | .ok (.inl s') => .inl s'
  | .ok (.inr r) => .inr (.ok r)

/-- `ns_name_unpack` returns with this result: a failure, or the number of bytes consumed and what is in `dst`. -/
def NsNameUnpack (eom src dstsiz : ℕ) (r : Except Overread (Option (ℕ × List Byte))) : Prop :=
  if eom ≤ src then r = .ok none else Returns (unpackStep m eom src dstsiz) ⟨src, [], none, 0⟩ r

/-- One pass of the loop of `ns_name_skip`: where `cp` is behind it, or at its end, or `none` for an illegal type. -/
def skipPass (eom cp : ℕ) : Except Overread (ℕ ⊕ Option ℕ) :=
  if cp < eom then do
    let n ← m.read cp
    let cp := cp + 1
    if n = 0 then return .inr (some cp)
    else if n &&& NS_CMPRSFLGS = 0 then return .inl (cp + n.toNat)
    else if n &&& NS_CMPRSFLGS = NS_TYPE_ELT then
      match ← labellen m (cp - 1) with
      | none => return .inr none
      | some l => return .inl (cp + l)
    else if n &&& NS_CMPRSFLGS = NS_CMPRSFLGS then return .inr (some (cp + 1))
    else return .inr none
  else return .inr (some cp)

def skipStep (eom cp : ℕ) : ℕ ⊕ Except Overread (Option ℕ) :=
  match skipPass m eom cp with
  | .error e => .inr (.error e)
  | .ok (.inl cp') => .inl cp'
  | .ok (.inr r) => .inr (.ok r)

/-- `ns_name_skip` moves `*ptrptr` to `r`, or fails. -/
def NsNameSkip (eom ptr : ℕ) (r : Except Overread (Option ℕ)) : Prop :=
  ∃ r', Returns (skipStep m eom) ptr r' ∧
    r = r'.map fun cp => cp.bind fun cp => if eom < cp then none else some cp

end Code

/-! ### What it should do -/

/-- The bytes of a label behind its first one, for a bit string label. -/
def bitBytes (b : Byte) : ℕ := ((if b = 0 then 256 else b.toNat) + 7) / 8

/-- A sequence of labels, ordinary ones and bit strings. -/
inductive Labels : List Byte → Prop
  | nil : Labels []
  | label {l rest : List Byte} (pos : 1 ≤ l.length) (short : l.length ≤ 63) (more : Labels rest) :
      Labels (BitVec.ofNat 8 l.length :: (l ++ rest))
  | bits {b : Byte} {l rest : List Byte} (len : l.length = bitBytes b) (more : Labels rest) :
      Labels (DNS_LABELTYPE_BITSTRING :: b :: (l ++ rest))

/-- The message may be read, and the byte behind it unless the last byte of the message cannot begin a bit string label. -/
def Readable (m : Memory) (eom : ℕ) : Prop :=
  eom < m.limit ∨ eom = m.limit ∧ m.byte (eom - 1) ≠ DNS_LABELTYPE_BITSTRING

/-! ### Reading -/

section Reading

variable {m : Memory} {eom lp i n : ℕ} {b c : Byte}

theorem read_eq (h : i < m.limit) : m.read i = .ok (m.byte i) := if_pos h

/-- The bytes from `i` on. -/
def bytes (f : ℕ → Byte) (i n : ℕ) : List Byte := (List.range n).map fun k => f (i + k)

theorem bytes_succ (f : ℕ → Byte) (i n : ℕ) : bytes f i (n + 1) = f i :: bytes f (i + 1) n := by
  rw [bytes, List.range_succ_eq_map, List.map_cons, List.map_map]
  simp [bytes, Function.comp_def, Nat.add_assoc, Nat.add_comm 1]

theorem length_bytes (f : ℕ → Byte) (i n : ℕ) : (bytes f i n).length = n := by simp [bytes]

theorem readBytes_eq (h : i + n ≤ m.limit) : m.readBytes i n = .ok (bytes m.byte i n) := by
  induction n generalizing i with
  | zero => rfl
  | succ n ih =>
    rw [Memory.readBytes, read_eq (by omega), ih (by omega), bytes_succ]
    rfl

theorem Readable.le (h : Readable m eom) : eom ≤ m.limit := by
  rcases h with h | h
  · exact h.le
  · exact h.1.le

/-- The length of a label whose first two bytes these are. -/
def lengthOf (l b : Byte) : Option ℕ :=
  if l &&& NS_CMPRSFLGS = NS_CMPRSFLGS then none
  else if l &&& NS_CMPRSFLGS = NS_TYPE_ELT then
    if l = DNS_LABELTYPE_BITSTRING then some (bitBytes b + 1) else none
  else some l.toNat

theorem labellen_eq (hr : Readable m eom) (h : lp < eom) :
    labellen m lp = .ok (lengthOf (m.byte lp) (m.byte (lp + 1))) := by
  rw [labellen, read_eq (h.trans_le hr.le), ok_bind, lengthOf]
  split_ifs with hptr helt hbit
  · rfl
  · have hnext : lp + 1 < m.limit := by
      rcases hr with hr | ⟨hr, hne⟩
      · omega
      · have : lp ≠ eom - 1 := by
          rintro rfl
          exact hne hbit
        omega
    rw [read_eq hnext, ok_bind]
    rfl
  · rfl
  · rfl

/-- The four types of a label. -/
theorem flags_cases (c : Byte) : c &&& NS_CMPRSFLGS = 0 ∧ c.toNat ≤ 63 ∨
    c &&& NS_CMPRSFLGS = NS_TYPE_ELT ∧ 64 ≤ c.toNat ∨ c &&& NS_CMPRSFLGS = 0x80 ∧ 64 ≤ c.toNat ∨
      c &&& NS_CMPRSFLGS = NS_CMPRSFLGS ∧ 64 ≤ c.toNat := by
  revert c
  decide

theorem lengthOf_ordinary (h : c &&& NS_CMPRSFLGS = 0) (b : Byte) : lengthOf c b = some c.toNat := by
  rw [lengthOf, h, if_neg (by decide), if_neg (by decide)]

theorem lengthOf_elt (h : c &&& NS_CMPRSFLGS = NS_TYPE_ELT) (b : Byte) :
    lengthOf c b = if c = DNS_LABELTYPE_BITSTRING then some (bitBytes b + 1) else none := by
  rw [lengthOf, h, if_neg (by decide), if_pos rfl]

end Reading

/-! ### Unpacking any message -/

section Unpacking

variable {m : Memory} {eom src dstsiz : ℕ} {l l' : List Byte}

theorem Labels.append (h : Labels l) (h' : Labels l') : Labels (l ++ l') := by
  induction h with
  | nil => exact h'
  | label pos short _ ih =>
    rw [List.cons_append, List.append_assoc]
    exact .label pos short ih
  | bits len _ ih =>
    rw [List.cons_append, List.cons_append, List.append_assoc]
    exact .bits len ih

theorem Labels.single (pos : 1 ≤ l.length) (short : l.length ≤ 63) : Labels (BitVec.ofNat 8 l.length :: l) := by
  have h := Labels.label pos short .nil
  rwa [List.append_nil] at h

theorem Labels.single_bits {b : Byte} (len : l.length = bitBytes b) : Labels (DNS_LABELTYPE_BITSTRING :: b :: l) := by
  have h := Labels.bits len .nil
  rwa [List.append_nil] at h

/-- What holds of the variables of `ns_name_unpack` before each pass. -/
structure UnpackInv (eom src dstsiz : ℕ) (s : Unpack) : Prop where
  inside : s.srcp < eom
  room : s.dst.length < dstsiz
  labels : Labels s.dst
  consumed : ∀ k, s.len = some k → src + k ≤ eom
  behind : s.len = none → src ≤ s.srcp

/-- What a successful call leaves in `dst`. -/
structure Unpacked (eom src dstsiz : ℕ) (len : ℕ) (dst : List Byte) : Prop where
  consumed : src + len ≤ eom
  room : dst.length ≤ dstsiz
  encoded : ∃ l, Labels l ∧ dst = l ++ [0]

/-- Labels fill up `dst`, and pointers are counted. -/
def unpackLeft (eom dstsiz : ℕ) (s : Unpack) : ℕ := (dstsiz - s.dst.length) + (eom - s.checked)

variable {s : Unpack}

theorem pass_root (h : s.srcp < m.limit) (hn : m.byte s.srcp = 0) :
    unpackPass m eom src dstsiz s = .ok (.inr (some (s.len.getD (s.srcp + 1 - src), s.dst ++ [0]))) := by
  rw [unpackPass, read_eq h, ok_bind, hn]
  rfl

theorem pass_label (hr : Readable m eom) (h : s.srcp < eom) (hn : m.byte s.srcp ≠ 0)
    (ht : m.byte s.srcp &&& NS_CMPRSFLGS = 0 ∨ m.byte s.srcp &&& NS_CMPRSFLGS = NS_TYPE_ELT) :
    unpackPass m eom src dstsiz s = .ok ((lengthOf (m.byte s.srcp) (m.byte (s.srcp + 1))).elim (.inr none) fun l =>
      if dstsiz ≤ s.dst.length + l + 1 ∨ eom ≤ s.srcp + 1 + l then .inr none
      else .inl ⟨s.srcp + 1 + l, s.dst ++ bytes m.byte s.srcp (l + 1), s.len, s.checked + (l + 1)⟩) := by
  rw [unpackPass, read_eq (h.trans_le hr.le), ok_bind, if_neg hn, if_pos ht, Nat.add_sub_cancel, labellen_eq hr h, ok_bind]
  cases lengthOf (m.byte s.srcp) (m.byte (s.srcp + 1)) with
  | none => rfl
  | some l =>
    dsimp only [Option.elim_some]
    split_ifs with hfull
    · rfl
    · have hle := hr.le
      rw [readBytes_eq (by omega), ok_bind, bytes_succ]
      rfl

theorem pass_pointer (hle : eom ≤ m.limit) (h : s.srcp < eom) (hc : m.byte s.srcp &&& NS_CMPRSFLGS = NS_CMPRSFLGS) :
    unpackPass m eom src dstsiz s =
      .ok (if eom ≤ s.srcp + 1 then .inr none
        else if eom ≤ offset (m.byte s.srcp) (m.byte (s.srcp + 1)) ∨ eom ≤ s.checked + 2 then .inr none
        else .inl ⟨offset (m.byte s.srcp) (m.byte (s.srcp + 1)), s.dst, some (s.len.getD (s.srcp + 1 - src + 1)),
          s.checked + 2⟩) := by
  have hn : m.byte s.srcp ≠ 0 := by
    intro h0
    rw [h0] at hc
    exact absurd hc (by decide)
  have ht : ¬ (m.byte s.srcp &&& NS_CMPRSFLGS = 0 ∨ m.byte s.srcp &&& NS_CMPRSFLGS = NS_TYPE_ELT) := by
    rw [hc]
    decide
  rw [unpackPass, read_eq (h.trans_le hle), ok_bind, if_neg hn, if_neg ht, if_pos hc]
  by_cases hend : eom ≤ s.srcp + 1
  · rw [if_pos hend, if_pos hend]
    rfl
  · rw [if_neg hend, if_neg hend, read_eq (by omega), ok_bind]
    dsimp only
    by_cases hout : eom ≤ offset (m.byte s.srcp) (m.byte (s.srcp + 1))
    · rw [if_pos hout, if_pos (.inl hout)]
      rfl
    · by_cases hloop : eom ≤ s.checked + 2
      · rw [if_neg hout, if_pos hloop, if_pos (.inr hloop)]
        rfl
      · rw [if_neg hout, if_neg hloop, if_neg (not_or.mpr ⟨hout, hloop⟩)]
        rfl

theorem pass_illegal (h : s.srcp < m.limit) (hc : m.byte s.srcp &&& NS_CMPRSFLGS = 0x80) :
    unpackPass m eom src dstsiz s = .ok (.inr none) := by
  have hn : m.byte s.srcp ≠ 0 := by
    intro h0
    rw [h0] at hc
    exact absurd hc (by decide)
  rw [unpackPass, read_eq h, ok_bind, if_neg hn, hc]
  rfl

/-- The bytes that are copied for a label are a label, of two bytes at least. -/
theorem labels_bytes (m : Memory) {p k : ℕ} (hn : m.byte p ≠ 0) (hk : lengthOf (m.byte p) (m.byte (p + 1)) = some k)
    (ht : m.byte p &&& NS_CMPRSFLGS = 0 ∨ m.byte p &&& NS_CMPRSFLGS = NS_TYPE_ELT) :
    1 ≤ k ∧ Labels (bytes m.byte p (k + 1)) := by
  rw [bytes_succ]
  rcases ht with ht | ht
  · rw [lengthOf_ordinary ht, Option.some.injEq] at hk
    have hpos : 1 ≤ k := by
      by_contra h0
      exact hn (BitVec.eq_of_toNat_eq (by rw [hk]; exact Nat.lt_one_iff.mp (Nat.not_le.mp h0)))
    have hshort : k ≤ 63 := by
      rcases flags_cases (m.byte p) with h | h | h | h
      · omega
      all_goals exact absurd (ht.symm.trans h.1) (by decide)
    have hbyte : m.byte p = BitVec.ofNat 8 (bytes m.byte (p + 1) k).length := by
      rw [length_bytes, ← hk, BitVec.ofNat_toNat, BitVec.setWidth_eq]
    rw [hbyte]
    exact ⟨hpos, .single (by rwa [length_bytes]) (by rwa [length_bytes])⟩
  · rw [lengthOf_elt ht] at hk
    split_ifs at hk with hbit
    obtain rfl := Option.some.inj hk
    rw [bytes_succ, hbit]
    exact ⟨by omega, .single_bits (length_bytes _ _ _)⟩

/-- What a pass may leave. -/
def PassOk (eom src dstsiz : ℕ) (s : Unpack) : Unpack ⊕ Option (ℕ × List Byte) → Prop
  | .inr none => True
  | .inr (some (len, dst)) => Unpacked eom src dstsiz len dst
  | .inl s' => UnpackInv eom src dstsiz s' ∧ unpackLeft eom dstsiz s' < unpackLeft eom dstsiz s

theorem pass_inv (hr : Readable m eom) (h : UnpackInv eom src dstsiz s) :
    ∃ r, unpackPass m eom src dstsiz s = .ok r ∧ PassOk eom src dstsiz s r := by
  obtain ⟨hin, hroom, hlabels, hconsumed, hbehind⟩ := h
  have hlen : ∀ k, s.srcp + 1 + k ≤ eom → src + s.len.getD (s.srcp + 1 - src + k) ≤ eom := by
    intro k hk
    cases hs : s.len with
    | none =>
      have := hbehind hs
      rw [Option.getD_none]
      omega
    | some k => exact hconsumed k hs
  by_cases hn : m.byte s.srcp = 0
  · refine ⟨_, pass_root (hin.trans_le hr.le) hn, hlen 0 hin, ?_, s.dst, hlabels, rfl⟩
    rw [List.length_append, List.length_singleton]
    exact hroom
  by_cases ht : m.byte s.srcp &&& NS_CMPRSFLGS = 0 ∨ m.byte s.srcp &&& NS_CMPRSFLGS = NS_TYPE_ELT
  · refine ⟨_, pass_label hr hin hn ht, ?_⟩
    cases hk : lengthOf (m.byte s.srcp) (m.byte (s.srcp + 1)) with
    | none => exact trivial
    | some k =>
      obtain ⟨hpos, hlabel⟩ := labels_bytes m hn hk ht
      rw [Option.elim_some]
      split_ifs with hfull
      · exact trivial
      · have hdst : (s.dst ++ bytes m.byte s.srcp (k + 1)).length = s.dst.length + (k + 1) := by
          rw [List.length_append, length_bytes]
        obtain ⟨hfits, hinside⟩ := not_or.mp hfull
        refine ⟨⟨Nat.not_le.mp hinside, by rw [hdst]; omega, hlabels.append hlabel, hconsumed, fun h => ?_⟩, ?_⟩
        · have := hbehind h
          show src ≤ s.srcp + 1 + k
          omega
        · simp only [unpackLeft, hdst]
          omega
  rcases flags_cases (m.byte s.srcp) with hc | hc | hc | hc
  · exact absurd (.inl hc.1) ht
  · exact absurd (.inr hc.1) ht
  · exact ⟨_, pass_illegal (hin.trans_le hr.le) hc.1, trivial⟩
  · refine ⟨_, pass_pointer hr.le hin hc.1, ?_⟩
    split_ifs with hend hout
    · exact trivial
    · exact trivial
    · obtain ⟨hinside, hloop⟩ := not_or.mp hout
      refine ⟨⟨Nat.not_le.mp hinside, hroom, hlabels, ?_, fun h => absurd h (Option.some_ne_none _)⟩, ?_⟩
      · rintro k hk
        obtain rfl := Option.some.inj hk
        exact hlen 1 (by omega)
      · simp only [unpackLeft]
        omega

theorem step_of_next {s' : Unpack} (h : unpackPass m eom src dstsiz s = .ok (.inl s')) :
    unpackStep m eom src dstsiz s = .inl s' := by
  rw [unpackStep, h]

theorem step_of_end {r : Option (ℕ × List Byte)} (h : unpackPass m eom src dstsiz s = .ok (.inr r)) :
    unpackStep m eom src dstsiz s = .inr (.ok r) := by
  rw [unpackStep, h]

end Unpacking

/-- On every message, `ns_name_unpack` ends and reads nothing that it may not.  What it leaves in `dst` fits in and is a
sequence of labels with its end, and what it has consumed is inside of the message. -/
theorem unpack_safe (m : Memory) (eom src dstsiz : ℕ) (hr : Readable m eom) (hdst : 0 < dstsiz) :
    ∃ r, NsNameUnpack m eom src dstsiz (.ok r) ∧
      ∀ len dst, r = some (len, dst) →
        src + len ≤ eom ∧ dst.length ≤ dstsiz ∧ ∃ l, Labels l ∧ dst = l ++ [0] := by
  unfold NsNameUnpack
  by_cases hsrc : eom ≤ src
  · exact ⟨none, by rw [if_pos hsrc], by rintro len dst ⟨⟩⟩
  simp only [if_neg hsrc]
  have hstart : UnpackInv eom src dstsiz ⟨src, [], none, 0⟩ :=
    ⟨Nat.not_le.mp hsrc, hdst, .nil, fun k h => absurd h.symm (Option.some_ne_none k), fun _ => le_rfl⟩
  have hstep : ∀ s, UnpackInv eom src dstsiz s →
      (∃ a, unpackStep m eom src dstsiz s = .inr a ∧
        ∃ r, a = .ok r ∧ ∀ len dst, r = some (len, dst) → Unpacked eom src dstsiz len dst) ∨
      ∃ s', unpackStep m eom src dstsiz s = .inl s' ∧ UnpackInv eom src dstsiz s' ∧
        unpackLeft eom dstsiz s' < unpackLeft eom dstsiz s := by
    intro s hs
    obtain ⟨r, hpass, hok⟩ := pass_inv hr hs
    rcases r with s' | r
    · exact .inr ⟨s', step_of_next hpass, hok⟩
    · refine .inl ⟨_, step_of_end hpass, r, rfl, ?_⟩
      rintro len dst rfl
      exact hok
  obtain ⟨a, ha, r, rfl, hok⟩ := exists_returns (unpackLeft eom dstsiz) hstep hstart
  refine ⟨r, ha, fun len dst h => ?_⟩
  obtain ⟨hlen, hroom, hlabels⟩ := hok len dst h
  exact ⟨hlen, hroom, hlabels⟩

/-- A pointer to itself. -/
theorem unpack_safe_pointer_loop :
    let m : Memory := ⟨fun i => if i = 0 then 0xc0 else 0, 2⟩
    ∃ r, NsNameUnpack m 2 0 255 (.ok r) ∧
      ∀ len dst, r = some (len, dst) → 0 + len ≤ 2 ∧ dst.length ≤ 255 ∧ ∃ l, Labels l ∧ dst = l ++ [0] :=
  unpack_safe ⟨fun i => if i = 0 then 0xc0 else 0, 2⟩ 2 0 255 (.inr ⟨rfl, by decide⟩) (by decide)

/-! ### Skipping -/

section Skipping

variable {m : Memory} {eom src cp : ℕ}

theorem skip_root (h : cp < eom) (hle : eom ≤ m.limit) (hn : m.byte cp = 0) :
    skipStep m eom cp = .inr (.ok (some (cp + 1))) := by
  rw [skipStep, skipPass, if_pos h, read_eq (h.trans_le hle), ok_bind, hn]
  rfl

theorem skip_pointer (h : cp < eom) (hle : eom ≤ m.limit) (hc : m.byte cp &&& NS_CMPRSFLGS = NS_CMPRSFLGS) :
    skipStep m eom cp = .inr (.ok (some (cp + 2))) := by
  have hn : m.byte cp ≠ 0 := by
    intro h0
    rw [h0] at hc
    exact absurd hc (by decide)
  rw [skipStep, skipPass, if_pos h, read_eq (h.trans_le hle), ok_bind, if_neg hn, hc]
  rfl

theorem skip_label (hr : Readable m eom) (h : cp < eom) (hn : m.byte cp ≠ 0) {k : ℕ}
    (hk : lengthOf (m.byte cp) (m.byte (cp + 1)) = some k)
    (ht : m.byte cp &&& NS_CMPRSFLGS = 0 ∨ m.byte cp &&& NS_CMPRSFLGS = NS_TYPE_ELT) :
    skipStep m eom cp = .inl (cp + 1 + k) := by
  rw [skipStep, skipPass, if_pos h, read_eq (h.trans_le hr.le), ok_bind, if_neg hn]
  rcases ht with ht | ht
  · rw [lengthOf_ordinary ht, Option.some.injEq] at hk
    rw [if_pos ht, hk]
    rfl
  · have hne : ¬ m.byte cp &&& NS_CMPRSFLGS = 0 := by
      rw [ht]
      decide
    rw [if_neg hne, if_pos ht, Nat.add_sub_cancel, labellen_eq hr h, hk]
    rfl

/-- The variables of both functions, as long as `ns_name_unpack` goes on. -/
structure SkipInv (m : Memory) (eom src : ℕ) (s : Unpack) : Prop where
  inside : s.srcp < eom
  before : s.len = none → src ≤ s.srcp ∧ Leads (skipStep m eom) src s.srcp
  after : ∀ k, s.len = some k → src + k ≤ eom ∧ Returns (skipStep m eom) src (.ok (some (src + k)))

/-- What `ns_name_skip` does where `ns_name_unpack` succeeds. -/
def Skips (m : Memory) (eom src : ℕ) (len : ℕ) : Prop :=
  src + len ≤ eom ∧ Returns (skipStep m eom) src (.ok (some (src + len)))

theorem skip_pass (hr : Readable m eom) (dstsiz : ℕ) {s : Unpack} (h : SkipInv m eom src s) :
    ∃ r, unpackPass m eom src dstsiz s = .ok r ∧
      (∀ s', r = .inl s' → SkipInv m eom src s') ∧ ∀ len dst, r = .inr (some (len, dst)) → Skips m eom src len := by
  obtain ⟨hin, hbefore, hafter⟩ := h
  have hend : ∀ k, s.srcp + 1 + k ≤ eom → skipStep m eom s.srcp = .inr (.ok (some (s.srcp + 1 + k))) →
      Skips m eom src (s.len.getD (s.srcp + 1 - src + k)) := by
    intro k hk hskip
    cases hs : s.len with
    | none =>
      obtain ⟨hle, hlead⟩ := hbefore hs
      have hsum : src + (s.srcp + 1 - src + k) = s.srcp + 1 + k := by omega
      rw [Option.getD_none, Skips, hsum]
      exact ⟨hk, hlead.returns_iff.mpr (.done hskip)⟩
    | some n => exact hafter n hs
  by_cases hn : m.byte s.srcp = 0
  · refine ⟨_, pass_root (hin.trans_le hr.le) hn, by rintro s' ⟨⟩, ?_⟩
    rintro len dst ⟨⟩
    exact hend 0 hin (skip_root hin hr.le hn)
  by_cases ht : m.byte s.srcp &&& NS_CMPRSFLGS = 0 ∨ m.byte s.srcp &&& NS_CMPRSFLGS = NS_TYPE_ELT
  · refine ⟨_, pass_label hr hin hn ht, ?_⟩
    cases hk : lengthOf (m.byte s.srcp) (m.byte (s.srcp + 1)) with
    | none => exact ⟨by rintro s' ⟨⟩, by rintro len dst ⟨⟩⟩
    | some k =>
      rw [Option.elim_some]
      split_ifs with hfull
      · exact ⟨by rintro s' ⟨⟩, by rintro len dst ⟨⟩⟩
      · refine ⟨?_, by rintro len dst ⟨⟩⟩
        rintro s' ⟨⟩
        refine ⟨Nat.not_le.mp (not_or.mp hfull).2, fun hs => ?_, hafter⟩
        obtain ⟨hle, hlead⟩ := hbefore hs
        exact ⟨hle.trans (by dsimp only; omega), hlead.tail (skip_label hr hin hn hk ht)⟩
  rcases flags_cases (m.byte s.srcp) with hc | hc | hc | hc
  · exact absurd (.inl hc.1) ht
  · exact absurd (.inr hc.1) ht
  · exact ⟨_, pass_illegal (hin.trans_le hr.le) hc.1, by rintro s' ⟨⟩, by rintro len dst ⟨⟩⟩
  · refine ⟨_, pass_pointer hr.le hin hc.1, ?_⟩
    split_ifs with hlast hout
    · exact ⟨by rintro s' ⟨⟩, by rintro len dst ⟨⟩⟩
    · exact ⟨by rintro s' ⟨⟩, by rintro len dst ⟨⟩⟩
    · refine ⟨?_, by rintro len dst ⟨⟩⟩
      rintro s' ⟨⟩
      refine ⟨Nat.not_le.mp (not_or.mp hout).1, fun h => absurd h (Option.some_ne_none _), ?_⟩
      rintro k ⟨⟩
      exact hend 1 (by omega) (skip_pointer hin hr.le hc.1)

end Skipping

/-- Where `ns_name_unpack` succeeds, `ns_name_skip` skips what it has consumed. -/
theorem skip_of_unpack (m : Memory) (eom src dstsiz len : ℕ) (dst : List Byte) (hr : Readable m eom)
    (h : NsNameUnpack m eom src dstsiz (.ok (some (len, dst)))) : NsNameSkip m eom src (.ok (some (src + len))) := by
  unfold NsNameUnpack at h
  by_cases hsrc : eom ≤ src
  · rw [if_pos hsrc] at h
    cases h
  rw [if_neg hsrc] at h
  have hstart : SkipInv m eom src ⟨src, [], none, 0⟩ :=
    ⟨Nat.not_le.mp hsrc, fun _ => ⟨le_rfl, .refl _⟩, fun k h => absurd h.symm (Option.some_ne_none k)⟩
  have hskips : Skips m eom src len := by
    refine h.of_invariant (Q := fun r => ∀ len dst, r = .ok (some (len, dst)) → Skips m eom src len) ?_ hstart len dst rfl
    intro s hs
    obtain ⟨r, hpass, hnext, hlast⟩ := skip_pass hr dstsiz hs
    rcases r with s' | r
    · rw [step_of_next hpass]
      exact ⟨fun t ht => hnext t (congrArg _ (Sum.inl.inj ht)), by rintro a ⟨⟩⟩
    · rw [step_of_end hpass]
      refine ⟨by rintro t ⟨⟩, ?_⟩
      rintro a ⟨⟩ len dst ⟨⟩
      exact hlast len dst rfl
  refine ⟨_, hskips.2, ?_⟩
  simp [Except.map, Nat.not_lt.mpr hskips.1]

/-- A name behind a header of one byte. -/
theorem skip_of_unpack_one_label :
    let m : Memory := ⟨fun i => if i = 1 then 1 else if i = 2 then 97 else 0, 4⟩
    NsNameUnpack m 4 1 255 (.ok (some (3, [1, 97, 0]))) ∧ NsNameSkip m 4 1 (.ok (some (1 + 3))) := by
  have h : NsNameUnpack ⟨fun i => if i = 1 then 1 else if i = 2 then 97 else 0, 4⟩ 4 1 255
      (.ok (some (3, [1, 97, 0]))) := by
    rw [NsNameUnpack, if_neg (by decide)]
    exact ⟨2, by decide⟩
  exact ⟨h, skip_of_unpack ⟨fun i => if i = 1 then 1 else if i = 2 then 97 else 0, 4⟩ 4 1 255 3 _ (.inr ⟨rfl, by decide⟩) h⟩

end Bionic.NsName
