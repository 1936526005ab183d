import Mathlib
import Bionic.NsName

/-! # Compression of domain names (`libc/netbsd/nameser/ns_name.c`)

`ns_name_pack` appends a name to a message.  Where the rest of the name stands in the message already, it writes a pointer
to there; the table `dnptrs` says where the names of the message begin.  Whatever is composed, every name of the message is
unpacked again, up to the case of its letters (`unpack_composed`).

* **The message.** Its bytes are a list that ends at `dst`: names are appended, as in `res_nmkquery`.
* **The table.** The list of the offsets behind `dnptrs[0]`, or `none` where there is no table or `dnptrs[0]` is null.
  `lastdnptr` is the number of pointers before it. -/

namespace Bionic.NsName

open Iterate StateExcept
open DnsPacket (Byte)

def MAXCDNAME : ℕ := 255

/-! ### The source -/

def mklower (ch : Byte) : Byte := if 0x41 ≤ ch ∧ ch ≤ 0x5A then ch + 0x20 else ch

/-- The memory behind `msg`, of which only the message has been written. -/
def written (l : List Byte) : Memory := ⟨fun i => l.getD i 0, l.length⟩

/-- Where `dn_find` is: at the head of one of its three loops. -/
inductive Find where
  | entry (cpp : List ℕ)
  | scan (sp : ℕ) (cpp : List ℕ)
  | walk (dn cp sp : ℕ) (cpp : List ℕ)
deriving DecidableEq, Repr

section Code

variable (src msg : Memory)

/-- The loop of `dn_find` over the `n` bytes of a label. -/
def sameText (dn cp : ℕ) : ℕ → Except Overread Bool
  | 0 => return true
  | n + 1 => do
    let d ← src.read dn
    let c ← msg.read cp
    if mklower d ≠ mklower c then return false
    else sameText (dn + 1) (cp + 1) n

/-- `next: sp += *sp + 1` -/
def findNext (sp : ℕ) (cpp : List ℕ) : Except Overread (Find ⊕ Option ℕ) := do
  let b ← msg.read sp
  return .inl (.scan (sp + b.toNat + 1) cpp)

/-- One pass of a loop of `dn_find`. -/
def findPass (domain : ℕ) : Find → Except Overread (Find ⊕ Option ℕ)
  | .entry [] => return .inr none
  | .entry (sp :: cpp) => return .inl (.scan sp cpp)
  | .scan sp cpp => do
    let b ← msg.read sp
    if b ≠ 0 ∧ b &&& NS_CMPRSFLGS = 0 ∧ sp < 0x4000 then return .inl (.walk domain sp sp cpp)
    else return .inl (.entry cpp)
  | .walk dn cp sp cpp => do
    let n ← msg.read cp
    let cp := cp + 1
    if n = 0 then findNext msg sp cpp
    else if n &&& NS_CMPRSFLGS = 0 then
      let n ← labellen msg (cp - 1)
      let d ← src.read dn
      if n ≠ some d.toNat then findNext msg sp cpp
      else if ← sameText src msg (dn + 1) cp d.toNat then
        let dn := dn + 1 + d.toNat
        let cp := cp + d.toNat
        if (← src.read dn) ≠ 0 then return .inl (.walk dn cp sp cpp)
        else if (← msg.read cp) = 0 then return .inr (some sp)
        else findNext msg sp cpp
      else findNext msg sp cpp
    else if n &&& NS_CMPRSFLGS = NS_CMPRSFLGS then
      let b ← msg.read cp
      return .inl (.walk dn (offset n b) sp cpp)
    else return .inr none

def findStep (domain : ℕ) (s : Find) : Find ⊕ Except Overread (Option ℕ) :=
  match findPass src msg domain s with
  | .error e => .inr (.error e)
  | .ok (.inl s') => .inl s'
  | .ok (.inr r) => .inr (.ok r)

end Code

/-- The variables of the second loop of `ns_name_pack`: `out` stands from `dst` to `dstp`, and `ptrs` from `dnptrs` to
`cpp`. -/
structure Pack where
  srcp : ℕ
  out : List Byte
  ptrs : List ℕ
  first : Bool
deriving DecidableEq, Repr

/-- Where `ns_name_pack` is: in its first loop, in its second one, or in `dn_find`. -/
inductive PackState where
  | legal (l srcp : ℕ)
  | pass (s : Pack)
  | search (s : Pack) (f : Find)
deriving DecidableEq, Repr

/-- What `ns_name_pack` returns: the bytes that it has written or -1, and the table behind it. -/
structure Packed where
  bytes : Option (List Byte)
  ptrs : List ℕ
deriving DecidableEq, Repr

/-- The arguments of `ns_name_pack`, and the message that ends at `dst`. -/
structure PackArgs where
  src : Memory
  msg : List Byte
  dstsiz : ℤ
  dnptrs : Option (List ℕ)
  lastdnptr : Option ℕ

namespace PackArgs

variable (a : PackArgs)

/-- `return (-1)`, with the table as it was. -/
def cleanup : Except Overread (PackState ⊕ Packed) := return .inr ⟨none, a.dnptrs.getD []⟩

/-- Not found, save it. -/
def save (s : Pack) : Pack :=
  if (a.lastdnptr.any fun k => s.ptrs.length + 2 < k) ∧ a.msg.length + s.out.length < 0x4000 ∧ s.first then
    { s with ptrs := s.ptrs ++ [a.msg.length + s.out.length], first := false }
  else s

/-- The second half of a pass: copy a label. -/
def copyLabel (s : Pack) : Except Overread (PackState ⊕ Packed) := do
  let n ← a.src.read s.srcp
  if n &&& NS_CMPRSFLGS = NS_CMPRSFLGS then a.cleanup
  else
    match ← labellen a.src s.srcp with
    -- does not happen, the name is legal
    | none => if a.dstsiz ≤ s.out.length then a.cleanup else return .inl (.pass s)
    | some n =>
      if a.dstsiz ≤ s.out.length + 1 + n then a.cleanup
      else
        let l ← a.src.readBytes s.srcp (n + 1)
        let out := s.out ++ l
        if n ≠ 0 then return .inl (.pass { s with srcp := s.srcp + (n + 1), out := out })
        else if a.dstsiz < out.length then a.cleanup
        else return .inr ⟨some out, s.ptrs⟩

/-- A compression pointer. -/
def pointerTo (l : ℕ) : List Byte := [BitVec.ofNat 8 (l >>> 8) ||| NS_CMPRSFLGS, BitVec.ofNat 8 (l % 256)]

def packPass : PackState → Except Overread (PackState ⊕ Packed)
  | .legal l srcp => do
    let n ← a.src.read srcp
    if n &&& NS_CMPRSFLGS = NS_CMPRSFLGS then a.cleanup
    else
      match ← labellen a.src srcp with
      | none => a.cleanup
      | some l0 =>
        let l := l + (l0 + 1)
        if MAXCDNAME < l then a.cleanup
        else if n ≠ 0 then return .inl (.legal l (srcp + (l0 + 1)))
        else return .inl (.pass ⟨0, [], a.dnptrs.getD [], true⟩)
  | .pass s => do
    let n ← a.src.read s.srcp
    if n ≠ 0 then a.dnptrs.elim (a.copyLabel s) fun l => return .inl (.search s (.entry l))
    else a.copyLabel s
  | .search s f =>
    match findStep a.src (written (a.msg ++ s.out)) s.srcp f with
    | .inl f' => return .inl (.search s f')
    | .inr (.error e) => .error e
    | .inr (.ok none) => a.copyLabel (a.save s)
    | .inr (.ok (some l)) =>
      if a.dstsiz ≤ s.out.length + 1 then a.cleanup
      else return .inr ⟨some (s.out ++ pointerTo l), s.ptrs⟩

def packStep (s : PackState) : PackState ⊕ Except Overread Packed :=
  match a.packPass s with
  | .error e => .inr (.error e)
  | .ok (.inl s') => .inl s'
  | .ok (.inr r) => .inr (.ok r)

end PackArgs

/-- `ns_name_pack` returns with this result. -/
def NsNamePack (a : PackArgs) (r : Except Overread Packed) : Prop := Returns a.packStep (.legal 0 0) r

/-- `ns_name_rollback`: the table without what points to `src` or behind it; `dnptrs[0]` points to 0. -/
def nsNameRollback (src : ℕ) (ptrs : List ℕ) : Option (List ℕ) := if src = 0 then none else some (ptrs.takeWhile (· < src))

/-! ### Names in a message -/

/-- A label with its length, or a bit string label. -/
inductive IsLabel : List Byte → Prop
  | ordinary {text : List Byte} (pos : 1 ≤ text.length) (short : text.length ≤ 63) :
      IsLabel (BitVec.ofNat 8 text.length :: text)
  | bits {b : Byte} {text : List Byte} (len : text.length = bitBytes b) :
      IsLabel (DNS_LABELTYPE_BITSTRING :: b :: text)

/-- The encoding of a name without pointers. -/
def wire (ls : List (List Byte)) : List Byte := ls.flatten ++ [0]

/-- A label up to the case of its letters; a bit string has none. -/
def foldLabel (l : List Byte) : List Byte :=
  if l.head? = some DNS_LABELTYPE_BITSTRING then l else l.map mklower

def fold (ls : List (List Byte)) : List (List Byte) := ls.map foldLabel

/-- The bytes `l` stand at `p`. -/
def Holds (f : ℕ → Byte) (p : ℕ) (l : List Byte) : Prop := bytes f p l.length = l

/-- The name that stands between `p` and `e`.  It may go on in names that end before `s`, and these stand behind `lo`. -/
inductive NameAt (f : ℕ → Byte) (lo : ℕ) : ℕ → ℕ → List (List Byte) → ℕ → Prop
  | root {s p : ℕ} (le : s ≤ p) (zero : f p = 0) : NameAt f lo s p [] (p + 1)
  | label {s p e : ℕ} {l : List Byte} {ls : List (List Byte)} (le : s ≤ p) (isLabel : IsLabel l) (holds : Holds f p l)
      (more : NameAt f lo s (p + l.length) ls e) : NameAt f lo s p (l :: ls) e
  | pointer {s p e : ℕ} {ls : List (List Byte)} (le : s ≤ p) (flags : f p &&& NS_CMPRSFLGS = NS_CMPRSFLGS)
      (above : lo ≤ offset (f p) (f (p + 1))) (nonempty : ls ≠ []) (before : e ≤ s)
      (target : NameAt f lo (offset (f p) (f (p + 1))) (offset (f p) (f (p + 1))) ls e) : NameAt f lo s p ls (p + 2)

section Names

variable {f g : ℕ → Byte} {lo s s' p e k : ℕ} {l l' : List Byte} {ls : List (List Byte)}

theorem holds_nil : Holds f p [] := rfl

theorem holds_cons {b : Byte} : Holds f p (b :: l) ↔ f p = b ∧ Holds f (p + 1) l := by
  rw [Holds, List.length_cons, bytes_succ, List.cons.injEq]
  rfl

theorem holds_append : Holds f p (l ++ l') ↔ Holds f p l ∧ Holds f (p + l.length) l' := by
  induction l generalizing p with
  | nil => simp [holds_nil]
  | cons b l ih =>
    rw [List.cons_append, holds_cons, holds_cons, ih, and_assoc, List.length_cons, Nat.add_assoc, Nat.add_comm 1]

theorem bytes_congr (h : ∀ i, p ≤ i → i < p + k → f i = g i) : bytes f p k = bytes g p k := by
  refine List.map_congr_left fun i hi => h _ (Nat.le_add_right p i) ?_
  have := List.mem_range.mp hi
  omega

theorem Holds.congr (h : Holds f p l) (hfg : ∀ i, p ≤ i → i < p + l.length → f i = g i) : Holds g p l :=
  (bytes_congr hfg).symm.trans h

theorem IsLabel.length_pos (h : IsLabel l) : 2 ≤ l.length := by
  cases h with
  | ordinary pos => exact Nat.succ_le_succ pos
  | bits => simp

/-- What the source reads of a label. -/
theorem IsLabel.lengthOf (h : IsLabel l) (hp : Holds f p l) :
    f p ≠ 0 ∧ (f p &&& NS_CMPRSFLGS = 0 ∨ f p &&& NS_CMPRSFLGS = NS_TYPE_ELT) ∧
      lengthOf (f p) (f (p + 1)) = some (l.length - 1) := by
  cases h with
  | @ordinary text pos short =>
    have htoNat : (BitVec.ofNat 8 text.length).toNat = text.length := by
      rw [BitVec.toNat_ofNat]
      omega
    have hflags : BitVec.ofNat 8 text.length &&& NS_CMPRSFLGS = 0 := by
      rcases flags_cases (BitVec.ofNat 8 text.length) with h | h | h | h
      · exact h.1
      all_goals
        rw [htoNat] at h
        omega
    rw [(holds_cons.mp hp).1]
    refine ⟨fun h0 => ?_, .inl hflags, ?_⟩
    · rw [h0] at htoNat
      have hzero : 0 = text.length := htoNat
      omega
    · rw [lengthOf_ordinary hflags, htoNat]
      rfl
  | bits len =>
    obtain ⟨hhead, htail⟩ := holds_cons.mp hp
    rw [hhead, (holds_cons.mp htail).1, lengthOf_elt (by decide), if_pos rfl, ← len]
    exact ⟨by decide, .inr (by decide), rfl⟩

theorem length_wire_cons (l : List Byte) (ls : List (List Byte)) : (wire (l :: ls)).length = l.length + (wire ls).length := by
  simp [wire]

theorem wire_cons (l : List Byte) (ls : List (List Byte)) : wire (l :: ls) = l ++ wire ls := by
  simp [wire]

theorem length_wire_pos (ls : List (List Byte)) : 1 ≤ (wire ls).length := by simp [wire]

theorem NameAt.lt (h : NameAt f lo s p ls e) : p < e := by
  induction h with
  | root => exact Nat.lt_succ_self _
  | label _ _ _ _ ih => omega
  | pointer => omega

theorem NameAt.le (h : NameAt f lo s p ls e) : s ≤ p := by
  cases h with
  | root le => exact le
  | label le => exact le
  | pointer le => exact le

/-- A name that begins later may go on in more names. -/
theorem NameAt.mono (h : NameAt f lo s p ls e) (hs : s ≤ s') (hp : s' ≤ p) : NameAt f lo s' p ls e := by
  induction h with
  | root _ zero => exact .root hp zero
  | label _ isLabel holds _ ih => exact .label hp isLabel holds (ih hs (by omega))
  | pointer _ flags above nonempty before target => exact .pointer hp flags above nonempty (before.trans hs) target

theorem NameAt.congr (h : NameAt f lo s p ls e) (hlo : lo ≤ s) (hfg : ∀ i, lo ≤ i → i < e → f i = g i) :
    NameAt g lo s p ls e := by
  induction h with
  | root le zero => exact .root le ((hfg _ (hlo.trans le) (Nat.lt_succ_self _)).symm.trans zero)
  | label le isLabel holds more ih =>
    have hlt := more.lt
    exact .label le isLabel (holds.congr fun i hi hi' => hfg i (by omega) (by omega)) (ih hlo hfg)
  | @pointer s p e ls le flags above nonempty before target ih =>
    have h0 : f p = g p := hfg p (by omega) (by omega)
    have h1 : f (p + 1) = g (p + 1) := hfg (p + 1) (by omega) (by omega)
    rw [h0] at flags
    rw [h0, h1] at above target ih
    exact .pointer le flags above nonempty before (ih above fun i hi hi' => hfg i hi (by omega))

/-- A name without pointers. -/
theorem nameAt_wire (hl : ∀ l ∈ ls, IsLabel l) (hs : s ≤ p) (h : Holds f p (wire ls)) :
    NameAt f lo s p ls (p + (wire ls).length) := by
  induction ls generalizing p with
  | nil => exact .root hs (holds_cons.mp h).1
  | cons l ls ih =>
    obtain ⟨hlabels, hrest⟩ := List.forall_mem_cons.mp hl
    rw [wire_cons, holds_append] at h
    rw [length_wire_cons, ← Nat.add_assoc]
    exact .label hs hlabels h.1 (ih hrest (by omega) h.2)

/-- Labels before a name. -/
theorem NameAt.append {ls' : List (List Byte)} (h : NameAt f lo s (p + ls.flatten.length) ls' e) (hl : ∀ l ∈ ls, IsLabel l)
    (hs : s ≤ p) (hp : Holds f p ls.flatten) : NameAt f lo s p (ls ++ ls') e := by
  induction ls generalizing p with
  | nil => exact h
  | cons l ls ih =>
    obtain ⟨hlabel, hrest⟩ := List.forall_mem_cons.mp hl
    rw [List.flatten_cons, holds_append] at hp
    rw [List.flatten_cons, List.length_append, ← Nat.add_assoc] at h
    exact .label hs hlabel hp.1 (ih h hrest (by omega) hp.2)

/-- A name is unpacked to its encoding without pointers. -/
theorem NameAt.unpack {m : Memory} {eom src dstsiz : ℕ} {st : Unpack} (h : NameAt m.byte lo s p ls e)
    (hr : Readable m eom) (hp : st.srcp = p) (he : e ≤ eom) (hroom : st.dst.length + (wire ls).length ≤ dstsiz)
    (hchecked : st.checked + (e - p) + s ≤ eom) (hsrc : st.len = none → src ≤ p) :
    Returns (unpackStep m eom src dstsiz) st (.ok (some (st.len.getD (e - src), st.dst ++ wire ls))) := by
  induction h generalizing st with
  | root le zero =>
    subst hp
    exact .done (step_of_end (pass_root (hr.le.trans_lt' he) zero))
  | @label s p e l ls le isLabel holds more ih =>
    subst hp
    obtain ⟨hzero, htype, hlen⟩ := isLabel.lengthOf holds
    have hpos := isLabel.length_pos
    have hend := more.lt
    have hwire := length_wire_pos ls
    rw [length_wire_cons] at hroom
    have hsum : l.length - 1 + 1 = l.length := by omega
    have hpass : unpackPass m eom src dstsiz st = _ := pass_label hr (by omega) hzero htype
    rw [hlen, Option.elim_some, if_neg (by omega), hsum, holds] at hpass
    have hnext : st.srcp + 1 + (l.length - 1) = st.srcp + l.length := by omega
    rw [hnext] at hpass
    refine (returns_next_iff (step_of_next hpass)).mpr ?_
    rw [wire_cons, ← List.append_assoc]
    refine ih rfl he ?_ ?_ fun h => (hsrc h).trans (Nat.le_add_right _ _)
    · rw [List.length_append]
      omega
    · dsimp only
      omega
  | @pointer s p e ls le flags above nonempty before target ih =>
    subst hp
    have hend := target.lt
    have hpass : unpackPass m eom src dstsiz st = _ := pass_pointer hr.le (by omega) flags
    rw [if_neg (by omega), if_neg (by omega)] at hpass
    refine (returns_next_iff (step_of_next hpass)).mpr ?_
    have hlen : some (st.len.getD (st.srcp + 1 - src + 1)) = some (st.len.getD (st.srcp + 2 - src)) := by
      cases hs : st.len with
      | none =>
        have := hsrc hs
        simp only [Option.getD_none]
        congr 1
        omega
      | some n => rfl
    rw [hlen]
    refine ih rfl (by omega) hroom ?_ fun h => absurd h (Option.some_ne_none _)
    dsimp only
    omega

end Names

/-- Unpacking a name that stands in a message. -/
theorem unpack_of_nameAt {m : Memory} {lo eom p e dstsiz : ℕ} {ls : List (List Byte)} (h : NameAt m.byte lo p p ls e)
    (hr : Readable m eom) (he : e ≤ eom) (hroom : (wire ls).length ≤ dstsiz) :
    NsNameUnpack m eom p dstsiz (.ok (some (e - p, wire ls))) := by
  have hlt := h.lt
  rw [NsNameUnpack, if_neg (by omega)]
  have hstart : (0 : ℕ) + (e - p) + p ≤ eom := by omega
  exact h.unpack hr rfl he (by simpa using hroom) hstart fun _ => le_rfl

/-! ### Searching -/

section Finding

variable {src msg : Memory} {domain lo hi dn cp sp s p e n : ℕ} {cpp : List ℕ} {l : List Byte} {ls ds : List (List Byte)}

theorem findStep_next {st st' : Find} (h : findPass src msg domain st = .ok (.inl st')) :
    findStep src msg domain st = .inl st' := by
  rw [findStep, h]

theorem findStep_end {st : Find} {r : Option ℕ} (h : findPass src msg domain st = .ok (.inr r)) :
    findStep src msg domain st = .inr (.ok r) := by
  rw [findStep, h]

theorem findNext_eq (h : sp < msg.limit) : findNext msg sp cpp = .ok (.inl (.scan (sp + (msg.byte sp).toNat + 1) cpp)) := by
  rw [findNext, read_eq h]
  rfl

theorem sameText_eq (hd : dn + n ≤ src.limit) (hc : cp + n ≤ msg.limit) :
    sameText src msg dn cp n = .ok (decide ((bytes src.byte dn n).map mklower = (bytes msg.byte cp n).map mklower)) := by
  induction n generalizing dn cp with
  | zero => rfl
  | succ n ih =>
    rw [sameText, read_eq (by omega), ok_bind, read_eq (by omega), ok_bind, ih (by omega) (by omega), bytes_succ, bytes_succ,
      List.map_cons, List.map_cons]
    by_cases hne : mklower (src.byte dn) = mklower (msg.byte cp)
    · simp [hne]
    · rw [if_pos hne]
      simp [hne]

/-- The outcomes of a walk along a name of the message: it goes on behind the label at `sp`, it fails, or it has found. -/
def Walked (src msg : Memory) (domain : ℕ) (st : Find) (sp : ℕ) (cpp : List ℕ) (found : Prop) : Prop :=
  Leads (findStep src msg domain) st (.scan (sp + (msg.byte sp).toNat + 1) cpp) ∨
    Returns (findStep src msg domain) st (.ok none) ∨ Returns (findStep src msg domain) st (.ok (some sp)) ∧ found

theorem Walked.next {found : Prop} {st st' : Find} (h : findPass src msg domain st = .ok (.inl st'))
    (hw : Walked src msg domain st' sp cpp found) : Walked src msg domain st sp cpp found := by
  have hstep := findStep_next h
  rcases hw with hw | hw | ⟨hw, hfound⟩
  · exact .inl (.next hstep hw)
  · exact .inr (.inl ((returns_next_iff hstep).mpr hw))
  · exact .inr (.inr ⟨(returns_next_iff hstep).mpr hw, hfound⟩)

theorem Walked.imp {found found' : Prop} {st : Find} (hw : Walked src msg domain st sp cpp found) (h : found → found') :
    Walked src msg domain st sp cpp found' :=
  hw.imp_right (Or.imp_right (And.imp_right h))

theorem Walked.skip {found : Prop} {st : Find} (hsp : sp < msg.limit)
    (h : findPass src msg domain st = findNext msg sp cpp) : Walked src msg domain st sp cpp found :=
  .inl (.next (findStep_next (h.trans (findNext_eq hsp))) (.refl _))

theorem holds_wire_cons (h : Holds src.byte dn (wire (l :: ls))) :
    Holds src.byte dn l ∧ Holds src.byte (dn + l.length) (wire ls) := by
  rwa [wire_cons, holds_append] at h

theorem fold_cons (l : List Byte) (ls : List (List Byte)) : fold (l :: ls) = foldLabel l :: fold ls := rfl

/-- The end of a name is a zero byte, and a label is none. -/
theorem wire_zero_iff (hds : ∀ l ∈ ds, IsLabel l) (h : Holds src.byte dn (wire ds)) : src.byte dn = 0 ↔ ds = [] := by
  cases ds with
  | nil => exact iff_of_true (holds_cons.mp h).1 rfl
  | cons d ds => exact iff_of_false ((hds d (by simp)).lengthOf (holds_wire_cons h).1).1 (List.cons_ne_nil d ds)

theorem NameAt.eq_nil {f : ℕ → Byte} (h : NameAt f lo s p ls e) (hp : f p = 0) : ls = [] := by
  cases h with
  | root => rfl
  | label _ isLabel holds => exact absurd hp (isLabel.lengthOf holds).1
  | pointer _ flags =>
    rw [hp] at flags
    exact absurd flags (by decide)

/-- Two labels of the same length byte with the same text, up to case. -/
theorem foldLabel_eq {c : Byte} {t u : List Byte} (hc : c &&& NS_CMPRSFLGS = 0) (h : t.map mklower = u.map mklower) :
    foldLabel (c :: t) = foldLabel (c :: u) := by
  have hne : ¬ (some c : Option Byte) = some DNS_LABELTYPE_BITSTRING := by
    rintro ⟨⟩
    exact absurd hc (by decide)
  rw [foldLabel, foldLabel, List.head?_cons, List.head?_cons, if_neg hne, if_neg hne, List.map_cons, List.map_cons, h]

/-- A label that is not a bit string is a length and that many bytes. -/
theorem IsLabel.ordinary_eq {f : ℕ → Byte} (h : IsLabel l) (hp : Holds f p l) (hc : f p &&& NS_CMPRSFLGS = 0) :
    l = f p :: bytes f (p + 1) (f p).toNat ∧ l.length = (f p).toNat + 1 := by
  have hlen := (h.lengthOf hp).2.2
  rw [lengthOf_ordinary hc, Option.some.injEq] at hlen
  have hpos := h.length_pos
  have hl : l.length = (f p).toNat + 1 := by omega
  refine ⟨?_, hl⟩
  have hbytes : bytes f p l.length = l := hp
  rw [hl, bytes_succ] at hbytes
  exact hbytes.symm

theorem walk_label (htype : msg.byte cp &&& NS_CMPRSFLGS = 0) (hcp : cp < msg.limit) :
    labellen msg cp = .ok (some (msg.byte cp).toNat) := by
  rw [labellen, read_eq hcp, ok_bind, if_neg (by rw [htype]; decide), if_neg (by rw [htype]; decide)]
  rfl

theorem walk_differs (hzero : msg.byte cp ≠ 0) (htype : msg.byte cp &&& NS_CMPRSFLGS = 0)
    (hne : ¬ src.byte dn = msg.byte cp) (hcp : cp < msg.limit) (hdn : dn < src.limit) :
    findPass src msg domain (.walk dn cp sp cpp) = findNext msg sp cpp := by
  have hbytes : some (msg.byte cp).toNat ≠ some (src.byte dn).toNat := by
    intro h
    exact hne (BitVec.eq_of_toNat_eq (Option.some.inj h).symm)
  rw [findPass, read_eq hcp, ok_bind, if_neg hzero, if_pos htype, Nat.add_sub_cancel, walk_label htype hcp, ok_bind,
    read_eq hdn, ok_bind, if_pos hbytes]

theorem walk_same (hzero : msg.byte cp ≠ 0) (htype : msg.byte cp &&& NS_CMPRSFLGS = 0) (heq : src.byte dn = msg.byte cp)
    (hcp : cp + 1 + (msg.byte cp).toNat < msg.limit) (hdn : dn + 1 + (msg.byte cp).toNat < src.limit) :
    findPass src msg domain (.walk dn cp sp cpp) =
      if (bytes src.byte (dn + 1) (msg.byte cp).toNat).map mklower =
          (bytes msg.byte (cp + 1) (msg.byte cp).toNat).map mklower then
        if src.byte (dn + 1 + (msg.byte cp).toNat) ≠ 0 then
          .ok (.inl (.walk (dn + 1 + (msg.byte cp).toNat) (cp + 1 + (msg.byte cp).toNat) sp cpp))
        else if msg.byte (cp + 1 + (msg.byte cp).toNat) = 0 then .ok (.inr (some sp))
        else findNext msg sp cpp
      else findNext msg sp cpp := by
  rw [findPass, read_eq (by omega), ok_bind, if_neg hzero, if_pos htype, Nat.add_sub_cancel,
    walk_label htype (by omega), ok_bind, read_eq (by omega), ok_bind, heq, if_neg (not_not.mpr rfl),
    sameText_eq (by omega) (by omega), ok_bind]
  by_cases htext : (bytes src.byte (dn + 1) (msg.byte cp).toNat).map mklower =
      (bytes msg.byte (cp + 1) (msg.byte cp).toNat).map mklower
  · rw [if_pos (decide_eq_true htext), if_pos htext]
    dsimp only
    rw [read_eq hdn, ok_bind]
    by_cases hend : src.byte (dn + 1 + (msg.byte cp).toNat) ≠ 0
    · rw [if_pos hend, if_pos hend]
      rfl
    · rw [if_neg hend, if_neg hend, read_eq hcp, ok_bind]
      rfl
  · rw [if_neg (by simpa using htext), if_neg htext]

/-- The walk of the source along a name of the message, from one of its labels on. -/
theorem walk_spec (h : NameAt msg.byte lo s cp ls e) (he : e ≤ msg.limit) (hsp : sp < msg.limit) (hne : ds ≠ [])
    (hds : ∀ l ∈ ds, IsLabel l) (hsrc : Holds src.byte dn (wire ds)) (hlim : dn + (wire ds).length ≤ src.limit) :
    Walked src msg domain (.walk dn cp sp cpp) sp cpp (fold ls = fold ds) := by
  induction h generalizing dn ds with
  | root le zero =>
    refine .skip hsp ?_
    rw [findPass, read_eq he, ok_bind, zero]
    rfl
  | @label s cp e l ls le isLabel holds more ih =>
    obtain ⟨d, ds, rfl⟩ := List.exists_cons_of_ne_nil hne
    obtain ⟨hd, hds⟩ := List.forall_mem_cons.mp hds
    obtain ⟨hdn, hrest⟩ := holds_wire_cons hsrc
    rw [length_wire_cons] at hlim
    have hlt := more.lt
    have hwire := length_wire_pos ds
    obtain ⟨hzero, htype, -⟩ := isLabel.lengthOf holds
    have hlong := isLabel.length_pos
    rcases htype with htype | htype
    · obtain ⟨hl, hlength⟩ := isLabel.ordinary_eq holds htype
      by_cases hsame : src.byte dn = msg.byte cp
      · have htype' : src.byte dn &&& NS_CMPRSFLGS = 0 := by rw [hsame, htype]
        obtain ⟨hd', hdlength⟩ := hd.ordinary_eq hdn htype'
        rw [hsame] at hd' hdlength
        have hpass : findPass src msg domain (.walk dn cp sp cpp) = _ := walk_same hzero htype hsame (by omega) (by omega)
        by_cases htext : (bytes src.byte (dn + 1) (msg.byte cp).toNat).map mklower =
            (bytes msg.byte (cp + 1) (msg.byte cp).toNat).map mklower
        · have hfold : foldLabel l = foldLabel d := by
            rw [hl, hd']
            exact foldLabel_eq htype htext.symm
          have hdn' : dn + 1 + (msg.byte cp).toNat = dn + d.length := by omega
          have hcp' : cp + 1 + (msg.byte cp).toNat = cp + l.length := by omega
          rw [if_pos htext, hdn', hcp'] at hpass
          by_cases hend : src.byte (dn + d.length) = 0
          · rw [if_neg (not_not.mpr hend)] at hpass
            by_cases hend' : msg.byte (cp + l.length) = 0
            · rw [if_pos hend'] at hpass
              refine .inr (.inr ⟨.done (findStep_end hpass), ?_⟩)
              rw [fold_cons, fold_cons, hfold, (wire_zero_iff hds hrest).mp hend, more.eq_nil hend']
            · rw [if_neg hend'] at hpass
              exact .skip hsp hpass
          · rw [if_pos hend] at hpass
            have hnonempty : ds ≠ [] := fun h => hend ((wire_zero_iff hds hrest).mpr h)
            refine .next hpass ((ih he hnonempty hds hrest (by omega)).imp fun h => ?_)
            rw [fold_cons, fold_cons, hfold, h]
        · rw [if_neg htext] at hpass
          exact .skip hsp hpass
      · exact .skip hsp (walk_differs hzero htype hsame (by omega) (by omega))
    · refine .inr (.inl (.done (findStep_end ?_)))
      rw [findPass, read_eq (by omega), ok_bind, if_neg hzero, if_neg (by rw [htype]; decide),
        if_neg (by rw [htype]; decide)]
      rfl
  | @pointer s cp e ls le flags above nonempty before target ih =>
    have hlt := target.lt
    refine .next ?_ (ih (by omega) hne hds hsrc hlim)
    have hzero : ¬ msg.byte cp = 0 := by
      intro h0
      rw [h0] at flags
      exact absurd flags (by decide)
    rw [findPass, read_eq (by omega), ok_bind, if_neg hzero, if_neg (by rw [flags]; decide), if_pos flags,
      read_eq (by omega), ok_bind]
    rfl

/-- What the search gives: the place of a name that is the searched one up to case. -/
def Finds (src msg : Memory) (domain lo hi : ℕ) (ds : List (List Byte)) (st : Find) : Prop :=
  ∃ r, Returns (findStep src msg domain) st (.ok r) ∧ ∀ t, r = some t →
    lo ≤ t ∧ t < 0x4000 ∧ ∃ ls e, NameAt msg.byte lo t t ls e ∧ e ≤ hi ∧ fold ls = fold ds

theorem Finds.next {st st' : Find} (h : findPass src msg domain st = .ok (.inl st'))
    (hf : Finds src msg domain lo hi ds st') : Finds src msg domain lo hi ds st := by
  obtain ⟨r, hr, hfound⟩ := hf
  exact ⟨r, (returns_next_iff (findStep_next h)).mpr hr, hfound⟩

theorem scan_spec (h : NameAt msg.byte lo s sp ls e) (hlo : lo ≤ s) (he : e ≤ hi) (hhi : hi ≤ msg.limit) (hne : ds ≠ [])
    (hds : ∀ l ∈ ds, IsLabel l) (hsrc : Holds src.byte domain (wire ds)) (hlim : domain + (wire ds).length ≤ src.limit)
    (hcpp : Finds src msg domain lo hi ds (.entry cpp)) : Finds src msg domain lo hi ds (.scan sp cpp) := by
  have stop : ∀ {sp : ℕ}, sp < msg.limit → ¬ (msg.byte sp ≠ 0 ∧ msg.byte sp &&& NS_CMPRSFLGS = 0 ∧ sp < 0x4000) →
      Finds src msg domain lo hi ds (.scan sp cpp) := by
    intro sp hsp hstop
    refine .next ?_ hcpp
    rw [findPass, read_eq hsp, ok_bind, if_neg hstop]
    rfl
  induction h with
  | root le zero => exact stop (by omega) fun h => h.1 zero
  | @label s sp e l ls le isLabel holds more ih =>
    have hlt := more.lt
    have hlong := isLabel.length_pos
    have hsp : sp < msg.limit := by omega
    by_cases hgo : msg.byte sp ≠ 0 ∧ msg.byte sp &&& NS_CMPRSFLGS = 0 ∧ sp < 0x4000
    · have hname : NameAt msg.byte lo sp sp (l :: ls) e := (NameAt.label le isLabel holds more).mono le le_rfl
      have hpass : findPass src msg domain (.scan sp cpp) = .ok (.inl (.walk domain sp sp cpp)) := by
        rw [findPass, read_eq hsp, ok_bind, if_pos hgo]
        rfl
      refine .next hpass ?_
      have hwalked : Walked src msg domain (.walk domain sp sp cpp) sp cpp (fold (l :: ls) = fold ds) :=
        walk_spec hname (he.trans hhi) hsp hne hds hsrc hlim
      rcases hwalked with hw | hw | ⟨hw, hfold⟩
      · obtain ⟨r, hr, hfound⟩ := ih hlo he
        have hsp : sp + (msg.byte sp).toNat + 1 = sp + l.length := by
          rw [(isLabel.ordinary_eq holds hgo.2.1).2]
          omega
        rw [hsp] at hw
        exact ⟨r, hw.returns_iff.mpr hr, hfound⟩
      · exact ⟨none, hw, by rintro t ⟨⟩⟩
      · refine ⟨some sp, hw, ?_⟩
        rintro t ⟨⟩
        exact ⟨hlo.trans le, hgo.2.2, _, e, hname, he, hfold⟩
    · exact stop hsp hgo
  | pointer le flags =>
    refine stop (by omega) fun h => ?_
    rw [flags] at h
    exact absurd h.2.1 (by decide)

/-- A name that begins at `p` and ends before `hi`. -/
def Named (f : ℕ → Byte) (lo hi p : ℕ) : Prop := lo ≤ p ∧ ∃ ls e, NameAt f lo p p ls e ∧ e ≤ hi

theorem entries_spec (hcpp : ∀ p ∈ cpp, Named msg.byte lo hi p) (hhi : hi ≤ msg.limit) (hne : ds ≠ [])
    (hds : ∀ l ∈ ds, IsLabel l) (hsrc : Holds src.byte domain (wire ds)) (hlim : domain + (wire ds).length ≤ src.limit) :
    Finds src msg domain lo hi ds (.entry cpp) := by
  induction cpp with
  | nil => exact ⟨none, .done (findStep_end rfl), by rintro t ⟨⟩⟩
  | cons p cpp ih =>
    obtain ⟨⟨hlo, ls, e, hname, he⟩, hcpp⟩ := List.forall_mem_cons.mp hcpp
    exact .next rfl (scan_spec hname hlo he hhi hne hds hsrc hlim (ih hcpp))

end Finding

/-! ### Packing a name -/

section Packing

variable {a : PackArgs} {lo : ℕ} {s : Pack} {l : List Byte} {ls ds rs : List (List Byte)} {r : Packed}

/-- The source holds the encoding of a name that is not too long. -/
structure IsSource (src : Memory) (ls : List (List Byte)) : Prop where
  labels : ∀ l ∈ ls, IsLabel l
  holds : Holds src.byte 0 (wire ls)
  short : (wire ls).length ≤ MAXCDNAME
  readable : (wire ls).length ≤ src.limit

/-- The message and its table: names begin where the table points to. -/
structure IsTable (msg : List Byte) (lo : ℕ) (ptrs : List ℕ) : Prop where
  above : lo ≤ msg.length
  named : ∀ p ∈ ptrs, Named (written msg).byte lo msg.length p

/-- What `ns_name_pack` does to a message. -/
structure PackOk (a : PackArgs) (lo : ℕ) (ls : List (List Byte)) (r : Packed) : Prop where
  failed : r.bytes = none → r.ptrs = a.dnptrs.getD [] ∧ a.dstsiz ≤ (wire ls).length
  packed : ∀ out, r.bytes = some out → (out.length : ℤ) ≤ a.dstsiz ∧ out.length ≤ (wire ls).length ∧
    (r.ptrs = a.dnptrs.getD [] ∨ r.ptrs = a.dnptrs.getD [] ++ [a.msg.length]) ∧
    ∃ ls', fold ls' = fold ls ∧
      NameAt (written (a.msg ++ out)).byte lo a.msg.length a.msg.length ls' (a.msg.length + out.length)

theorem packStep_next {t t' : PackState} (h : a.packPass t = .ok (.inl t')) : a.packStep t = .inl t' := by
  rw [PackArgs.packStep, h]

theorem packStep_end {t : PackState} (h : a.packPass t = .ok (.inr r)) : a.packStep t = .inr (.ok r) := by
  rw [PackArgs.packStep, h]

theorem written_byte_append {l l' : List Byte} {i : ℕ} (h : i < l.length) :
    (written (l ++ l')).byte i = (written l).byte i :=
  List.getD_append _ _ _ _ h

theorem holds_written (l l' l'' : List Byte) : Holds (written (l ++ (l' ++ l''))).byte l.length l' := by
  induction l' generalizing l with
  | nil => exact holds_nil
  | cons b l' ih =>
    refine holds_cons.mpr ⟨by simp [written], ?_⟩
    have h := ih (l ++ [b])
    rwa [List.length_append, List.append_assoc] at h

theorem fold_append (ls ls' : List (List Byte)) : fold (ls ++ ls') = fold ls ++ fold ls' := List.map_append

theorem IsSource.isReadable {src : Memory} (h : IsSource src ls) : Readable src (wire ls).length := by
  have hlast : src.byte ((wire ls).length - 1) = 0 := by
    have hroot := (holds_append.mp h.holds).2
    rw [wire, List.length_append]
    simpa using (holds_cons.mp hroot).1
  rcases h.readable.lt_or_eq with hlt | heq
  · exact .inl hlt
  · exact .inr ⟨heq, by rw [hlast]; decide⟩

/-- The source behind its first labels. -/
structure Behind (src : Memory) (ls ds rs : List (List Byte)) : Prop where
  source : IsSource src ls
  split : ls = ds ++ rs

theorem Behind.holds {src : Memory} (h : Behind src ls ds rs) : Holds src.byte ds.flatten.length (wire rs) := by
  have hholds := h.source.holds
  rw [h.split, wire, List.flatten_append, List.append_assoc, holds_append] at hholds
  simpa [wire] using hholds.2

theorem Behind.length {src : Memory} (h : Behind src ls ds rs) :
    ds.flatten.length + (wire rs).length = (wire ls).length := by
  rw [h.split, wire, wire]
  simp

theorem Behind.labels {src : Memory} (h : Behind src ls ds rs) : ∀ l ∈ rs, IsLabel l := fun l hl =>
  h.source.labels l (by rw [h.split]; exact List.mem_append_right ds hl)

theorem Behind.labels_before {src : Memory} (h : Behind src ls ds rs) : ∀ l ∈ ds, IsLabel l := fun l hl =>
  h.source.labels l (by rw [h.split]; exact List.mem_append_left rs hl)

theorem Behind.next {src : Memory} (h : Behind src ls ds (l :: rs)) : Behind src ls (ds ++ [l]) rs :=
  ⟨h.source, by rw [h.split, List.append_assoc]; rfl⟩

theorem flatten_snoc (ds : List (List Byte)) (l : List Byte) : (ds ++ [l]).flatten = ds.flatten ++ l := by simp

/-- What the source reads at a label. -/
theorem Behind.label {src : Memory} (h : Behind src ls ds (l :: rs)) :
    ∃ n, src.read ds.flatten.length = .ok n ∧ n ≠ 0 ∧ ¬ n &&& NS_CMPRSFLGS = NS_CMPRSFLGS ∧
      labellen src ds.flatten.length = .ok (some (l.length - 1)) ∧ 2 ≤ l.length ∧
      src.readBytes ds.flatten.length l.length = .ok l := by
  have hlen := h.length
  rw [length_wire_cons] at hlen
  have hread := h.source.readable
  have hwire := length_wire_pos rs
  have hholds := (holds_wire_cons h.holds).1
  have hlabel := h.labels l (by simp)
  obtain ⟨hzero, htype, hlength⟩ := hlabel.lengthOf hholds
  refine ⟨_, read_eq (by omega), hzero, ?_, ?_, hlabel.length_pos, ?_⟩
  · rcases htype with htype | htype
    all_goals
      rw [htype]
      decide
  · rw [labellen_eq h.source.isReadable (by omega), hlength]
  · rw [readBytes_eq (by omega), hholds]

/-- What the source reads at the end of the name. -/
theorem Behind.root {src : Memory} (h : Behind src ls ds []) :
    src.read ds.flatten.length = .ok 0 ∧ labellen src ds.flatten.length = .ok (some 0) ∧
      src.readBytes ds.flatten.length 1 = .ok [0] := by
  have hlen := h.length
  have hread := h.source.readable
  have hzero := (holds_cons.mp h.holds).1
  have hwire : (wire []).length = 1 := rfl
  have hlt : ds.flatten.length < src.limit := by omega
  have hread0 : src.read ds.flatten.length = .ok 0 := by rw [read_eq hlt, hzero]
  refine ⟨hread0, ?_, ?_⟩
  · rw [labellen, hread0]
    rfl
  · rw [readBytes_eq hlt, bytes_succ, hzero]
    rfl

/-- The loop that checks the name. -/
theorem legal_leads (h : Behind a.src ls ds rs) :
    Leads a.packStep (.legal ds.flatten.length ds.flatten.length) (.pass ⟨0, [], a.dnptrs.getD [], true⟩) := by
  have hshort := h.source.short
  have hlen := h.length
  induction rs generalizing ds with
  | nil =>
    obtain ⟨hread, hlabellen, -⟩ := h.root
    have hwire : (wire []).length = 1 := rfl
    refine .next (packStep_next ?_) (.refl _)
    rw [PackArgs.packPass, hread, ok_bind, if_neg (by decide), hlabellen, ok_bind]
    exact if_neg (by omega)
  | cons l rs ih =>
    obtain ⟨n, hread, hzero, hflags, hlabellen, hpos, -⟩ := h.label
    have hnext := ih h.next h.next.length
    rw [flatten_snoc, List.length_append] at hnext
    refine .next (packStep_next ?_) hnext
    have hsum : l.length - 1 + 1 = l.length := by omega
    have hlen' := h.next.length
    have hwire := length_wire_pos rs
    rw [flatten_snoc, List.length_append] at hlen'
    rw [PackArgs.packPass, hread, ok_bind, if_neg hflags, hlabellen, ok_bind]
    dsimp only
    rw [hsum, if_neg (by omega), if_pos hzero]
    rfl

/-- What holds of the variables of the second loop. -/
structure PassInv (a : PackArgs) (ds : List (List Byte)) (s : Pack) : Prop where
  srcp : s.srcp = ds.flatten.length
  out : s.out = ds.flatten
  ptrs : s.ptrs = a.dnptrs.getD [] ++ [a.msg.length] ∧ s.first = false ∨
    (s.ptrs = a.dnptrs.getD [] ∧ s.first = true) ∧ (a.dnptrs = none ∨ ds = [] ∨
      ¬ ((a.lastdnptr.any fun k => (a.dnptrs.getD []).length + 2 < k) ∧ a.msg.length < 0x4000))

theorem PassInv.start : PassInv a [] ⟨0, [], a.dnptrs.getD [], true⟩ := ⟨rfl, rfl, .inr ⟨⟨rfl, rfl⟩, .inr (.inl rfl)⟩⟩

/-- The variables behind a label that has been copied. -/
def Pack.copied (s : Pack) (l : List Byte) : Pack := { s with srcp := s.srcp + l.length, out := s.out ++ l }

/-- Saving comes before the first label, or it never comes. -/
theorem PassInv.save (h : PassInv a ds s) (hd : a.dnptrs ≠ none) :
    (a.save s).srcp = s.srcp ∧ (a.save s).out = s.out ∧ ∀ l, PassInv a (ds ++ [l]) ((a.save s).copied l) := by
  obtain ⟨hsrcp, hout, hptrs⟩ := h
  have copied : ∀ {s' : Pack}, s'.srcp = s.srcp → s'.out = s.out → (s'.ptrs = a.dnptrs.getD [] ++ [a.msg.length] ∧
      s'.first = false ∨ (s'.ptrs = a.dnptrs.getD [] ∧ s'.first = true) ∧
        ¬ ((a.lastdnptr.any fun k => (a.dnptrs.getD []).length + 2 < k) ∧ a.msg.length < 0x4000)) →
      s'.srcp = s.srcp ∧ s'.out = s.out ∧ ∀ l, PassInv a (ds ++ [l]) (s'.copied l) := by
    intro s' hsrcp' hout' hptrs'
    refine ⟨hsrcp', hout', fun l => ⟨?_, ?_, hptrs'.imp_right fun h => ⟨h.1, .inr (.inr h.2)⟩⟩⟩
    · rw [flatten_snoc, List.length_append, ← hsrcp, ← hsrcp']
      rfl
    · rw [flatten_snoc, ← hout, ← hout']
      rfl
  rw [PackArgs.save]
  split_ifs with hsave
  · obtain ⟨hroom, hlow, hfirst⟩ := hsave
    refine copied rfl rfl (.inl ?_)
    rcases hptrs with ⟨-, hsaved⟩ | ⟨⟨hptrs, -⟩, hnone | hds | hfull⟩
    · exact absurd (hfirst.symm.trans hsaved) (by decide)
    · exact absurd hnone hd
    · rw [hds] at hout
      simp [hptrs, hout]
    · rw [hptrs] at hroom
      exact absurd ⟨hroom, by omega⟩ hfull
  · refine copied rfl rfl ?_
    rcases hptrs with hptrs | ⟨hptrs, hnone | hds | hfull⟩
    · exact .inl hptrs
    · exact absurd hnone hd
    · refine .inr ⟨hptrs, fun hfull => hsave ?_⟩
      rw [hptrs.1, hout, hds]
      exact ⟨hfull.1, hfull.2, hptrs.2⟩
    · exact .inr ⟨hptrs, hfull⟩

/-- Without a table nothing is saved. -/
theorem PassInv.copied (h : PassInv a ds s) (hd : a.dnptrs = none) (l : List Byte) : PassInv a (ds ++ [l]) (s.copied l) := by
  obtain ⟨hsrcp, hout, hptrs⟩ := h
  refine ⟨?_, ?_, hptrs.imp_right fun h => ⟨h.1, .inl hd⟩⟩
  · rw [flatten_snoc, List.length_append, ← hsrcp]
    rfl
  · rw [flatten_snoc, ← hout]
    rfl

theorem PassInv.ptrs_or (h : PassInv a ds s) :
    s.ptrs = a.dnptrs.getD [] ∨ s.ptrs = a.dnptrs.getD [] ++ [a.msg.length] := by
  rcases h.ptrs with h | h
  · exact .inr h.1
  · exact .inl h.1.1

/-- The outcome of the second loop. -/
def Packs (a : PackArgs) (lo : ℕ) (ls : List (List Byte)) (t : PackState) : Prop :=
  ∃ r, Returns a.packStep t (.ok r) ∧ PackOk a lo ls r

theorem Packs.next {t t' : PackState} (h : a.packPass t = .ok (.inl t')) (hp : Packs a lo ls t') : Packs a lo ls t := by
  obtain ⟨r, hr, hok⟩ := hp
  exact ⟨r, (returns_next_iff (packStep_next h)).mpr hr, hok⟩

theorem Packs.cleanup {t : PackState} (h : a.packPass t = a.cleanup) (hroom : a.dstsiz ≤ (wire ls).length) :
    Packs a lo ls t :=
  ⟨_, .done (packStep_end h), fun _ => ⟨rfl, hroom⟩, by rintro out ⟨⟩⟩

theorem copyLabel_label (h : Behind a.src ls ds (l :: rs)) (hs : s.srcp = ds.flatten.length) :
    a.copyLabel s = if a.dstsiz ≤ s.out.length + l.length then a.cleanup else .ok (.inl (.pass (s.copied l))) := by
  obtain ⟨n, hread, hzero, hflags, hlabellen, hpos, hbytes⟩ := h.label
  have hsum : l.length - 1 + 1 = l.length := by omega
  have hroom : (s.out.length : ℤ) + 1 + (l.length - 1 : ℕ) = s.out.length + l.length := by omega
  have hnonzero : l.length - 1 ≠ 0 := by omega
  rw [PackArgs.copyLabel, hs, hread, ok_bind, if_neg hflags, hlabellen, ok_bind]
  dsimp only
  rw [hroom, hsum, hbytes, ok_bind, if_pos hnonzero, ← hs]
  rfl

theorem copyLabel_root (h : Behind a.src ls ds []) (hs : s.srcp = ds.flatten.length) :
    a.copyLabel s = if a.dstsiz ≤ s.out.length + 1 then a.cleanup else .ok (.inr ⟨some (s.out ++ [0]), s.ptrs⟩) := by
  obtain ⟨hread, hlabellen, hbytes⟩ := h.root
  rw [PackArgs.copyLabel, hs, hread, ok_bind, if_neg (by decide), hlabellen, ok_bind]
  dsimp only
  rw [Nat.cast_zero, add_zero]
  by_cases hroom : a.dstsiz ≤ s.out.length + 1
  · rw [if_pos hroom, if_pos hroom]
  · have hend : ¬ a.dstsiz < (s.out ++ [0]).length := by
      rw [List.length_append, List.length_singleton]
      omega
    rw [if_neg hroom, if_neg hroom, hbytes, ok_bind, if_neg (not_not.mpr rfl), if_neg hend]
    rfl

/-- The end of the name. -/
theorem packs_root (h : Behind a.src ls ds []) (hi : PassInv a ds s) : Packs a lo ls (.pass s) := by
  have hread := h.root.1
  have hpass : a.packPass (.pass s) = a.copyLabel s := by
    rw [PackArgs.packPass, hi.srcp, hread, ok_bind, if_neg (by decide)]
  rw [copyLabel_root h hi.srcp] at hpass
  have hlen := h.length
  have hwire : (wire []).length = 1 := rfl
  split_ifs at hpass with hroom
  · refine .cleanup hpass ?_
    rw [hi.out] at hroom
    omega
  · refine ⟨_, .done (packStep_end hpass), by rintro ⟨⟩, ?_⟩
    rintro out ⟨⟩
    have hds : s.out ++ [0] = wire ls := by rw [hi.out, wire, h.split, List.append_nil]
    rw [hds]
    refine ⟨?_, le_rfl, hi.ptrs_or, ls, rfl, nameAt_wire h.source.labels le_rfl ?_⟩
    · rw [← hds, List.length_append, List.length_singleton]
      omega
    · have hholds := holds_written a.msg (wire ls) []
      rwa [List.append_nil] at hholds

theorem pointer_high : ∀ q : Fin 64, (BitVec.ofNat 8 q ||| NS_CMPRSFLGS) &&& NS_CMPRSFLGS = NS_CMPRSFLGS ∧
    ((BitVec.ofNat 8 q ||| NS_CMPRSFLGS).setWidth 32 &&& 0x3f#32) = BitVec.ofNat 32 q := by
  decide

/-- A pointer is read as it has been written. -/
theorem pointerTo_spec {t p : ℕ} {f : ℕ → Byte} (h : t < 0x4000) (hp : Holds f p (PackArgs.pointerTo t)) :
    f p &&& NS_CMPRSFLGS = NS_CMPRSFLGS ∧ offset (f p) (f (p + 1)) = t := by
  obtain ⟨h0, h1⟩ := holds_cons.mp hp
  have hq : t >>> 8 < 64 := by
    rw [Nat.shiftRight_eq_div_pow]
    omega
  obtain ⟨hflags, hhigh⟩ := pointer_high ⟨t >>> 8, hq⟩
  rw [h0, (holds_cons.mp h1).1]
  refine ⟨hflags, ?_⟩
  have hlow : ((BitVec.ofNat 8 (t % 256)).setWidth 32 &&& 0xff#32) = BitVec.ofNat 32 (t % 256) := by
    apply BitVec.eq_of_toNat_eq
    have hmask : 0xff % 2 ^ 32 = 2 ^ 8 - 1 := rfl
    have hlt : t % 256 < 2 ^ 8 := Nat.mod_lt _ (by decide)
    have hlt' : t % 256 < 2 ^ 32 := by omega
    rw [BitVec.toNat_and, BitVec.toNat_setWidth, BitVec.toNat_ofNat, BitVec.toNat_ofNat, Nat.mod_eq_of_lt hlt,
      Nat.mod_eq_of_lt hlt', hmask, Nat.and_two_pow_sub_one_eq_mod, Nat.mod_eq_of_lt hlt, BitVec.toNat_ofNat,
      Nat.mod_eq_of_lt hlt']
  have hshift : (BitVec.ofNat 32 (t >>> 8) <<< 8).toNat = t >>> 8 <<< 8 := by
    rw [BitVec.toNat_shiftLeft, BitVec.toNat_ofNat, Nat.mod_eq_of_lt (by omega), Nat.shiftLeft_eq]
    omega
  have hbyte : (BitVec.ofNat 32 (t % 256)).toNat = t % 256 := by
    rw [BitVec.toNat_ofNat]
    omega
  rw [offset, hhigh, hlow, BitVec.toNat_or, hshift, hbyte, ← Nat.shiftLeft_add_eq_or_of_lt (by omega),
    Nat.shiftLeft_eq, Nat.shiftRight_eq_div_pow]
  omega

/-- A pointer to a name behind the labels that have been copied. -/
theorem packs_found (h : Behind a.src ls ds rs) (hi : PassInv a ds s)
    {t e : ℕ} {ls' : List (List Byte)} (hlo : lo ≤ t) (ht : t < 0x4000)
    (hname : NameAt (written (a.msg ++ s.out)).byte lo t t ls' e) (he : e ≤ a.msg.length) (hne : rs ≠ [])
    (hfold : fold ls' = fold rs) (hroom : s.out.length + 1 < a.dstsiz) :
    PackOk a lo ls ⟨some (s.out ++ PackArgs.pointerTo t), s.ptrs⟩ := by
  refine ⟨by rintro ⟨⟩, ?_⟩
  rintro out ⟨⟩
  have hlength : (s.out ++ PackArgs.pointerTo t).length = s.out.length + 2 := by
    rw [List.length_append]
    rfl
  have hshort : (s.out ++ PackArgs.pointerTo t).length ≤ (wire ls).length := by
    obtain ⟨l, rs, rfl⟩ := List.exists_cons_of_ne_nil hne
    have hlen := h.length
    have hlabel := (h.labels l (by simp)).length_pos
    rw [length_wire_cons] at hlen
    rw [hlength, hi.out]
    have := length_wire_pos rs
    omega
  refine ⟨by rw [hlength]; push_cast; omega, hshort, hi.ptrs_or, ds ++ ls', ?_, ?_⟩
  · rw [fold_append, hfold, ← fold_append, ← h.split]
  have hpointer := holds_written (a.msg ++ s.out) (PackArgs.pointerTo t) []
  rw [List.append_nil, List.append_assoc, List.length_append] at hpointer
  obtain ⟨hflags, hoffset⟩ := pointerTo_spec ht hpointer
  have hlabels := holds_written a.msg s.out (PackArgs.pointerTo t)
  have hname' : NameAt (written (a.msg ++ (s.out ++ PackArgs.pointerTo t))).byte lo t t ls' e := by
    refine hname.congr hlo fun i _ hi => ?_
    rw [← List.append_assoc]
    refine (written_byte_append ?_).symm
    rw [List.length_append]
    omega
  have hnonempty : ls' ≠ [] := by
    rintro rfl
    exact hne (List.map_eq_nil_iff.mp hfold.symm)
  have hend : NameAt (written (a.msg ++ (s.out ++ PackArgs.pointerTo t))).byte lo a.msg.length (a.msg.length + s.out.length)
      ls' (a.msg.length + s.out.length + 2) := by
    refine .pointer (Nat.le_add_right _ _) hflags ?_ hnonempty he ?_
    · rwa [hoffset]
    · rwa [hoffset]
  rw [hlength, ← Nat.add_assoc]
  rw [hi.out] at hend hlabels ⊢
  exact hend.append h.labels_before le_rfl hlabels

/-- The second loop, from any of its passes on. -/
theorem packs_pass (htable : IsTable a.msg lo (a.dnptrs.getD [])) (h : Behind a.src ls ds rs) (hi : PassInv a ds s) :
    Packs a lo ls (.pass s) := by
  induction rs generalizing ds s with
  | nil => exact packs_root h hi
  | cons l rs ih =>
    obtain ⟨n, hread, hzero, -⟩ := h.label
    have hlen := h.length
    have hwire := length_wire_pos rs
    rw [length_wire_cons] at hlen
    have hpass : a.packPass (.pass s) =
        a.dnptrs.elim (a.copyLabel s) fun l => return .inl (.search s (.entry l)) := by
      rw [PackArgs.packPass, hi.srcp, hread, ok_bind, if_pos hzero]
    have hcopy : ∀ {t : PackState} {s' : Pack}, a.packPass t = a.copyLabel s' → s'.srcp = ds.flatten.length →
        s'.out = ds.flatten → PassInv a (ds ++ [l]) (s'.copied l) → Packs a lo ls t := by
      intro t s' ht hsrcp hout hinv
      rw [copyLabel_label h hsrcp] at ht
      split_ifs at ht with hroom
      · refine .cleanup ht ?_
        rw [hout] at hroom
        omega
      · exact .next ht (ih h.next hinv)
    cases hd : a.dnptrs with
    | none =>
      rw [hd, Option.elim_none] at hpass
      exact hcopy hpass hi.srcp hi.out (hi.copied hd l)
    | some ptrs =>
      rw [hd, Option.elim_some] at hpass
      have hread := h.source.readable
      have hsrcp : s.srcp + (wire (l :: rs)).length ≤ a.src.limit := by
        rw [hi.srcp, length_wire_cons]
        omega
      have hholds : Holds a.src.byte s.srcp (wire (l :: rs)) := by
        rw [hi.srcp]
        exact h.holds
      have hnamed : ∀ p ∈ ptrs, Named (written (a.msg ++ s.out)).byte lo a.msg.length p := by
        intro p hp
        rw [hd, Option.getD_some] at htable
        obtain ⟨hlo, ls', e, hname, he⟩ := htable.named p hp
        exact ⟨hlo, ls', e, hname.congr hlo fun i _ hi => (written_byte_append (by omega)).symm, he⟩
      have hlimit : a.msg.length ≤ (written (a.msg ++ s.out)).limit := by simp [written]
      obtain ⟨r, hr, hfound⟩ := entries_spec hnamed hlimit (List.cons_ne_nil l rs) h.labels hholds hsrcp
      obtain ⟨t, hleads, hend⟩ := hr.exists_end
      have hsearch : Leads a.packStep (.search s (.entry ptrs)) (.search s t) := by
        refine hleads.lift _ fun f f' hf => packStep_next ?_
        rw [PackArgs.packPass, hf]
        rfl
      have hall : Packs a lo ls (.search s t) := by
        cases r with
        | none =>
          obtain ⟨hsrcp', hout', hinv⟩ := hi.save (by rw [hd]; exact Option.some_ne_none _)
          refine hcopy ?_ (hsrcp'.trans hi.srcp) (hout'.trans hi.out) (hinv l)
          rw [PackArgs.packPass, hend]
        | some t' =>
          obtain ⟨hlo, ht, ls', e, hname, he, hfold⟩ := hfound t' rfl
          have hlast : a.packPass (.search s t) = if a.dstsiz ≤ s.out.length + 1 then a.cleanup
              else .ok (.inr ⟨some (s.out ++ PackArgs.pointerTo t'), s.ptrs⟩) := by
            rw [PackArgs.packPass, hend]
            rfl
          split_ifs at hlast with hroom
          · refine .cleanup hlast ?_
            rw [hi.out] at hroom
            omega
          · exact ⟨_, .done (packStep_end hlast), packs_found h hi hlo ht hname he (List.cons_ne_nil l rs) hfold
              (Int.not_le.mp hroom)⟩
      obtain ⟨r', hr', hok⟩ := hall
      exact ⟨r', (returns_next_iff (packStep_next hpass)).mpr (hsearch.returns_iff.mpr hr'), hok⟩

/-- `ns_name_pack` ends, and does to the message what it should. -/
theorem pack_spec (hsrc : IsSource a.src ls) (htable : IsTable a.msg lo (a.dnptrs.getD [])) :
    ∃ r, NsNamePack a (.ok r) ∧ PackOk a lo ls r := by
  have h : Behind a.src ls [] ls := ⟨hsrc, rfl⟩
  obtain ⟨r, hr, hok⟩ := packs_pass htable h PassInv.start
  exact ⟨r, (legal_leads h).returns_iff.mpr hr, hok⟩

end Packing

/-! ### Composing a message -/

/-- A message that is composed, its table, the names in it with their places and sizes, and earlier ends of the message. -/
structure Composer where
  msg : List Byte
  dnptrs : Option (List ℕ)
  names : List (ℕ × List (List Byte) × ℕ)
  marks : List ℕ

/-- What a caller does next.  `lo` is the length of the header, which may be changed at any time. -/
inductive Composes (lo : ℕ) (lastdnptr : Option ℕ) : Composer → Composer → Prop
  | put (c : Composer) (l : List Byte) : Composes lo lastdnptr c { c with msg := c.msg ++ l }
  | header (c : Composer) (i : ℕ) (b : Byte) (h : i < lo) : Composes lo lastdnptr c { c with msg := c.msg.set i b }
  | name (c : Composer) (src : Memory) (ls : List (List Byte)) (dstsiz : ℤ) (out : List Byte) (ptrs : List ℕ)
      (isSource : IsSource src ls) (h : NsNamePack ⟨src, c.msg, dstsiz, c.dnptrs, lastdnptr⟩ (.ok ⟨some out, ptrs⟩)) :
      Composes lo lastdnptr c
        ⟨c.msg ++ out, c.dnptrs.map fun _ => ptrs, (c.msg.length, ls, out.length) :: c.names, c.marks⟩
  | failed (c : Composer) (src : Memory) (ls : List (List Byte)) (dstsiz : ℤ) (ptrs : List ℕ)
      (isSource : IsSource src ls) (h : NsNamePack ⟨src, c.msg, dstsiz, c.dnptrs, lastdnptr⟩ (.ok ⟨none, ptrs⟩)) :
      Composes lo lastdnptr c { c with dnptrs := c.dnptrs.map fun _ => ptrs }
  | mark (c : Composer) : Composes lo lastdnptr c { c with marks := c.msg.length :: c.marks }
  | rollback (c : Composer) (p : ℕ) (h : p ∈ c.marks) : Composes lo lastdnptr c
      ⟨c.msg.take p, c.dnptrs.bind (nsNameRollback p), c.names.filter (·.1 < p), c.marks.filter (· ≤ p)⟩

section Composing

variable {lo : ℕ} {lastdnptr : Option ℕ} {c c' : Composer}

/-- The name at `p` stands in the message and does not stand across an earlier end. -/
def Stands (lo : ℕ) (c : Composer) (p : ℕ) (ls : List (List Byte)) (e : ℕ) : Prop :=
  lo ≤ p ∧ NameAt (written c.msg).byte lo p p ls e ∧ e ≤ c.msg.length ∧ ∀ k ∈ c.marks, e ≤ k ∨ k ≤ p

/-- What holds of a message that is composed. -/
structure ComposerInv (lo : ℕ) (c : Composer) : Prop where
  above : lo ≤ c.msg.length
  table : ∀ p ∈ c.dnptrs.getD [], ∃ ls e, Stands lo c p ls e
  names : ∀ p ls n, (p, ls, n) ∈ c.names → ∃ ls', fold ls' = fold ls ∧ Stands lo c p ls' (p + n)
  marks : ∀ k ∈ c.marks, lo ≤ k ∧ k ≤ c.msg.length

theorem NameAt.written {l l' : List Byte} {p e : ℕ} {ls : List (List Byte)} (h : NameAt (written l).byte lo p p ls e)
    (hlo : lo ≤ p) (heq : ∀ i, lo ≤ i → i < e → l'[i]? = l[i]?) : NameAt (written l').byte lo p p ls e := by
  refine h.congr hlo fun i hi hi' => ?_
  simp only [NsName.written, List.getD_eq_getElem?_getD, heq i hi hi']

/-- A step that leaves the bytes behind the header alone keeps the names. -/
theorem ComposerInv.kept (h : ComposerInv lo c) {msg : List Byte} {marks : List ℕ} (hle : c.msg.length ≤ msg.length)
    (heq : ∀ i, lo ≤ i → i < c.msg.length → msg[i]? = c.msg[i]?)
    (hmarks : ∀ k ∈ marks, k ∈ c.marks ∨ k = c.msg.length) : ComposerInv lo ⟨msg, c.dnptrs, c.names, marks⟩ := by
  have stands : ∀ {p ls e}, Stands lo c p ls e → Stands lo ⟨msg, c.dnptrs, c.names, marks⟩ p ls e := by
    rintro p ls e ⟨hlo, hname, he, hm⟩
    refine ⟨hlo, hname.written hlo fun i hi hi' => heq i hi (by omega), he.trans hle, fun k hk => ?_⟩
    rcases hmarks k hk with hk | rfl
    · exact hm k hk
    · exact .inl he
  refine ⟨h.above.trans hle, fun p hp => ?_, fun p ls n hp => ?_, fun k hk => ?_⟩
  · obtain ⟨ls, e, hs⟩ := h.table p hp
    exact ⟨ls, e, stands hs⟩
  · obtain ⟨ls', hfold, hs⟩ := h.names p ls n hp
    exact ⟨ls', hfold, stands hs⟩
  · rcases hmarks k hk with hk | rfl
    · exact ⟨(h.marks k hk).1, (h.marks k hk).2.trans hle⟩
    · exact ⟨h.above, hle⟩

/-- What is behind an earlier end of the message goes away as a whole. -/
theorem ComposerInv.rolled (h : ComposerInv lo c) {p : ℕ} (hp : p ∈ c.marks) : ComposerInv lo
    ⟨c.msg.take p, c.dnptrs.bind (nsNameRollback p), c.names.filter (·.1 < p), c.marks.filter (· ≤ p)⟩ := by
  obtain ⟨hlo, hle⟩ := h.marks p hp
  have hlength : (c.msg.take p).length = p := by
    rw [List.length_take]
    omega
  have stands : ∀ {q ls e}, q < p → Stands lo c q ls e → Stands lo
      ⟨c.msg.take p, c.dnptrs.bind (nsNameRollback p), c.names.filter (·.1 < p), c.marks.filter (· ≤ p)⟩ q ls e := by
    rintro q ls e hq ⟨hlo, hname, he, hm⟩
    have hep : e ≤ p := (hm p hp).resolve_right (by omega)
    refine ⟨hlo, hname.written hlo fun i _ hi' => ?_, by rwa [hlength], fun k hk => hm k (List.mem_filter.mp hk).1⟩
    rw [List.getElem?_take_of_lt (by omega)]
  refine ⟨by rwa [hlength], fun q hq => ?_, fun q ls n hq => ?_, fun k hk => ?_⟩
  · cases hd : c.dnptrs with
    | none =>
      rw [hd] at hq
      cases hq
    | some ptrs =>
      rw [hd, Option.bind_some, nsNameRollback] at hq
      split_ifs at hq with hzero
      · cases hq
      · rw [Option.getD_some] at hq
        obtain ⟨ls, e, hs⟩ := h.table q (by rw [hd]; exact (List.takeWhile_subset _) hq)
        exact ⟨ls, e, stands (by simpa using List.mem_takeWhile_imp hq) hs⟩
  · obtain ⟨hq, hlt⟩ := List.mem_filter.mp hq
    obtain ⟨ls', hfold, hs⟩ := h.names q ls n hq
    exact ⟨ls', hfold, stands (by simpa using hlt) hs⟩
  · obtain ⟨hk, hle'⟩ := List.mem_filter.mp hk
    rw [hlength]
    exact ⟨(h.marks k hk).1, by simpa using hle'⟩

theorem ComposerInv.isTable (h : ComposerInv lo c) : IsTable c.msg lo (c.dnptrs.getD []) := by
  refine ⟨h.above, fun p hp => ?_⟩
  obtain ⟨ls, e, hlo, hname, he, -⟩ := h.table p hp
  exact ⟨hlo, ls, e, hname, he⟩

theorem composes_inv (h : Composes lo lastdnptr c c') (hi : ComposerInv lo c) : ComposerInv lo c' := by
  cases h with
  | put l =>
    refine hi.kept (by simp) (fun i _ hi' => List.getElem?_append_left hi') fun k hk => .inl hk
  | header i b hlt =>
    refine hi.kept (by simp) (fun j hj _ => ?_) fun k hk => .inl hk
    rw [List.getElem?_set_ne (by omega)]
  | name src ls dstsiz out ptrs isSource hpack =>
    obtain ⟨r, hr, hok⟩ := pack_spec (a := ⟨src, c.msg, dstsiz, c.dnptrs, lastdnptr⟩) isSource hi.isTable
    obtain rfl : r = ⟨some out, ptrs⟩ := Except.ok.inj (Returns.unique hr hpack)
    obtain ⟨-, -, hptrs, ls', hfold, hname⟩ := hok.packed out rfl
    have hkept : ComposerInv lo ⟨c.msg ++ out, c.dnptrs, c.names, c.marks⟩ :=
      hi.kept (by simp) (fun i _ hi' => List.getElem?_append_left hi') fun k hk => .inl hk
    have hnew : Stands lo ⟨c.msg ++ out, c.dnptrs.map fun _ => ptrs, (c.msg.length, ls, out.length) :: c.names, c.marks⟩
        c.msg.length ls' (c.msg.length + out.length) :=
      ⟨hi.above, hname, by simp, fun k hk => .inr (hi.marks k hk).2⟩
    refine ⟨hkept.above, fun p hp => ?_, fun p ls n hp => ?_, hkept.marks⟩
    · cases hd : c.dnptrs with
      | none =>
        rw [hd] at hp
        cases hp
      | some old =>
        rw [hd, Option.map_some, Option.getD_some] at hp
        have hmem : p ∈ c.dnptrs.getD [] ∨ p = c.msg.length := by
          rcases hptrs with hptrs | hptrs
          · exact .inl (hptrs ▸ hp)
          · have hp : p ∈ c.dnptrs.getD [] ++ [c.msg.length] := hptrs ▸ hp
            rwa [List.mem_append, List.mem_singleton] at hp
        rcases hmem with hmem | rfl
        · exact hkept.table p hmem
        · exact ⟨ls', _, hnew⟩
    · rcases List.mem_cons.mp hp with heq | hp
      · cases heq
        exact ⟨ls', hfold, hnew⟩
      · exact hkept.names p ls n hp
  | failed src ls dstsiz ptrs isSource hpack =>
    obtain ⟨r, hr, hok⟩ := pack_spec (a := ⟨src, c.msg, dstsiz, c.dnptrs, lastdnptr⟩) isSource hi.isTable
    obtain rfl : r = ⟨none, ptrs⟩ := Except.ok.inj (Returns.unique hr hpack)
    have hptrs : (c.dnptrs.map fun _ => ptrs) = c.dnptrs := by
      cases hd : c.dnptrs with
      | none => rfl
      | some old =>
        have hptrs : ptrs = c.dnptrs.getD [] := (hok.failed rfl).1
        rw [hptrs, hd]
        rfl
    rw [hptrs]
    exact hi
  | mark => exact hi.kept le_rfl (fun i _ _ => rfl) fun k hk => (List.mem_cons.mp hk).symm
  | rollback p hp => exact hi.rolled hp

theorem composed_inv (h : Relation.ReflTransGen (Composes lo lastdnptr) c c') (hi : ComposerInv lo c) : ComposerInv lo c' := by
  induction h with
  | refl => exact hi
  | tail _ hstep ih => exact composes_inv hstep ih

theorem length_wire_fold {ls ls' : List (List Byte)} (h : fold ls' = fold ls) : (wire ls').length = (wire ls).length := by
  have hfold : ∀ ls : List (List Byte), (wire ls).length = (fold ls).flatten.length + 1 := by
    intro ls
    induction ls with
    | nil => rfl
    | cons l ls ih =>
      have hl : (foldLabel l).length = l.length := by
        rw [foldLabel]
        split_ifs
        · rfl
        · exact List.length_map _
      rw [length_wire_cons, fold_cons, List.flatten_cons, List.length_append, hl, ih, Nat.add_assoc]
  rw [hfold, hfold, h]

end Composing

theorem composer_start (header : List Byte) (compress : Bool) :
    ComposerInv header.length ⟨header, if compress then some [] else none, [], []⟩ := by
  refine ⟨le_rfl, fun p hp => ?_, by rintro p ls n ⟨⟩, by rintro k ⟨⟩⟩
  cases compress <;> cases hp

/-- Two names, and the second one ends with a pointer to the first one. -/
def twoNames : Composer :=
  ⟨List.replicate 12 0 ++ [1, 97, 0] ++ [1, 98, 0xc0, 12], some [12, 15], [(15, [[1, 98], [1, 65]], 4), (12, [[1, 97]], 3)], []⟩

theorem isLabel_one (b : Byte) : IsLabel [1, b] := by
  show IsLabel (BitVec.ofNat 8 [b].length :: [b])
  exact .ordinary le_rfl (Nat.le_of_ble_eq_true rfl)

theorem twoNames_composed :
    Relation.ReflTransGen (Composes 12 (some 20)) ⟨List.replicate 12 0, if true then some [] else none, [], []⟩ twoNames := by
  have hfirst : IsSource (written [1, 97, 0]) [[1, 97]] :=
    ⟨by simpa using isLabel_one 97, rfl, by decide, by decide⟩
  have hsecond : IsSource (written [1, 98, 1, 65, 0]) [[1, 98], [1, 65]] :=
    ⟨by simpa using ⟨isLabel_one 98, isLabel_one 65⟩, rfl, by decide, by decide⟩
  have hfirst : Composes 12 (some 20) ⟨List.replicate 12 0, some [], [], []⟩
      ⟨List.replicate 12 0 ++ [1, 97, 0], some [12], [(12, [[1, 97]], 3)], []⟩ :=
    .name _ _ _ 100 [1, 97, 0] [12] hfirst ⟨10, by decide⟩
  have hsecond : Composes 12 (some 20) ⟨List.replicate 12 0 ++ [1, 97, 0], some [12], [(12, [[1, 97]], 3)], []⟩ twoNames :=
    .name _ _ _ 100 [1, 98, 0xc0, 12] [12, 15] hsecond ⟨20, by decide⟩
  exact .tail (.tail .refl hfirst) hsecond

/-- Whatever has been composed, another name is packed or not, without a byte read that has not been written.  It takes up
no more than without compression and no more than there is room for; where it is not packed, the table is as before, and
without compression there would be no room for it and one more byte. -/
theorem pack_composed (header : List Byte) (compress : Bool) (lastdnptr : Option ℕ) (c : Composer)
    (h : Relation.ReflTransGen (Composes header.length lastdnptr) ⟨header, if compress then some [] else none, [], []⟩ c)
    (src : Memory) (ls : List (List Byte)) (hsrc : IsSource src ls) (dstsiz : ℤ) :
    ∃ r, NsNamePack ⟨src, c.msg, dstsiz, c.dnptrs, lastdnptr⟩ (.ok r) ∧
      (r.bytes = none → r.ptrs = c.dnptrs.getD [] ∧ dstsiz ≤ (wire ls).length) ∧
      ∀ out, r.bytes = some out → (out.length : ℤ) ≤ dstsiz ∧ out.length ≤ (wire ls).length := by
  obtain ⟨r, hr, hok⟩ := pack_spec (a := ⟨src, c.msg, dstsiz, c.dnptrs, lastdnptr⟩) hsrc
    (composed_inv h (composer_start header compress)).isTable
  exact ⟨r, hr, hok.failed, fun out hout => ⟨(hok.packed out hout).1, (hok.packed out hout).2.1⟩⟩

theorem pack_composed_third_name :
    ∃ r, NsNamePack ⟨written [1, 99, 0], twoNames.msg, 100, twoNames.dnptrs, some 20⟩ (.ok r) ∧
      (r.bytes = none → r.ptrs = [12, 15] ∧ (100 : ℤ) ≤ (wire [[1, 99]]).length) ∧
      ∀ out, r.bytes = some out → (out.length : ℤ) ≤ 100 ∧ out.length ≤ (wire [[1, 99]]).length :=
  pack_composed (List.replicate 12 0) true (some 20) twoNames twoNames_composed (written [1, 99, 0]) [[1, 99]]
    ⟨by simpa using isLabel_one 99, rfl, by decide, by decide⟩ 100

/-- Whatever is composed behind a header, every name of the message is unpacked again, up to the case of its letters, and has
the size that was returned for it. -/
theorem unpack_composed (header : List Byte) (compress : Bool) (lastdnptr : Option ℕ) (c : Composer)
    (h : Relation.ReflTransGen (Composes header.length lastdnptr) ⟨header, if compress then some [] else none, [], []⟩ c)
    (p n dstsiz : ℕ) (ls : List (List Byte)) (hp : (p, ls, n) ∈ c.names) (hroom : (wire ls).length ≤ dstsiz) (m : Memory)
    (hm : ∀ i, (hi : i < c.msg.length) → m.byte i = c.msg[i]) (hr : Readable m c.msg.length) :
    ∃ ls', fold ls' = fold ls ∧ NsNameUnpack m c.msg.length p dstsiz (.ok (some (n, wire ls'))) := by
  obtain ⟨ls', hfold, hlo, hname, he, -⟩ := (composed_inv h (composer_start header compress)).names p ls n hp
  have hname' : NameAt m.byte header.length p p ls' (p + n) := by
    refine hname.congr hlo fun i _ hi => ?_
    have hlt : i < c.msg.length := by omega
    rw [hm i hlt]
    exact List.getD_eq_getElem _ _ hlt
  have hunpack := unpack_of_nameAt hname' hr he ((length_wire_fold hfold).trans_le hroom)
  rw [Nat.add_sub_cancel_left] at hunpack
  exact ⟨ls', hfold, hunpack⟩

theorem unpack_composed_two_names :
    ∃ ls', fold ls' = fold [[1, 98], [1, 65]] ∧
      NsNameUnpack ⟨(written twoNames.msg).byte, 20⟩ 19 15 255 (.ok (some (4, wire ls'))) :=
  unpack_composed (List.replicate 12 0) true (some 20) twoNames twoNames_composed 15 4 255 [[1, 98], [1, 65]] (by decide)
    (by decide) ⟨(written twoNames.msg).byte, 20⟩ (by decide) (.inl (by decide))

end Bionic.NsName
