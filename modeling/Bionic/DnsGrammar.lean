import Bionic.DnsPacket

/-! # The grammar of query packets (`libc/netbsd/resolv/res_cache.c`)

The source describes a query as a header without answers, followed by questions of five types.
`_dnsPacket_checkQuery` accepts exactly such packets but for one type (`checkQuery_grammar_iff`): the escape in `DNS_TYPE_ALL`
takes three octal digits, so that the type is 31 and not 255. -/

namespace Bionic.DnsPacket

/-! ### The grammar -/

/-- A sequence of labels that ends with a zero byte. -/
inductive Name : List Byte → Prop
  | root : Name [0]
  | label {text rest : List Byte} (pos : 1 ≤ text.length) (short : text.length ≤ 63) (more : Name rest) :
      Name (BitVec.ofNat 8 text.length :: (text ++ rest))

/-- A number of two bytes, the high one first. -/
def int16 (n : ℕ) : List Byte := [BitVec.ofNat 8 (n / 256), BitVec.ofNat 8 n]

/-- Complete questions of the class IN, with their types. -/
inductive Questions : List ℕ → List Byte → Prop
  | nil : Questions [] []
  | cons {name rest : List Byte} {type : ℕ} {types : List ℕ} (isName : Name name) (small : type < 65536)
      (more : Questions types rest) : Questions (type :: types) (name ++ (int16 type ++ (int16 1 ++ rest)))

/-- The header of a query with `n` questions. -/
structure QueryHeader (hd : List Byte) (n : ℕ) : Prop where
  length : hd.length = 12
  qr : (byteAt hd 2).getLsbD 7 = false
  opcode : (byteAt hd 2).extractLsb' 3 4 = 0#4
  aa : (byteAt hd 2).getLsbD 2 = false
  ra : (byteAt hd 3).getLsbD 7 = false
  z : (byteAt hd 3).extractLsb' 4 3 = 0#3
  rcode : (byteAt hd 3).extractLsb' 0 4 = 0#4
  qdCount : int16At hd 4 = n
  anCount : int16At hd 6 = 0
  nsCount : int16At hd 8 = 0
  arCount : int16At hd 10 = 0

/-- The packet `q` starts with a header and with questions of the types `types`. -/
def IsQuery (q : List Byte) (types : List ℕ) : Prop :=
  types ≠ [] ∧ ∃ hd s t, q = hd ++ (s ++ t) ∧ QueryHeader hd types.length ∧ Questions types s

/-- A, PTR, MX, AAAA, ALL. -/
def documented : List ℕ := [1, 12, 15, 28, 255]

/-- The types that the checker accepts. -/
def accepted : List ℕ := [1, 12, 15, 28, 31]

variable {q n l s t hd : List Byte} {k c : ℕ} {types types' : List ℕ}

/-! ### Names -/

theorem checkLabels_append {text : List Byte} (rest : List Byte) :
    checkLabels text.length (text ++ rest) = checkLabels 0 rest := by
  induction text with
  | nil => rfl
  | cons b text ih => exact ih

/-- The bytes of a label are followed by the rest of the name. -/
theorem checkLabels_split (h : checkLabels k l = some s) :
    ∃ text rest, l = text ++ rest ∧ text.length = k ∧ checkLabels 0 rest = some s := by
  have lt := checkLabels_lt h
  have length : (l.take k).length = k := by
    rw [List.length_take]
    omega
  refine ⟨l.take k, l.drop k, (List.take_append_drop k l).symm, length, ?_⟩
  rw [← List.take_append_drop k l] at h
  generalize l.take k = text at h length
  subst length
  rwa [checkLabels_append] at h

theorem Name.check (h : Name n) : checkLabels 0 n = some [] := by
  induction h with
  | root => rfl
  | @label text rest pos short name ih =>
      have toNat : (BitVec.ofNat 8 text.length).toNat = text.length := by
        rw [BitVec.toNat_ofNat]
        omega
      have nonzero : ¬ BitVec.ofNat 8 text.length = 0 := fun zero => by
        rw [zero] at toNat
        exact absurd toNat (Nat.ne_of_lt pos)
      have few : ¬ 64 ≤ BitVec.ofNat 8 text.length := by
        rw [BitVec.le_def, toNat]
        exact Nat.not_le.2 (Nat.lt_succ_of_le short)
      rw [checkLabels, if_neg nonzero, if_neg few, toNat, checkLabels_append]
      exact ih

theorem name_of_check (h : checkLabels 0 n = some []) : Name n := by
  generalize hm : n.length = m
  induction m using Nat.strong_induction_on generalizing n with
  | _ m ih =>
      cases n with
      | nil => cases h
      | cons b l =>
          rw [checkLabels] at h
          split at h
          next zero =>
            rw [zero, Option.some.inj h]
            exact .root
          next nonzero =>
            split at h
            next => cases h
            next few =>
              obtain ⟨text, rest, rfl, length, check⟩ := checkLabels_split h
              have name : Name rest := by
                refine ih rest.length ?_ check rfl
                rw [← hm, List.length_cons, List.length_append]
                omega
              have byte : b = BitVec.ofNat 8 text.length := by
                rw [length, BitVec.ofNat_toNat, BitVec.setWidth_eq]
              have pos : 1 ≤ text.length := by
                rw [length]
                by_contra none
                exact nonzero (BitVec.eq_of_toNat_eq (Nat.lt_one_iff.1 (Nat.not_le.1 none)))
              have short : text.length ≤ 63 := by
                rw [BitVec.le_def, Nat.not_le] at few
                rw [length]
                exact Nat.le_of_lt_succ few
              rw [byte]
              exact .label pos short name

theorem name_iff : Name n ↔ checkLabels 0 n = some [] := ⟨Name.check, name_of_check⟩

/-! ### Questions -/

theorem dnsTypes_eq : dnsTypes = accepted.map int16 := by decide

theorem dnsClassIn_eq : dnsClassIn = int16 1 := by decide

theorem int16_injective {m m' : ℕ} (hm : m < 65536) (hm' : m' < 65536) (h : int16 m = int16 m') : m = m' := by
  obtain ⟨high, low⟩ := List.cons.inj h
  have high := congrArg BitVec.toNat high
  have low := congrArg BitVec.toNat (List.cons.inj low).1
  rw [BitVec.toNat_ofNat, BitVec.toNat_ofNat] at high low
  omega

/-- A question that the checker accepts. -/
theorem checkQR_iff : checkQR l = some [] ↔
    ∃ name type, Name name ∧ type ∈ accepted ∧ l = name ++ (int16 type ++ int16 1) := by
  rw [checkQR_eq]
  constructor
  · intro h
    obtain ⟨u, hl, hu⟩ := Option.bind_eq_some_iff.1 h
    obtain ⟨name, rfl, hn⟩ := (cuts_checkLabels 0).split hl
    obtain ⟨v, hu, hv⟩ := Option.bind_eq_some_iff.1 hu
    obtain ⟨bytes, ht, rfl⟩ := checkTypes_eq_some.1 hu
    rw [dnsTypes_eq] at ht
    obtain ⟨type, known, rfl⟩ := List.mem_map.1 ht
    rw [checkBytes_eq_some.1 hv, dnsClassIn_eq, List.append_nil]
    exact ⟨name, type, name_iff.2 hn, known, rfl⟩
  · rintro ⟨name, type, hn, ht, rfl⟩
    have types : dnsTypes.findSome? (checkBytes · (int16 type ++ int16 1)) = some (int16 1) :=
      checkTypes_eq_some.2 ⟨int16 type, by rw [dnsTypes_eq]; exact List.mem_map_of_mem ht, rfl⟩
    rw [checkQName, (cuts_checkLabels 0).append (name_iff.1 hn), Option.bind_some, types, Option.bind_some]
    exact checkBytes_eq_some.2 (by rw [dnsClassIn_eq, List.append_nil])

theorem checkQRs_iff : checkQRs c s = some [] ↔
    ∃ types, types.length = c ∧ (∀ type ∈ types, type ∈ accepted) ∧ Questions types s := by
  induction c generalizing s with
  | zero =>
      constructor
      · intro h
        rw [Option.some.inj h]
        exact ⟨[], rfl, (fun _ h => nomatch h), .nil⟩
      · rintro ⟨types, length, -, questions⟩
        rw [List.length_eq_zero_iff.1 length] at questions
        cases questions
        rfl
  | succ c ih =>
      constructor
      · intro h
        obtain ⟨a, rest, rfl, ha, hrest⟩ := checkQRs_succ h
        obtain ⟨name, type, hn, ht, rfl⟩ := checkQR_iff.1 ha
        obtain ⟨types, length, all, questions⟩ := ih.1 hrest
        have small : ∀ type ∈ accepted, type < 65536 := by decide
        refine ⟨type :: types, congrArg (· + 1) length, List.forall_mem_cons.2 ⟨ht, all⟩, ?_⟩
        rw [List.append_assoc, List.append_assoc]
        exact .cons hn (small type ht) questions
      · rintro ⟨types, length, all, questions⟩
        cases questions with
        | nil => cases length
        | @cons name rest type types hn small questions =>
            obtain ⟨ht, all⟩ := List.forall_mem_cons.1 all
            have ha : checkQR (name ++ (int16 type ++ int16 1)) = some [] := checkQR_iff.2 ⟨name, type, hn, ht, rfl⟩
            have hrest : checkQRs c rest = some [] := ih.2 ⟨types, Nat.succ.inj length, all, questions⟩
            have joined : name ++ (int16 type ++ (int16 1 ++ rest)) = name ++ (int16 type ++ int16 1) ++ rest := by
              rw [List.append_assoc, List.append_assoc]
            rw [checkQRs, joined, cuts_checkQR.append ha, Option.bind_some, hrest]

/-- The types are determined by the bytes. -/
theorem Questions.unique {s' t' : List Byte} (h : Questions types s) (h' : Questions types' s')
    (length : types.length = types'.length) (e : s ++ t = s' ++ t') : types = types' := by
  induction h generalizing types' s' with
  | nil => exact (List.length_eq_zero_iff.1 length.symm).symm
  | @cons name rest type types hn small _ ih =>
      cases h' with
      | nil => cases length
      | @cons name' rest' type' types' hn' small' questions' =>
          simp only [List.append_assoc] at e
          obtain rfl := (cuts_checkLabels 0).unique (name_iff.1 hn) (name_iff.1 hn') e
          have e := List.append_cancel_left e
          obtain ⟨same, e⟩ := List.append_inj e rfl
          have e := List.append_cancel_left e
          rw [int16_injective small small' same, ih questions' (Nat.succ.inj length) e]

/-! ### Queries -/

theorem flags_eq_zero_iff (b : Byte) :
    b &&& 0xfc = 0 ↔ b.getLsbD 7 = false ∧ b.extractLsb' 3 4 = 0#4 ∧ b.getLsbD 2 = false := by
  revert b
  decide

theorem byte_eq_zero_iff (b : Byte) :
    b = 0 ↔ b.getLsbD 7 = false ∧ b.extractLsb' 4 3 = 0#3 ∧ b.extractLsb' 0 4 = 0#4 := by
  revert b
  decide

theorem headerOk_iff (length : hd.length = 12) :
    HeaderOk hd ↔ QueryHeader hd (int16At hd 4) ∧ int16At hd 4 ≠ 0 := by
  unfold HeaderOk
  rw [flags_eq_zero_iff, byte_eq_zero_iff]
  constructor
  · rintro ⟨⟨⟨qr, opcode, aa⟩, ra, z, rcode⟩, ⟨an, ns, ar⟩, qd⟩
    exact ⟨⟨length, qr, opcode, aa, ra, z, rcode, rfl, an, ns, ar⟩, qd⟩
  · rintro ⟨h, qd⟩
    exact ⟨⟨⟨h.qr, h.opcode, h.aa⟩, h.ra, h.z, h.rcode⟩, ⟨h.anCount, h.nsCount, h.arCount⟩, qd⟩

theorem isQuery_iff : (checkQuery q).isSome ↔ ∃ types, IsQuery q types ∧ ∀ type ∈ types, type ∈ accepted := by
  rw [Option.isSome_iff_exists]
  constructor
  · rintro ⟨t, h⟩
    obtain ⟨hd, s, query⟩ := checkQuery_eq_some.1 h
    obtain ⟨types, length, all, questions⟩ := checkQRs_iff.1 query.questions
    obtain ⟨header, count⟩ := (headerOk_iff query.length).1 query.header
    rw [← length] at header count
    exact ⟨types, ⟨List.ne_nil_of_length_pos (Nat.pos_of_ne_zero count), hd, s, t, query.eq, header, questions⟩, all⟩
  · rintro ⟨types, ⟨nonempty, hd, s, t, rfl, header, questions⟩, all⟩
    refine ⟨t, checkQuery_eq_some.2 ⟨hd, s, rfl, header.length, ?_, ?_⟩⟩
    · rw [headerOk_iff header.length, header.qdCount]
      exact ⟨header, Nat.ne_of_gt (List.length_pos_iff.2 nonempty)⟩
    · rw [header.qdCount]
      exact checkQRs_iff.2 ⟨types, rfl, all, questions⟩

theorem IsQuery.unique (h : IsQuery q types) (h' : IsQuery q types') : types = types' := by
  obtain ⟨-, hd, s, t, rfl, header, questions⟩ := h
  obtain ⟨-, hd', s', t', e, header', questions'⟩ := h'
  obtain ⟨rfl, tails⟩ := List.append_inj e (header.length.trans header'.length.symm)
  exact questions.unique questions' (header.qdCount.symm.trans header'.qdCount) tails

/-- The packet is a query of the documented grammar. -/
def Grammar (q : List Byte) : Prop := ∃ types, IsQuery q types ∧ ∀ type ∈ types, type ∈ documented

/-- Whether a packet is accepted agrees with the grammar, if and only if it is no query of documented types and TYPE
31 in which one of the types 31 and 255 occurs without the other. -/
theorem checkQuery_grammar_iff (q : List Byte) : ((checkQuery q).isSome ↔ Grammar q) ↔
    ∀ types, IsQuery q types → (∀ type ∈ types, type ∈ documented ∨ type = 31) → (31 ∈ types ↔ 255 ∈ types) := by
  rw [isQuery_iff]
  have in_accepted : ∀ type, type ∈ documented ∨ type = 31 → type ≠ 255 → type ∈ accepted := by
    simp only [documented, accepted, List.mem_cons, List.not_mem_nil, or_false]
    omega
  have in_documented : ∀ type, type ∈ documented ∨ type = 31 → type ≠ 31 → type ∈ documented :=
    fun type known ne => known.resolve_right ne
  have of_accepted : ∀ type, type ∈ accepted → type ∈ documented ∨ type = 31 := by
    simp only [documented, accepted, List.mem_cons, List.not_mem_nil, or_false]
    omega
  constructor
  · intro agrees types query known
    constructor
    · intro old
      by_contra missing
      obtain ⟨types', query', all⟩ := agrees.1 ⟨types, query, fun type h =>
        in_accepted type (known type h) fun e => missing (e ▸ h)⟩
      rw [← query.unique query'] at all
      exact absurd (all 31 old) (by decide)
    · intro all255
      by_contra missing
      obtain ⟨types', query', all⟩ := agrees.2 ⟨types, query, fun type h =>
        in_documented type (known type h) fun e => missing (e ▸ h)⟩
      rw [← query.unique query'] at all
      exact absurd (all 255 all255) (by decide)
  · intro both
    constructor
    · rintro ⟨types, query, all⟩
      have known := fun type h => of_accepted type (all type h)
      have no255 : 255 ∉ types := fun h => absurd (all 255 h) (by decide)
      have no31 : 31 ∉ types := fun h => no255 ((both types query known).1 h)
      exact ⟨types, query, fun type h => in_documented type (known type h) fun e => no31 (e ▸ h)⟩
    · rintro ⟨types, query, all⟩
      have known : ∀ type ∈ types, type ∈ documented ∨ type = 31 := fun type h => .inl (all type h)
      have no31 : 31 ∉ types := fun h => absurd (all 31 h) (by decide)
      have no255 : 255 ∉ types := fun h => no31 ((both types query known).2 h)
      exact ⟨types, query, fun type h => in_accepted type (known type h) fun e => no255 (e ▸ h)⟩

/-- A query of the root domain. -/
def queryRoot (type : ℕ) : List Byte := [0, 0, 1, 0, 0, 1, 0, 0, 0, 0, 0, 0, 0] ++ (int16 type ++ int16 1)

theorem isQuery_queryRoot {type : ℕ} (h : type < 65536) : IsQuery (queryRoot type) [type] := by
  refine ⟨List.cons_ne_nil _ _, [0, 0, 1, 0, 0, 1, 0, 0, 0, 0, 0, 0], [0] ++ (int16 type ++ (int16 1 ++ [])), [], ?_,
    ?_, .cons .root h .nil⟩
  · simp [queryRoot]
  · exact ⟨rfl, by decide, by decide, by decide, by decide, by decide, by decide, rfl, by decide, by decide,
      by decide⟩

/-- A query for all types is in the grammar and is not accepted; one for TYPE 31 is accepted and is not in it. -/
theorem rejects_queryAll : (Grammar (queryRoot 255) ∧ (checkQuery (queryRoot 255)).isSome = false) ∧
    (checkQuery (queryRoot 31)).isSome = true ∧ ¬ Grammar (queryRoot 31) := by
  refine ⟨⟨⟨[255], isQuery_queryRoot (by decide), by decide⟩, by decide⟩, by decide, ?_⟩
  rintro ⟨types, query, all⟩
  rw [← (isQuery_queryRoot (by decide)).unique query] at all
  exact absurd (all 31 List.mem_cons_self) (by decide)

end Bionic.DnsPacket
