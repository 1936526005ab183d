import Bionic.LinkedList
import Bionic.Linker

/-! # Symbol lookup (`_elf_lookup`, `_do_lookup` and `_do_lookup_non_local` in `linker/linker.c`)

An object's symbols are found through a SysV hash table: `bucket` gives the first index for a hash
value and `chain` the next one, until index 0.  `doLookup_ok` says what the search over all objects
returns when the chains are acyclic: the first entry in the order of the search that `_elf_lookup`
accepts.  It accepts weak symbols without looking at `st_shndx`, so that a weak undefined symbol
counts as a definition; `resolves_iff` says exactly when this matters. -/

namespace Bionic.ElfLookup

open LinkedList
open Linker (CStr Ptr Fault)

/-! ### Data -/

def STB_GLOBAL : BitVec 8 := 1

def STB_WEAK : BitVec 8 := 2

structure Sym where
  stName : ℕ
  stValue : BitVec 32
  stSize : BitVec 32
  stInfo : BitVec 8
  stShndx : BitVec 16
deriving DecidableEq, Repr

/-- `ELF32_ST_BIND(s->st_info)`. -/
def Sym.bind (s : Sym) : BitVec 8 := s.stInfo >>> 4

/-- `ELF32_ST_TYPE(s->st_info)`. -/
def Sym.type (s : Sym) : BitVec 8 := s.stInfo &&& 0xf

/-- The fields of a `soinfo` that the lookup reads. -/
structure Obj where
  symtab : ℕ → Sym
  /-- The string that starts at an offset of the string table. -/
  strtab : ℕ → CStr
  nbucket : ℕ
  nchain : ℕ
  bucket : ℕ → ℕ
  chain : ℕ → ℕ
  base : BitVec 32
  /-- `FLAG_ERROR`. -/
  error : Bool

/-- The loaded objects. -/
structure Objects where
  so : Ptr → Obj
  solist : List Ptr

/-- A symbol that was found: the object, the index in its symbol table, and what was stored in
`*base`. -/
structure Found where
  obj : Ptr
  sym : ℕ
  base : BitVec 32
deriving DecidableEq, Repr

/-! ### The code -/

/-- `elfhash`. -/
def elfhash (name : CStr) : BitVec 32 :=
  name.foldl (fun h c =>
    let h := (h <<< 4) + BitVec.ofNat 32 c.toNat
    let g := h &&& 0xf0000000
    let h := h ^^^ g
    h ^^^ (g >>> 24)) 0

/-- The loop of `_elf_lookup`, from the index `n` on. -/
def elfLookupFrom (o : Obj) (name : CStr) : ℕ → ℕ → Except Fault (Option ℕ)
  | 0, _ => .error .outOfFuel
  | fuel + 1, n =>
      if n = 0 then .ok none
      else
        let s := o.symtab n
        if o.strtab s.stName ≠ name then elfLookupFrom o name fuel (o.chain n)
        else if s.bind = STB_GLOBAL then
          if s.stShndx = 0#16 then elfLookupFrom o name fuel (o.chain n) else .ok (some n)
        else if s.bind = STB_WEAK then .ok (some n)
        else elfLookupFrom o name fuel (o.chain n)

/-- `_elf_lookup`; the fuel is enough for a chain without a cycle. -/
def elfLookup (o : Obj) (hash : BitVec 32) (name : CStr) : Except Fault (Option ℕ) :=
  elfLookupFrom o name (o.nchain + 1) (o.bucket (hash.toNat % o.nbucket))

/-- `_do_lookup_in_so`; the second result is the new value of `*elf_hash`. -/
def doLookupInSo (o : Obj) (name : CStr) (elfHash : BitVec 32) :
    Except Fault (Option ℕ × BitVec 32) := do
  let elfHash := if elfHash = 0 then elfhash name else elfHash
  return (← elfLookup o elfHash name, elfHash)

/-- The loop of `_do_lookup` and of `_do_lookup_non_local` over `solist`. -/
def searchSolist (E : Objects) (userSi : Option Ptr) (name : CStr) :
    List Ptr → BitVec 32 → Except Fault (Option Found)
  | [], _ => .ok none
  | si :: next, elfHash =>
      if (E.so si).error ∨ userSi = some si then searchSolist E userSi name next elfHash
      else do
        match ← doLookupInSo (E.so si) name elfHash with
        | (some s, _) => return some ⟨si, s, (E.so si).base⟩
        | (none, elfHash) => searchSolist E userSi name next elfHash

/-- `_do_lookup`. -/
def doLookup (E : Objects) (userSi : Option Ptr) (name : CStr) : Except Fault (Option Found) :=
  match userSi with
  | none => searchSolist E none name E.solist 0
  | some user => do
      match ← doLookupInSo (E.so user) name 0 with
      | (some s, _) => return some ⟨user, s, (E.so user).base⟩
      | (none, elfHash) => searchSolist E (some user) name E.solist elfHash

/-- `_do_lookup_non_local`. -/
def doLookupNonLocal (E : Objects) (userSi : Option Ptr) (name : CStr) :
    Except Fault (Option Found) :=
  match userSi with
  | none => .ok none
  | some user => searchSolist E (some user) name E.solist 0

/-! ### Hash tables -/

/-- An index as a pointer: 0 ends a chain. -/
def ref (n : ℕ) : Option ℕ := if n = 0 then none else some n

namespace Obj

variable (o : Obj) (name : CStr) (n : ℕ)

def link (n : ℕ) : Option ℕ := ref (o.chain n)

/-- The bucket of a name. -/
def bucketOf : ℕ := (elfhash name).toNat % o.nbucket

/-- At most `fuel` entries of the chain from index `n` on. -/
def walk : ℕ → ℕ → List ℕ
  | 0, _ => []
  | fuel + 1, n => if n = 0 then [] else n :: walk fuel (o.chain n)

/-- The entries that the lookup of a name visits. -/
def chainOf : List ℕ := o.walk o.nchain (o.bucket (o.bucketOf name))

/-- Symbol `n` has this name and is global or weak. -/
def Named : Prop := o.strtab (o.symtab n).stName = name ∧
  ((o.symtab n).bind = STB_GLOBAL ∨ (o.symtab n).bind = STB_WEAK)

/-- Symbol `n` defines the name. -/
def Defining : Prop := o.Named name n ∧ (o.symtab n).stShndx ≠ 0#16

/-- Symbol `n` is a weak reference to the name. -/
def WeakUndefined : Prop := o.strtab (o.symtab n).stName = name ∧ (o.symtab n).bind = STB_WEAK ∧
  (o.symtab n).stShndx = 0#16

/-- `_elf_lookup` returns symbol `n`. -/
def Accepts : Prop := o.Defining name n ∨ o.WeakUndefined name n

instance : DecidablePred (o.Named name) := fun _ => inferInstanceAs (Decidable (_ ∧ _))
instance : DecidablePred (o.Defining name) := fun _ => inferInstanceAs (Decidable (_ ∧ _))
instance : DecidablePred (o.WeakUndefined name) := fun _ => inferInstanceAs (Decidable (_ ∧ _))
instance : DecidablePred (o.Accepts name) := fun _ => inferInstanceAs (Decidable (_ ∨ _))

/-- The object defines the name in its symbol table. -/
def Defines : Prop := ∃ n < o.nchain, n ≠ 0 ∧ o.Defining name n

end Obj

/-- No chain has a cycle or leaves the table, and every definition is on the chain of its name. -/
structure WellFormed (o : Obj) : Prop where
  nbucket : 0 < o.nbucket
  acyclic : ∀ b < o.nbucket, ∃ l, Seg o.link (ref (o.bucket b)) l none ∧ ∀ n ∈ l, n < o.nchain
  complete : ∀ name n, n < o.nchain → n ≠ 0 → o.Defining name n → n ∈ o.chainOf name

/-! ### The search in one object -/

section One

variable {o : Obj} {name : CStr} {n : ℕ} {l : List ℕ}

theorem seg_ref_cons {a : ℕ} (h : Seg o.link (ref n) (a :: l) none) :
    n = a ∧ n ≠ 0 ∧ Seg o.link (ref (o.chain n)) l none := by
  obtain ⟨hr, hl⟩ := h
  unfold ref at hr
  split at hr
  · cases hr
  · next h0 =>
    cases hr
    exact ⟨rfl, h0, hl⟩

theorem eq_zero_of_seg_nil (h : Seg o.link (ref n) [] none) : n = 0 := by
  rw [seg_nil, ref] at h
  split at h
  · assumption
  · cases h

theorem walk_eq {fuel : ℕ} (h : Seg o.link (ref n) l none) (hf : l.length ≤ fuel) :
    o.walk fuel n = l := by
  induction l generalizing n fuel with
  | nil =>
      have h0 := eq_zero_of_seg_nil h
      cases fuel with
      | zero => rfl
      | succ fuel => rw [Obj.walk, if_pos h0]
  | cons a l ih =>
      obtain ⟨rfl, h0, hl⟩ := seg_ref_cons h
      cases fuel with
      | zero => exact absurd hf (by simp)
      | succ fuel => rw [Obj.walk, if_neg h0, ih hl (Nat.le_of_succ_le_succ hf)]

/-- The test that the code makes: the case for global symbols falls through to that for weak ones. -/
theorem accepts_iff : o.Accepts name n ↔ o.strtab (o.symtab n).stName = name ∧
    (((o.symtab n).bind = STB_GLOBAL ∧ (o.symtab n).stShndx ≠ 0#16) ∨ (o.symtab n).bind = STB_WEAK) := by
  unfold Obj.Accepts Obj.Defining Obj.Named Obj.WeakUndefined
  by_cases h : (o.symtab n).stShndx = 0#16
  · simp [h]
  · simp [h]

theorem elfLookupFrom_eq {fuel : ℕ} (h : Seg o.link (ref n) l none) (hf : l.length < fuel) :
    elfLookupFrom o name fuel n = .ok (l.find? (o.Accepts name ·)) := by
  induction l generalizing n fuel with
  | nil =>
      obtain ⟨fuel, rfl⟩ := Nat.exists_eq_add_of_lt hf
      rw [elfLookupFrom, if_pos (eq_zero_of_seg_nil h)]
      rfl
  | cons a l ih =>
      obtain ⟨fuel, rfl⟩ := Nat.exists_eq_add_of_lt hf
      obtain ⟨rfl, h0, hl⟩ := seg_ref_cons h
      have hrec := ih hl (show l.length < l.length + 1 + fuel by omega)
      have hne : STB_WEAK ≠ STB_GLOBAL := by decide
      rw [elfLookupFrom, if_neg h0, List.length_cons, hrec]
      by_cases ha : o.Accepts name n
      · rw [List.find?_cons_of_pos (by simpa using ha)]
        obtain ⟨hn, ⟨hg, hs⟩ | hw⟩ := accepts_iff.1 ha
        · simp [hn, hg, hs]
        · simp [hn, hw, hne]
      · have ha' := mt accepts_iff.2 ha
        rw [List.find?_cons_of_neg (by simpa using ha)]
        generalize List.find? (o.Accepts name ·) l = r
        by_cases hn : o.strtab (o.symtab n).stName = name
        · by_cases hg : (o.symtab n).bind = STB_GLOBAL
          · have hs : (o.symtab n).stShndx = 0#16 := by
              by_contra hs
              exact ha' ⟨hn, Or.inl ⟨hg, hs⟩⟩
            simp [hn, hg, hs]
          · have hw : (o.symtab n).bind ≠ STB_WEAK := fun hw => ha' ⟨hn, Or.inr hw⟩
            simp [hn, hg, hw]
        · simp [hn]

/-- A chain without a cycle has fewer entries than the table. -/
theorem length_le (h : Seg o.link (ref n) l none) (hb : ∀ m ∈ l, m < o.nchain) : l.length ≤ o.nchain := by
  have hsub : l ⊆ List.range o.nchain := fun m hm => List.mem_range.2 (hb m hm)
  have hle := (h.nodup.subperm hsub).length_le
  rwa [List.length_range] at hle

theorem ne_zero_of_seg (h : Seg o.link (ref n) l none) : ∀ m ∈ l, m ≠ 0 := by
  induction l generalizing n with
  | nil => simp
  | cons a l ih =>
      obtain ⟨rfl, h0, hl⟩ := seg_ref_cons h
      intro m hm
      rcases List.mem_cons.1 hm with rfl | hm
      · exact h0
      · exact ih hl m hm

theorem WellFormed.mem_chainOf (hw : WellFormed o) (hn : n ∈ o.chainOf name) : n < o.nchain ∧ n ≠ 0 := by
  obtain ⟨l, hl, hb⟩ := hw.acyclic (o.bucketOf name) (Nat.mod_lt _ hw.nbucket)
  rw [Obj.chainOf, walk_eq hl (length_le hl hb)] at hn
  exact ⟨hb n hn, ne_zero_of_seg hl n hn⟩

theorem elfLookup_eq (hw : WellFormed o) (name : CStr) :
    elfLookup o (elfhash name) name = .ok ((o.chainOf name).find? (o.Accepts name ·)) := by
  obtain ⟨l, hl, hb⟩ := hw.acyclic (o.bucketOf name) (Nat.mod_lt _ hw.nbucket)
  have hlen := length_le hl hb
  rw [Obj.chainOf, walk_eq hl hlen]
  exact elfLookupFrom_eq hl (Nat.lt_succ_of_le hlen)

/-- The hash value is computed at most once, and is right whether it is or not. -/
theorem doLookupInSo_eq (hw : WellFormed o) {h : BitVec 32} (hh : h = 0 ∨ h = elfhash name) :
    doLookupInSo o name h = .ok ((o.chainOf name).find? (o.Accepts name ·), elfhash name) := by
  have he : (if h = 0 then elfhash name else h) = elfhash name := by
    split
    · rfl
    · next h0 => exact hh.resolve_left h0
  unfold doLookupInSo
  rw [he]
  dsimp only
  rw [elfLookup_eq hw]
  rfl

end One

/-! ### The search in all objects -/

section All

variable {E : Objects} {user : Option Ptr} {name : CStr}

/-- What the lookup finds in the object `p`. -/
def foundIn (E : Objects) (name : CStr) (p : Ptr) : Option Found :=
  (((E.so p).chainOf name).find? ((E.so p).Accepts name ·)).map fun n => ⟨p, n, (E.so p).base⟩

/-- The objects of `l` that the loop over `solist` looks into. -/
def searched (E : Objects) (user : Option Ptr) (l : List Ptr) : List Ptr :=
  l.filter fun p => ¬ ((E.so p).error = true ∨ user = some p)

/-- The objects in the order in which `_do_lookup` looks into them. -/
def searchOrder (E : Objects) (user : Option Ptr) : List Ptr :=
  user.toList ++ searched E user E.solist

theorem searchSolist_eq (hw : ∀ p ∈ searched E user E.solist, WellFormed (E.so p)) (l : List Ptr)
    (hl : ∀ p ∈ l, p ∈ E.solist) {h : BitVec 32} (hh : h = 0 ∨ h = elfhash name) :
    searchSolist E user name l h = .ok ((searched E user l).findSome? (foundIn E name)) := by
  induction l generalizing h with
  | nil => rfl
  | cons p l ih =>
      have hl' : ∀ q ∈ l, q ∈ E.solist := fun q hq => hl q (List.mem_cons_of_mem _ hq)
      unfold searchSolist searched
      by_cases hs : (E.so p).error = true ∨ user = some p
      · rw [if_pos hs, List.filter_cons_of_neg (by rw [decide_eq_true_iff]; exact not_not_intro hs)]
        exact ih hl' hh
      · have hp : p ∈ searched E user E.solist :=
          List.mem_filter.2 ⟨hl p List.mem_cons_self, by simpa using hs⟩
        rw [if_neg hs, List.filter_cons_of_pos (by simpa using hs), List.findSome?_cons,
          doLookupInSo_eq (hw p hp) hh]
        unfold foundIn
        cases ((E.so p).chainOf name).find? ((E.so p).Accepts name ·) with
        | some n => rfl
        | none => exact ih hl' (Or.inr rfl)

theorem doLookup_ok (hw : ∀ p ∈ searchOrder E user, WellFormed (E.so p)) :
    doLookup E user name = .ok ((searchOrder E user).findSome? (foundIn E name)) := by
  cases user with
  | none => exact searchSolist_eq hw E.solist (fun _ hp => hp) (Or.inl rfl)
  | some u =>
      have hw' : ∀ p ∈ searched E (some u) E.solist, WellFormed (E.so p) :=
        fun p hp => hw p (List.mem_cons_of_mem _ hp)
      unfold doLookup searchOrder
      dsimp only
      rw [doLookupInSo_eq (hw u List.mem_cons_self) (Or.inl rfl), Option.toList_some,
        List.singleton_append, List.findSome?_cons]
      unfold foundIn
      cases ((E.so u).chainOf name).find? ((E.so u).Accepts name ·) with
      | some n => rfl
      | none => exact searchSolist_eq hw' E.solist (fun _ hp => hp) (Or.inr rfl)

theorem doLookupNonLocal_ok {u : Ptr} (hw : ∀ p ∈ searched E (some u) E.solist, WellFormed (E.so p)) :
    doLookupNonLocal E (some u) name =
      .ok ((searched E (some u) E.solist).findSome? (foundIn E name)) :=
  searchSolist_eq hw E.solist (fun _ hp => hp) (Or.inl rfl)

theorem foundIn_eq_some {p : Ptr} {f : Found} (h : foundIn E name p = some f) :
    f.obj = p ∧ f.base = (E.so p).base ∧ (E.so p).Accepts name f.sym ∧
      ∃ c d, (E.so p).chainOf name = c ++ f.sym :: d ∧ ∀ m ∈ c, ¬ (E.so p).Accepts name m := by
  unfold foundIn at h
  obtain ⟨n, hn, rfl⟩ := Option.map_eq_some_iff.1 h
  obtain ⟨ha, c, d, hcd, hc⟩ := List.find?_eq_some_iff_append.1 hn
  exact ⟨rfl, rfl, by simpa using ha, c, d, hcd, fun m hm => by simpa using hc m hm⟩

theorem foundIn_eq_none {p : Ptr} (h : foundIn E name p = none) :
    ∀ n ∈ (E.so p).chainOf name, ¬ (E.so p).Accepts name n := by
  unfold foundIn at h
  intro n hn
  simpa using List.find?_eq_none.1 (Option.map_eq_none_iff.1 h) n hn

theorem not_defines_of_foundIn {p : Ptr} (hw : WellFormed (E.so p)) (h : foundIn E name p = none) :
    ¬ (E.so p).Defines name := by
  rintro ⟨n, hn, h0, hd⟩
  exact foundIn_eq_none h n (hw.complete name n hn h0 hd) (Or.inl hd)

/-- Two splits of one list. -/
theorem append_cons_cases {α : Type} {a b a' b' : List α} {x y : α}
    (h : a ++ x :: b = a' ++ y :: b') : y ∈ a ∨ (a = a' ∧ x = y) ∨ x ∈ a' := by
  rcases List.append_eq_append_iff.1 h with ⟨c, rfl, hc⟩ | ⟨c, rfl, hc⟩
  · cases c with
    | nil =>
        obtain ⟨hxy, -⟩ := List.cons.inj hc
        exact Or.inr (Or.inl ⟨(List.append_nil a).symm, hxy⟩)
    | cons z c =>
        obtain ⟨rfl, -⟩ := List.cons.inj hc
        exact Or.inr (Or.inr (by simp))
  · cases c with
    | nil =>
        obtain ⟨hxy, -⟩ := List.cons.inj hc
        exact Or.inr (Or.inl ⟨List.append_nil a', hxy.symm⟩)
    | cons z c =>
        obtain ⟨rfl, -⟩ := List.cons.inj hc
        exact Or.inl (by simp)

/-- The search finds an acceptable entry of `q`, unless it finds something in an object before `q`, or
before that entry in `q`. -/
theorem found_eq {l a b : List Ptr} {f : Found} {q : Ptr} {n : ℕ} {c d : List ℕ}
    (hf : l.findSome? (foundIn E name) = some f) (hab : l = a ++ q :: b)
    (hcd : (E.so q).chainOf name = c ++ n :: d) (hn : (E.so q).Accepts name n) (ha : f.obj ∉ a)
    (hc : f.obj = q → f.sym ∉ c) : f.obj = q ∧ f.sym = n := by
  obtain ⟨l₁, p, l₂, hl, hfp, hl₁⟩ := List.findSome?_eq_some_iff.1 hf
  obtain ⟨rfl, -, -, c', d', hcd', hc'⟩ := foundIn_eq_some hfp
  obtain hq | ⟨-, rfl⟩ | hfa := append_cons_cases (hl.symm.trans hab)
  · exact absurd hn (foundIn_eq_none (hl₁ q hq) n (by simp [hcd]))
  · obtain hn' | ⟨-, hsym⟩ | hfc := append_cons_cases (hcd'.symm.trans hcd)
    · exact absurd hn (hc' n hn')
    · exact ⟨rfl, hsym⟩
    · exact absurd hfc (hc rfl)
  · exact absurd hfa ha

/-! ### What the lookup should return -/

/-- `r` is the definition in the first object that has one, or null if there is none. -/
def Resolves (E : Objects) (user : Option Ptr) (name : CStr) : Option Found → Prop
  | none => ∀ p ∈ searchOrder E user, ¬ (E.so p).Defines name
  | some f => ∃ a b, searchOrder E user = a ++ f.obj :: b ∧ (∀ p ∈ a, ¬ (E.so p).Defines name) ∧
      (E.so f.obj).Defining name f.sym ∧ f.base = (E.so f.obj).base

/-- The search meets a weak undefined symbol of the name before any definition. -/
def MeetsWeakUndefined (E : Objects) (user : Option Ptr) (name : CStr) : Prop :=
  ∃ a p b, searchOrder E user = a ++ p :: b ∧ (∀ q ∈ a, ¬ (E.so q).Defines name) ∧
    ∃ c n d, (E.so p).chainOf name = c ++ n :: d ∧ (E.so p).WeakUndefined name n ∧
      ∀ m ∈ c, ¬ (E.so p).Defining name m

/-- For every set of loaded objects with well-formed hash tables, `_do_lookup` returns, and what it
returns is right if and only if it does not meet a weak undefined symbol first. -/
theorem resolves_iff (hw : ∀ p ∈ searchOrder E user, WellFormed (E.so p)) (name : CStr) :
    ∃ r, doLookup E user name = .ok r ∧ (Resolves E user name r ↔ ¬ MeetsWeakUndefined E user name) := by
  refine ⟨_, doLookup_ok hw, ?_⟩
  cases hr : (searchOrder E user).findSome? (foundIn E name) with
  | none =>
      have hnone := List.findSome?_eq_none_iff.1 hr
      apply iff_of_true (fun p hp => not_defines_of_foundIn (hw p hp) (hnone p hp))
      rintro ⟨a, p, b, hab, -, c, n, d, hcd, hu, -⟩
      have hp : p ∈ searchOrder E user := by simp [hab]
      exact foundIn_eq_none (hnone p hp) n (by simp [hcd]) (Or.inr hu)
  | some f =>
      obtain ⟨l₁, p, l₂, hl, hf, hl₁⟩ := List.findSome?_eq_some_iff.1 hr
      obtain ⟨rfl, hbase, hacc, c, d, hcd, hc⟩ := foundIn_eq_some hf
      have hmem : ∀ q ∈ l₁, q ∈ searchOrder E user := fun q hq => by simp [hl, hq]
      have hbefore : ∀ q ∈ l₁, ¬ (E.so q).Defines name :=
        fun q hq => not_defines_of_foundIn (hw q (hmem q hq)) (hl₁ q hq)
      constructor
      · rintro ⟨-, -, -, -, hdef, -⟩ ⟨a, q, b, hab, ha, c', n, d', hcd', hu, hc'⟩
        have hfo : f.obj ∈ searchOrder E user := by simp [hl]
        have hmemf := (hw f.obj hfo).mem_chainOf (show f.sym ∈ (E.so f.obj).chainOf name by simp [hcd])
        have hfirst : f.obj ∉ a := fun hfa => ha f.obj hfa ⟨f.sym, hmemf.1, hmemf.2, hdef⟩
        obtain ⟨rfl, rfl⟩ := found_eq hr hab hcd' (Or.inr hu) hfirst fun e hfc =>
          hc' f.sym hfc (e ▸ hdef)
        exact hdef.2 hu.2.2
      · intro hno
        refine ⟨l₁, l₂, hl, hbefore, ?_, hbase⟩
        refine hacc.resolve_right fun hu => hno ⟨l₁, f.obj, l₂, hl, hbefore, c, f.sym, d, hcd, hu, ?_⟩
        exact fun m hm hd => hc m hm (Or.inl hd)

end All

/-! ### A library with one symbol -/

/-- An object whose only symbol has the given name, `st_info` and `st_shndx`. -/
def oneSymbol (name : CStr) (stInfo : BitVec 8) (stShndx : BitVec 16) (base : BitVec 32) : Obj where
  symtab _ := ⟨1, 0x100, 4, stInfo, stShndx⟩
  strtab _ := name
  nbucket := 1
  nchain := 2
  bucket _ := 1
  chain _ := 0
  base := base
  error := false

theorem wellFormed_oneSymbol (name : CStr) (i : BitVec 8) (x : BitVec 16) (b : BitVec 32) :
    WellFormed (oneSymbol name i x b) where
  nbucket := Nat.one_pos
  acyclic _ _ := ⟨[1], ⟨rfl, rfl⟩, by simp [oneSymbol]⟩
  complete _ n hn h0 _ := by
    have hn : n < 2 := hn
    obtain rfl : n = 1 := by omega
    exact List.mem_singleton_self 1

/-- The program (entry 0 of the pool) has a reference to `foo` with the given `st_info`, and a library
(entry 1) defines `foo`. -/
def referenceAndLibrary (stInfo : BitVec 8) : Objects where
  so p := if p = .pool 0 then oneSymbol "foo".toList stInfo 0 0x8000
    else oneSymbol "foo".toList 0x12 5 0x40000000
  solist := [.pool 0, .pool 1]

theorem wellFormed_referenceAndLibrary (i : BitVec 8) (p : Ptr) :
    WellFormed ((referenceAndLibrary i).so p) := by
  unfold referenceAndLibrary
  dsimp only
  split
  · exact wellFormed_oneSymbol _ _ _ _
  · exact wellFormed_oneSymbol _ _ _ _

/-- A global reference is skipped, and the lookup returns the definition of the library. -/
theorem resolves_global_reference :
    Resolves (referenceAndLibrary 0x12) (some (.pool 0)) "foo".toList (some ⟨.pool 1, 1, 0x40000000⟩) := by
  obtain ⟨r, hr, hres⟩ := @resolves_iff (referenceAndLibrary 0x12) (some (.pool 0))
    (fun p _ => wellFormed_referenceAndLibrary _ p) "foo".toList
  obtain rfl : r = some ⟨.pool 1, 1, 0x40000000⟩ := Except.ok.inj (hr.symm.trans (by decide))
  apply hres.2
  rintro ⟨-, p, -, -, -, -, n, -, -, ⟨-, hbind, -⟩, -⟩
  have hglobal : (((referenceAndLibrary 0x12).so p).symtab n).bind = STB_GLOBAL := by
    unfold referenceAndLibrary
    dsimp only
    split <;> simp [oneSymbol, Sym.bind, STB_GLOBAL]
  exact absurd (hglobal.symm.trans hbind) (by decide)

/-- A weak reference is returned although the library defines `foo`. -/
theorem weak_reference_wins :
    (∀ p, WellFormed ((referenceAndLibrary 0x20).so p)) ∧
    ((referenceAndLibrary 0x20).so (.pool 1)).Defines "foo".toList ∧
    doLookup (referenceAndLibrary 0x20) (some (.pool 0)) "foo".toList = .ok (some ⟨.pool 0, 1, 0x8000⟩) ∧
    ¬ Resolves (referenceAndLibrary 0x20) (some (.pool 0)) "foo".toList (some ⟨.pool 0, 1, 0x8000⟩) := by
  refine ⟨wellFormed_referenceAndLibrary _, ⟨1, by decide, by decide, by decide⟩, by decide, ?_⟩
  rintro ⟨-, -, -, -, hdef, -⟩
  exact absurd hdef (by decide)

end Bionic.ElfLookup
