import Bionic.Reloc

/-! # The dynamic section (`link_image` in `linker/linker.c`)

`link_image` walks over the pairs of a tag and a value from `si->dynamic` on, and then divides the sizes of the
relocation tables by the sizes of their entries; every later `_elf_lookup` in the library divides by `nbucket`.  A tag may
be missing, or come more than once, so that the last one counts (`scan_field`).  The check for essential tables asks for
`strtab` and `symtab` only; `divides_iff` says which sections make one of the divisors 0.

* **Memory.**  The loop reads the section where it stands.  It also writes, for the debugger: `DT_DEBUG` and
  `DT_MIPS_RLD_MAP` may change what is read behind them, so an entry comes with the memory at the time it is read.
* **Fields.**  The tags that fill in fields which nothing here reads (constructors, destructors, the global offset tables
  of single targets) go through the default case. -/

namespace Bionic.DynamicSection

open ByteMemory StateExcept

abbrev Word := BitVec 32

/-! ### Data -/

@[match_pattern] abbrev DT_PLTRELSZ : ℕ := 2
@[match_pattern] abbrev DT_PLTGOT : ℕ := 3
@[match_pattern] abbrev DT_HASH : ℕ := 4
@[match_pattern] abbrev DT_STRTAB : ℕ := 5
@[match_pattern] abbrev DT_SYMTAB : ℕ := 6
@[match_pattern] abbrev DT_RELA : ℕ := 7
@[match_pattern] abbrev DT_RELASZ : ℕ := 8
@[match_pattern] abbrev DT_RELAENT : ℕ := 9
@[match_pattern] abbrev DT_SYMENT : ℕ := 11
@[match_pattern] abbrev DT_REL : ℕ := 17
@[match_pattern] abbrev DT_RELSZ : ℕ := 18
@[match_pattern] abbrev DT_RELENT : ℕ := 19
@[match_pattern] abbrev DT_PLTREL : ℕ := 20
@[match_pattern] abbrev DT_DEBUG : ℕ := 21
@[match_pattern] abbrev DT_JMPREL : ℕ := 23
@[match_pattern] abbrev DT_MIPS_RLD_MAP : ℕ := 0x70000016

/-- The fields of a `soinfo` that are filled in from the section and read below. -/
structure Soinfo where
  base : Addr
  strtab : Addr := 0
  symtab : Addr := 0
  symEnt : Word := 0
  nbucket : Word := 0
  nchain : Word := 0
  bucket : Addr := 0
  chain : Addr := 0
  pltGot : Addr := 0
  pltType : Word := 0
  pltRel : Addr := 0
  pltRelSz : Word := 0
  pltRelEnt : Word := 0
  pltRelCount : Word := 0
  rel : Addr := 0
  relSz : Word := 0
  relEnt : Word := 0
  relCount : Word := 0
  rela : Addr := 0
  relaSz : Word := 0
  relaEnt : Word := 0
  relaCount : Word := 0

/-- The target, and the address of `_r_debug`. -/
structure Target where
  arch : Ba.Arch
  endian : Endian
  rDebug : Addr

/-- A tag and a value, and the memory when they are read. -/
structure Entry where
  tag : Word
  value : Word
  mem : Mem

/-! ### The code -/

section Code

variable (L : Target)

/-- The `soinfo` of `alloc_info`, and the defaults of `link_image`: the sizes of `Elf32_Rel`, `Elf32_Rela` and
`Elf32_Sym`. -/
def defaults (base : Addr) : Soinfo :=
  let pltType : ℕ := if L.arch = .ppc then DT_RELA else DT_REL
  { base := base
    relEnt := 8
    relaEnt := 12
    symEnt := 16
    pltType := BitVec.ofNat 32 pltType
    pltRelEnt := if pltType = DT_REL then 8 else 12 }

/-- What the `switch` assigns to the fields. -/
def setField (si : Soinfo) (e : Entry) : Soinfo :=
  match e.tag.toNat with
  | DT_HASH =>
      let nbucket := read32 L.endian e.mem (si.base + e.value)
      { si with
        nbucket := nbucket
        nchain := read32 L.endian e.mem (si.base + e.value + 4)
        bucket := si.base + e.value + 8
        chain := si.base + e.value + 8 + nbucket * 4 }
  | DT_STRTAB => { si with strtab := si.base + e.value }
  | DT_SYMTAB => { si with symtab := si.base + e.value }
  | DT_SYMENT => { si with symEnt := e.value }
  | DT_PLTREL => { si with pltType := e.value }
  | DT_JMPREL => { si with pltRel := si.base + e.value }
  | DT_PLTRELSZ => { si with pltRelSz := e.value }
  | DT_REL => { si with rel := si.base + e.value }
  | DT_RELA => { si with rela := si.base + e.value }
  | DT_RELSZ => { si with relSz := e.value }
  | DT_RELASZ => { si with relaSz := e.value }
  | DT_RELENT => { si with relEnt := e.value }
  | DT_RELAENT => { si with relaEnt := e.value }
  | DT_PLTGOT => { si with pltGot := si.base + e.value }
  | _ => si

variable {L} in
theorem base_setField (si : Soinfo) (e : Entry) : (setField L si e).base = si.base := by
  unfold setField
  split <;> rfl

/-- Why `link_image` does not come to the relocations. -/
inductive Stop where
  /-- `goto fail`. -/
  | rejected
  | divideByZero
  | outOfFuel
deriving DecidableEq, Repr

/-- What the `switch` stores for the debugger; `d` is the address of the value. -/
def tellDebugger (d : Addr) (e : Entry) : Mem :=
  if L.arch = .mips then
    if e.tag.toNat = DT_MIPS_RLD_MAP ∧ e.value ≠ 0 then write32 L.endian e.mem e.value L.rDebug else e.mem
  else if e.tag.toNat = DT_DEBUG then write32 L.endian e.mem d L.rDebug
  else e.mem

/-- The pair at `d`. -/
def entryAt (m : Mem) (d : Addr) : Entry := ⟨read32 L.endian m d, read32 L.endian m (d + 4), m⟩

/-- The test of `DT_PLTREL`. -/
def Entry.Unsupported (e : Entry) : Prop :=
  e.tag.toNat = DT_PLTREL ∧ e.value.toNat ≠ DT_REL ∧ e.value.toNat ≠ DT_RELA

instance (e : Entry) : Decidable e.Unsupported := inferInstanceAs (Decidable (_ ∧ _))

/-- The loop over the section. -/
def scan : ℕ → Addr → Soinfo → Mem → Except Stop (Soinfo × Mem)
  | 0, _, _, _ => .error .outOfFuel
  | fuel + 1, d, si, m =>
      let e := entryAt L m d
      if e.tag = 0 then .ok (si, m)
      else if e.Unsupported then .error .rejected
      else scan fuel (d + 8) (setField L si e) (tellDebugger L (d + 4) e)

def divide (a b : Word) : Except Stop Word := if b = 0 then .error .divideByZero else .ok (a / b)

/-- `if (size > 0) count = size / ent`. -/
def divideInto (size ent count : Word) : Except Stop Word := if size > 0 then divide size ent else .ok count

/-- The numbers of entries of the relocation tables. -/
def counts (si : Soinfo) : Except Stop Soinfo := do
  let plt ← divideInto si.pltRelSz si.pltRelEnt si.pltRelCount
  let rel ← divideInto si.relSz si.relEnt si.relCount
  let rela ← divideInto si.relaSz si.relaEnt si.relaCount
  return { si with pltRelCount := plt, relCount := rel, relaCount := rela }

/-- The check for essential tables. -/
def checkTables (si : Soinfo) : Except Stop Soinfo :=
  if si.strtab = 0 ∨ si.symtab = 0 then .error .rejected else .ok si

/-- `link_image` up to the check for essential tables. -/
def linkTables (fuel : ℕ) (d base : Addr) (m : Mem) : Except Stop (Soinfo × Mem) := do
  let r ← scan L fuel d (defaults L base) m
  let si ← checkTables (← counts r.1)
  return (si, r.2)

end Code

/-- `hash % si->nbucket`, at the start of `_elf_lookup`. -/
def bucketIndex (si : Soinfo) (hash : Word) : Except Stop Word :=
  if si.nbucket = 0 then .error .divideByZero else .ok (hash % si.nbucket)

/-! ### The entries of a section -/

/-- The pairs that the loop reads. -/
def entries (L : Target) : ℕ → Addr → Mem → List Entry
  | 0, _, _ => []
  | fuel + 1, d, m =>
      if (entryAt L m d).tag = 0 then []
      else entryAt L m d :: entries L fuel (d + 8) (tellDebugger L (d + 4) (entryAt L m d))

/-- The last entry with a tag. -/
def lastEntry (tag : ℕ) (es : List Entry) : Option Entry := es.reverse.find? fun e => e.tag.toNat = tag

/-- The value of the last entry with a tag, or the default. -/
def lastValue (tag : ℕ) (default : Word) (es : List Entry) : Word := (lastEntry tag es).elim default Entry.value

section Entries

variable {L : Target} {fuel : ℕ} {d : Addr} {si si' : Soinfo} {m m' : Mem} {es : List Entry} {e : Entry}

theorem scan_eq (h : scan L fuel d si m = .ok (si', m')) : si' = (entries L fuel d m).foldl (setField L) si := by
  induction fuel generalizing d si m with
  | zero => cases h
  | succ fuel ih =>
      unfold scan at h
      unfold entries
      dsimp only at h
      split at h
      · next hz =>
        cases h
        rw [if_pos hz]
        rfl
      · next hz =>
        split at h
        · cases h
        · rw [if_neg hz, List.foldl_cons]
          exact ih h

/-- A field that no tag sets keeps its value. -/
theorem scan_kept {α : Type} {field : Soinfo → α} (hset : ∀ si e, field (setField L si e) = field si) :
    field (es.foldl (setField L) si) = field si := by
  induction es generalizing si with
  | nil => rfl
  | cons e es ih => rw [List.foldl_cons, ih, hset]

/-- A field that one tag sets has the value of the last entry with that tag. -/
theorem scan_field {α : Type} {field : Soinfo → α} {tag : ℕ} {value : Entry → α}
    (hset : ∀ t e, t.base = si.base → field (setField L t e) = if e.tag.toNat = tag then value e else field t) :
    field (es.foldl (setField L) si) = (lastEntry tag es).elim (field si) value := by
  induction es using List.reverseRecOn with
  | nil => rfl
  | append_singleton es e ih =>
      have hlast : lastEntry tag (es ++ [e]) = if e.tag.toNat = tag then some e else lastEntry tag es := by
        rw [lastEntry, List.reverse_append, List.reverse_singleton, List.singleton_append, List.find?_cons, lastEntry]
        by_cases he : e.tag.toNat = tag <;> simp [he]
      rw [List.foldl_append, List.foldl_cons, List.foldl_nil, hset _ e (scan_kept base_setField), ih, hlast]
      by_cases he : e.tag.toNat = tag <;> simp [he]

/-- A field that takes the value of its entries. -/
theorem scan_value {field : Soinfo → Word} {tag : ℕ}
    (hset : ∀ t e, field (setField L t e) = if e.tag.toNat = tag then e.value else field t)
    (h : scan L fuel d si m = .ok (si', m')) : field si' = lastValue tag (field si) (entries L fuel d m) := by
  rw [scan_eq h, lastValue]
  apply scan_field
  exact fun t e _ => hset t e

theorem pltRelEnt_setField (si : Soinfo) (e : Entry) : (setField L si e).pltRelEnt = si.pltRelEnt := by
  unfold setField
  split <;> rfl

theorem relSz_setField (si : Soinfo) (e : Entry) :
    (setField L si e).relSz = if e.tag.toNat = DT_RELSZ then e.value else si.relSz := by
  unfold setField
  split <;> simp_all

theorem relEnt_setField (si : Soinfo) (e : Entry) :
    (setField L si e).relEnt = if e.tag.toNat = DT_RELENT then e.value else si.relEnt := by
  unfold setField
  split <;> simp_all

theorem relaSz_setField (si : Soinfo) (e : Entry) :
    (setField L si e).relaSz = if e.tag.toNat = DT_RELASZ then e.value else si.relaSz := by
  unfold setField
  split <;> simp_all

theorem relaEnt_setField (si : Soinfo) (e : Entry) :
    (setField L si e).relaEnt = if e.tag.toNat = DT_RELAENT then e.value else si.relaEnt := by
  unfold setField
  split <;> simp_all

theorem nbucket_setField (si : Soinfo) (e : Entry) : (setField L si e).nbucket =
    if e.tag.toNat = DT_HASH then read32 L.endian e.mem (si.base + e.value) else si.nbucket := by
  unfold setField
  split <;> simp_all

end Entries

/-! ### The divisors -/

/-- The loop comes to the end of the section, and the essential tables are there: `link_image` does not fail before the
relocations, but for the libraries that the section needs. -/
structure Accepts (L : Target) (fuel : ℕ) (d base : Addr) (m : Mem) (si : Soinfo) : Prop where
  ends : ∃ m', scan L fuel d (defaults L base) m = .ok (si, m')
  strtab : si.strtab ≠ 0
  symtab : si.symtab ≠ 0

/-- Neither `link_image` nor a later look-up in the library divides by zero. -/
structure Divides (L : Target) (fuel : ℕ) (d base : Addr) (m : Mem) : Prop where
  image : linkTables L fuel d base m ≠ .error .divideByZero
  lookup : ∀ si m', linkTables L fuel d base m = .ok (si, m') → ∀ hash, bucketIndex si hash ≠ .error .divideByZero

/-- If there are relocations, the last entry that gives the size of one does not give 0; and there is a hash table, the
last one with at least one bucket. -/
structure Divisible (L : Target) (base : Addr) (es : List Entry) : Prop where
  rel : lastValue DT_RELSZ 0 es = 0 ∨ lastValue DT_RELENT 8 es ≠ 0
  rela : lastValue DT_RELASZ 0 es = 0 ∨ lastValue DT_RELAENT 12 es ≠ 0
  hash : ∃ e, lastEntry DT_HASH es = some e ∧ read32 L.endian e.mem (base + e.value) ≠ 0

section Divisors

variable {L : Target} {fuel : ℕ} {d base : Addr} {si si' : Soinfo} {m m' : Mem}

theorem divide_cases (a b c : Word) : ((a = 0 ∨ b ≠ 0) ∧ ∃ q, divideInto a b c = .ok q) ∨
    (¬ (a = 0 ∨ b ≠ 0) ∧ divideInto a b c = .error .divideByZero) := by
  unfold divideInto divide
  by_cases ha : a = 0
  · exact Or.inl ⟨Or.inl ha, c, if_neg (by simp [ha])⟩
  · have hpos : a > 0 := by
      rw [gt_iff_lt, BitVec.lt_def]
      exact Nat.pos_of_ne_zero fun h => ha (BitVec.eq_of_toNat_eq h)
    rw [if_pos hpos]
    by_cases hb : b = 0
    · exact Or.inr ⟨not_or.2 ⟨ha, not_not_intro hb⟩, if_pos hb⟩
    · exact Or.inl ⟨Or.inr hb, a / b, if_neg hb⟩

/-- The three divisions. -/
theorem counts_cases (hp : si.pltRelEnt ≠ 0) :
    ((si.relSz = 0 ∨ si.relEnt ≠ 0) ∧ (si.relaSz = 0 ∨ si.relaEnt ≠ 0) ∧
      ∃ p r ra, counts si = .ok { si with pltRelCount := p, relCount := r, relaCount := ra }) ∨
    (¬ ((si.relSz = 0 ∨ si.relEnt ≠ 0) ∧ (si.relaSz = 0 ∨ si.relaEnt ≠ 0)) ∧
      counts si = .error .divideByZero) := by
  unfold counts
  obtain ⟨-, p, hplt⟩ | ⟨hno, -⟩ := divide_cases si.pltRelSz si.pltRelEnt si.pltRelCount
  · rw [hplt, ok_bind]
    obtain ⟨hr, r, hrel⟩ | ⟨hr, hrel⟩ := divide_cases si.relSz si.relEnt si.relCount
    · rw [hrel, ok_bind]
      obtain ⟨hra, ra, hrela⟩ | ⟨hra, hrela⟩ := divide_cases si.relaSz si.relaEnt si.relaCount
      · rw [hrela]
        exact Or.inl ⟨hr, hra, p, r, ra, rfl⟩
      · rw [hrela]
        exact Or.inr ⟨fun h => hra h.2, rfl⟩
    · rw [hrel]
      exact Or.inr ⟨fun h => hr h.1, rfl⟩
  · exact absurd (Or.inr hp) hno

theorem pltRelEnt_ne_zero (h : scan L fuel d (defaults L base) m = .ok (si, m')) : si.pltRelEnt ≠ 0 := by
  rw [scan_eq h, scan_kept pltRelEnt_setField, defaults]
  dsimp only
  split <;> decide

/-- The divisors, from the entries of the section. -/
theorem divisible_iff (h : scan L fuel d (defaults L base) m = .ok (si, m')) : Divisible L base (entries L fuel d m) ↔
    (si.relSz = 0 ∨ si.relEnt ≠ 0) ∧ (si.relaSz = 0 ∨ si.relaEnt ≠ 0) ∧ si.nbucket ≠ 0 := by
  have hrelSz : si.relSz = lastValue DT_RELSZ 0 (entries L fuel d m) := scan_value relSz_setField h
  have hrelEnt : si.relEnt = lastValue DT_RELENT 8 (entries L fuel d m) := scan_value relEnt_setField h
  have hrelaSz : si.relaSz = lastValue DT_RELASZ 0 (entries L fuel d m) := scan_value relaSz_setField h
  have hrelaEnt : si.relaEnt = lastValue DT_RELAENT 12 (entries L fuel d m) := scan_value relaEnt_setField h
  have hnbucket : si.nbucket = (lastEntry DT_HASH (entries L fuel d m)).elim 0
      fun e => read32 L.endian e.mem (base + e.value) := by
    have hset : ∀ t e, t.base = (defaults L base).base → (setField L t e).nbucket =
        if e.tag.toNat = DT_HASH then read32 L.endian e.mem (base + e.value) else t.nbucket := by
      intro t e ht
      rw [nbucket_setField, ht]
      rfl
    rw [scan_eq h, scan_field hset]
    rfl
  rw [hrelSz, hrelEnt, hrelaSz, hrelaEnt, hnbucket]
  constructor
  · rintro ⟨hr, hra, e, he, hn⟩
    refine ⟨hr, hra, ?_⟩
    rw [he]
    exact hn
  · rintro ⟨hr, hra, hn⟩
    refine ⟨hr, hra, ?_⟩
    cases he : lastEntry DT_HASH (entries L fuel d m) with
    | none =>
        rw [he] at hn
        exact absurd rfl hn
    | some e =>
        rw [he] at hn
        exact ⟨e, rfl, hn⟩

/-- For every section whose tables `link_image` accepts, its divisions and those of all later look-ups are by nonzero
numbers if and only if the last `DT_RELENT` and the last `DT_RELAENT` are not 0 where they are needed, and the last
`DT_HASH` has buckets. -/
theorem divides_iff (ha : Accepts L fuel d base m si) :
    Divides L fuel d base m ↔ Divisible L base (entries L fuel d m) := by
  obtain ⟨⟨m', h⟩, hstr, hsym⟩ := ha
  rw [divisible_iff h]
  obtain ⟨hr, hra, p, r, ra, hok⟩ | ⟨hno, herr⟩ := counts_cases (pltRelEnt_ne_zero h)
  · have hrun : linkTables L fuel d base m =
        .ok ({ si with pltRelCount := p, relCount := r, relaCount := ra }, m') := by
      rw [linkTables, h, ok_bind, hok, ok_bind, checkTables, if_neg (not_or.2 ⟨hstr, hsym⟩)]
      rfl
    constructor
    · intro hdiv
      refine ⟨hr, hra, fun hn => ?_⟩
      exact hdiv.lookup _ m' hrun 0 (if_pos hn)
    · rintro ⟨-, -, hn⟩
      refine ⟨fun he => ?_, fun si' m₁ hres hash he => ?_⟩
      · rw [hrun] at he
        cases he
      · rw [hrun] at hres
        cases hres
        rw [bucketIndex, if_neg hn] at he
        cases he
  · have hrun : linkTables L fuel d base m = .error .divideByZero := by
      rw [linkTables, h, ok_bind, herr]
      rfl
    constructor
    · intro hdiv
      exact absurd hrun hdiv.image
    · rintro ⟨hr, hra, -⟩
      exact absurd ⟨hr, hra⟩ hno

end Divisors

/-! ### Sections with a string table and a symbol table -/

/-- The memory with the given words at address 0x1000, and zeros elsewhere. -/
def words (ws : List Word) : Mem :=
  (List.range ws.length).foldl (fun m i => write32 .little m (wordAt 0x1000 i) (ws.getD i 0)) fun _ => 0

def arm : Target := ⟨.arm, .little, 0x100⟩

/-- A section at 0x1000 with two more words behind it, for a hash table. -/
def sectionWith (es : List Word) : Mem := words ([5, 0x100, 6, 0x200] ++ es ++ [0, 1, 2])

theorem accepts_of_any {e : List Word} (h : (scan arm 5 0x1000 (defaults arm 0x1000) (sectionWith e)).toOption.any
    fun r => decide (r.1.strtab ≠ 0 ∧ r.1.symtab ≠ 0)) : ∃ si, Accepts arm 5 0x1000 0x1000 (sectionWith e) si := by
  obtain ⟨r, hr, htables⟩ := exists_ok_of_any h
  obtain ⟨hstr, hsym⟩ := of_decide_eq_true htables
  exact ⟨r.1, ⟨r.2, hr⟩, hstr, hsym⟩

/-- With relocations of the default size and a hash table, nothing is divided by zero. -/
theorem divides_hashed : ∃ si, Accepts arm 5 0x1000 0x1000 (sectionWith [18, 16, 4, 0x24]) si ∧
    Divides arm 5 0x1000 0x1000 (sectionWith [18, 16, 4, 0x24]) := by
  obtain ⟨si, hsi⟩ := accepts_of_any (e := [18, 16, 4, 0x24]) (by decide)
  refine ⟨si, hsi, (divides_iff hsi).2 ⟨Or.inr (by decide), Or.inl (by decide), ?_⟩⟩
  have hlast : ((lastEntry DT_HASH (entries arm 5 0x1000 (sectionWith [18, 16, 4, 0x24]))).any fun e =>
      decide (read32 .little e.mem (0x1000 + e.value) ≠ 0)) = true := by decide
  obtain ⟨e, he, hn⟩ := (Option.any_eq_true _ _).1 hlast
  exact ⟨e, he, of_decide_eq_true hn⟩

/-- A section without `DT_HASH` is accepted, and the first look-up in the library divides by zero. -/
theorem accepted_not_divides : ¬ ∀ L fuel d base m si, Accepts L fuel d base m si → Divides L fuel d base m := by
  intro h
  obtain ⟨si, hsi⟩ := accepts_of_any (e := []) (by decide)
  obtain ⟨r, hr, hn⟩ := exists_ok_of_any (x := linkTables arm 5 0x1000 0x1000 (sectionWith []))
    (p := fun r => decide (r.1.nbucket = 0)) (by decide)
  exact (h _ _ _ _ _ si hsi).lookup r.1 r.2 hr 0 (if_pos (of_decide_eq_true hn))

end Bionic.DynamicSection
