import Bionic.Worklist
import Mathlib.Algebra.Order.BigOperators.Group.List
import Mathlib.Algebra.Order.Group.Nat

/-! # The headers that are needed (`libc/kernel/tools/kernel.py`)

`KernelHeaderFinder` follows the includes of kernel headers, once for each architecture, whose name is put into the
paths below `asm/`.  The lines of the files and the includes that the preprocessor leaves in them for an architecture
are inputs, and so is the order in which a set is run through.

The scanner keeps all the headers that it has met, so each round of the loop runs through the includes of all files
before it again.  The queue is a `Worklist`, and `scanForAllArchs_eq` gives the result. -/

namespace Bionic.HeaderFinder

open Worklist (Closed Reach)

abbrev Name := List Char

/-! ### Sets of users -/

/-- A dictionary of sets. -/
abbrev Users := List (Name × List Name)

def keys (d : Users) : List Name := d.map Prod.fst

local instance lawfulBEqName : LawfulBEq Name := inferInstance

/-- `if not key in d: d[key] = set()` -/
def ensure (d : Users) (key : Name) : Users := if key ∈ keys d then d else d ++ [(key, [])]

/-- `d[key].add(user)` -/
def addUser (d : Users) (key user : Name) : Users :=
  d.map fun e => if e.1 = key then (key, e.2.insert user) else e

def getHeaderUsers (d : Users) (key : Name) : List Name := (d.lookup key).getD []

/-! ### `HeaderScanner` -/

/-- The characters that the regular expressions take for those of a path. -/
def isPathChar (c : Char) : Bool := c.isAlphanum || c ∈ ['_', '+', '.', '-', '/']

/-- A greedy `.*` before a pattern finds its last match. -/
def lastMatch (pattern : Name → Option Name) : Name → Option Name
  | [] => none
  | c :: cs => (lastMatch pattern cs).or (pattern (c :: cs))

/-- Characters of a path between two delimiters. -/
def delimited (opening closing : Char) : Name → Option Name
  | [] => none
  | c :: cs =>
      if c = opening ∧ (cs.dropWhile isPathChar).head? = some closing then some (cs.takeWhile isPathChar) else none

def kernelDirs : List Name := ["linux".toList, "asm".toList, "asm-generic".toList, "mtd".toList]

/-- `re_combined` -/
def matchCombined (line : Name) : Option Name :=
  let isKernelPath (path : Name) : Bool := kernelDirs.any fun dir => (dir ++ ['/']).isPrefixOf path
  lastMatch (fun s => (delimited '<' '>' s).filter isKernelPath) line

/-- `re_rel_dir` -/
def matchRelDir (line : Name) : Option Name :=
  lastMatch (fun s => (delimited '"' '"' s).filter fun path => path ≠ []) line

/-- A file: its lines, and for each architecture the includes that are left in it behind the preprocessor. -/
structure File where
  lines : List Name
  findIncludes : Name → List Name

/-- The sources: the directory of the headers, the files, and the directory of each file below that of the headers. -/
structure Kernel where
  root : Name
  files : List (Name × File)
  hdrDir : Name → Name

/-- The header that `checkInclude` finds in an include, if any. -/
def Kernel.headerOf (k : Kernel) (file line : Name) : Option Name :=
  match matchCombined line with
  | some header => some header
  | none =>
      if k.root = [] then none
      else
        let dir := k.hdrDir file
        let parent := if dir = [] then [] else dir ++ ['/']
        (matchRelDir line).map (parent ++ ·)

/-- `checkInclude` -/
def checkInclude (k : Kernel) (file : Name) (headers : Users) (line : Name) : Users :=
  match k.headerOf file line with
  | none => headers
  | some header => addUser (ensure headers header) header file

/-- The quick look at the lines of a file before it is parsed. -/
def Kernel.hasIncludes (k : Kernel) (file : File) : Bool :=
  file.lines.any fun line => (matchCombined line).isSome || k.root ≠ [] && (matchRelDir line).isSome

/-- `parseFile`.  The file may not exist. -/
def parseFile (k : Kernel) (arch path : Name) (headers : Users) : Users :=
  match k.files.lookup path with
  | none => headers
  | some file =>
      if k.hasIncludes file then (file.findIncludes arch).foldl (checkInclude k path) headers else headers

/-- The headers that `parseFile` reports. -/
def Kernel.includes (k : Kernel) (arch path : Name) : List Name := keys (parseFile k arch path [])

/-! ### `KernelHeaderFinder` -/

/-- `"asm/"` -/
def asm : Name := ['a', 's', 'm', '/']

/-- The prefix that `setArch` sets, if there is an architecture. -/
def archDir (arch : Name) : Option Name := if arch = [] then none else some ("asm-".toList ++ arch ++ ['/'])

def pathFromHeader (arch header : Name) : Name :=
  match archDir arch with
  | none => header
  | some dir => if asm <+: header then dir ++ header.drop 4 else header

/-- The order in which the headers of the scanner are run through, in each round. -/
structure Order where
  run : ℕ → List Name → List Name
  mem : ∀ i l x, x ∈ run i l ↔ x ∈ l

/-- The variables of `scanForArch`. -/
structure Scan where
  headers : Users
  workqueue : List Name
  i : ℕ
  needed : Users

/-- A header that is searched. -/
def searchHeader (arch : Name) (s : Scan) (h : Name) : Scan :=
  let path := pathFromHeader arch h
  { s with needed := ensure s.needed path, workqueue := s.workqueue ++ [path] }

def search (arch : Name) (searched : List Name) : Scan := searched.foldl (searchHeader arch) ⟨[], [], 0, []⟩

/-- The inner loop, for a header. -/
def useHeader (arch : Name) (s : Scan) (used : Name) : Scan :=
  let path := pathFromHeader arch used
  let s := if path ∈ keys s.needed then s
    else { s with needed := ensure s.needed path, workqueue := s.workqueue ++ [path] }
  { s with needed := (getHeaderUsers s.headers used).foldl (fun d user => addUser d path user) s.needed }

/-- A round of the loop over the queue. -/
def visit (k : Kernel) (order : Order) (arch : Name) (s : Scan) : Scan :=
  let headers := parseFile k arch (k.root ++ s.workqueue.getD s.i []) s.headers
  (order.run s.i (keys headers)).foldl (useHeader arch) { s with headers := headers, i := s.i + 1 }

/-- What `scanForArch` needs is copied into the global list. -/
def copyNeeded (needed global : Users) : Users :=
  needed.foldl (fun d e => e.2.foldl (fun d user => addUser d e.1 user) (ensure d e.1)) global

/-- `scanForArch`.  None if the loop has not ended after so many rounds. -/
def scanForArch (k : Kernel) (order : Order) (searched : List Name) (fuel : ℕ) (arch : Name) (global : Users) :
    Option Users :=
  (Worklist.loop (fun s : Scan => s.i < s.workqueue.length) (visit k order arch) fuel (search arch searched)).map
    fun s => copyNeeded s.needed global

/-- `scanForAllArchs`, from the `n`-th architecture on. -/
def scanFrom (k : Kernel) (order : ℕ → Order) (searched : List Name) (fuel : ℕ) :
    ℕ → List Name → Users → Option Users
  | _, [], global => some global
  | n, arch :: archs, global =>
      (scanForArch k (order n) searched fuel arch global).bind (scanFrom k order searched fuel (n + 1) archs)

/-- `scanForAllArchs` -/
def scanForAllArchs (k : Kernel) (order : ℕ → Order) (searched archs : List Name) (fuel : ℕ) : Option (List Name) :=
  (scanFrom k order searched fuel 0 archs []).map keys

/-! ### The keys of the dictionaries -/

section

variable {d : Users} {key user x : Name}

theorem mem_keys_ensure : x ∈ keys (ensure d key) ↔ x ∈ keys d ∨ x = key := by
  rw [ensure]
  by_cases old : key ∈ keys d
  · rw [if_pos old]
    exact ⟨.inl, fun h => h.elim id (· ▸ old)⟩
  · rw [if_neg old]
    simp [keys]

@[simp] theorem keys_addUser : keys (addUser d key user) = keys d := by
  rw [keys, addUser, List.map_map, keys]
  refine List.map_congr_left fun e _ => ?_
  by_cases same : e.1 = key
  · simp [same]
  · simp [same]

@[simp] theorem keys_foldl_addUser (users : List Name) :
    keys (users.foldl (fun d user => addUser d key user) d) = keys d := by
  induction users generalizing d with
  | nil => rfl
  | cons user users ih => rw [List.foldl_cons, ih, keys_addUser]

theorem mem_keys_copyNeeded (needed : Users) : x ∈ keys (copyNeeded needed d) ↔ x ∈ keys d ∨ x ∈ keys needed := by
  rw [copyNeeded]
  induction needed generalizing d with
  | nil => simp [keys]
  | cons e needed ih =>
      rw [List.foldl_cons, ih, keys_foldl_addUser, mem_keys_ensure]
      simp only [keys, List.map_cons, List.mem_cons, or_assoc]

end

theorem mem_keys_foldl_checkInclude (k : Kernel) (file : Name) {lines : List Name} {headers : Users} {x : Name} :
    x ∈ keys (lines.foldl (checkInclude k file) headers) ↔
      x ∈ keys headers ∨ ∃ line ∈ lines, k.headerOf file line = some x := by
  induction lines generalizing headers with
  | nil => simp
  | cons line lines ih =>
      rw [List.foldl_cons, ih, checkInclude, List.exists_mem_cons_iff]
      cases header_eq : k.headerOf file line with
      | none => simp
      | some header => simp only [keys_addUser, mem_keys_ensure, Option.some.injEq, eq_comm (a := x), or_assoc]

/-- A file adds the same headers whatever was found before. -/
theorem mem_keys_parseFile {k : Kernel} {arch path x : Name} {headers : Users} :
    x ∈ keys (parseFile k arch path headers) ↔ x ∈ keys headers ∨ x ∈ k.includes arch path := by
  rw [Kernel.includes, parseFile, parseFile]
  split
  · exact (or_iff_left nofun).symm
  · split
    · rw [mem_keys_foldl_checkInclude, mem_keys_foldl_checkInclude, or_iff_right (a := x ∈ keys []) nofun]
    · exact (or_iff_left nofun).symm

/-! ### The queue of an architecture -/

/-- The resolved includes of a header. -/
def succ (k : Kernel) (arch p : Name) : Set Name := {q | ∃ u ∈ k.includes arch (k.root ++ p), q = pathFromHeader arch u}

/-- The resolved includes of all files. -/
def allPaths (k : Kernel) (arch : Name) : List Name :=
  (k.files.flatMap fun f => k.includes arch f.1).map (pathFromHeader arch)

theorem mem_allPaths {k : Kernel} {arch path u : Name} (h : u ∈ k.includes arch path) :
    pathFromHeader arch u ∈ allPaths k arch := by
  cases found : k.files.lookup path with
  | none =>
      rw [Kernel.includes, parseFile, found] at h
      cases h
  | some file =>
      obtain ⟨before, after, split_at, -⟩ := List.lookup_eq_some_iff.1 found
      refine List.mem_map_of_mem (List.mem_flatMap.2 ⟨(path, file), ?_, h⟩)
      exact split_at ▸ List.mem_append_right _ List.mem_cons_self

/-- What the loop over the queue keeps. -/
structure Inv (k : Kernel) (searched : List Name) (arch : Name) (s : Scan) : Prop where
  queue : Worklist.Inv (searched.map (pathFromHeader arch)) (succ k arch) (allPaths k arch) s.workqueue s.i
  needed : ∀ p, p ∈ keys s.needed ↔ p ∈ s.workqueue
  headers : ∀ h ∈ keys s.headers, ∃ p ∈ s.workqueue, h ∈ k.includes arch (k.root ++ p)

/-- The loop over the headers that are searched. -/
theorem foldl_search (arch : Name) (l : List Name) {s : Scan} (same : ∀ p, p ∈ keys s.needed ↔ p ∈ s.workqueue) :
    ∃ needed, l.foldl (searchHeader arch) s =
        { s with needed := needed, workqueue := s.workqueue ++ l.map (pathFromHeader arch) } ∧
      ∀ p, p ∈ keys needed ↔ p ∈ s.workqueue ++ l.map (pathFromHeader arch) := by
  induction l generalizing s with
  | nil => exact ⟨s.needed, by simp, by simpa using same⟩
  | cons h l ih =>
      obtain ⟨needed, eq, keys_eq⟩ := ih (s := searchHeader arch s h) fun p => by
        rw [searchHeader, mem_keys_ensure, same, List.mem_append, List.mem_singleton]
      rw [searchHeader, List.append_assoc] at keys_eq
      refine ⟨needed, ?_, keys_eq⟩
      rw [List.foldl_cons, eq, searchHeader, List.append_assoc]
      rfl

theorem search_inv (k : Kernel) (arch : Name) (searched : List Name) : Inv k searched arch (search arch searched) := by
  obtain ⟨needed, eq, keys_eq⟩ := foldl_search arch searched (s := ⟨[], [], 0, []⟩) fun _ => Iff.rfl
  rw [search, eq]
  exact ⟨.zero _ _ _, keys_eq, nofun⟩

theorem useHeader_old {arch h : Name} {s : Scan} (old : pathFromHeader arch h ∈ keys s.needed) :
    ∃ needed, useHeader arch s h = { s with needed := needed } ∧ keys needed = keys s.needed := by
  rw [useHeader, if_pos old]
  exact ⟨_, rfl, keys_foldl_addUser _⟩

theorem useHeader_new {arch h : Name} {s : Scan} (fresh : pathFromHeader arch h ∉ keys s.needed) :
    ∃ needed, useHeader arch s h =
        { s with needed := needed, workqueue := s.workqueue ++ [pathFromHeader arch h] } ∧
      ∀ p, p ∈ keys needed ↔ p ∈ keys s.needed ∨ p = pathFromHeader arch h := by
  rw [useHeader, if_neg fresh]
  exact ⟨_, rfl, fun p => by rw [keys_foldl_addUser, mem_keys_ensure]⟩

/-- The inner loop appends the paths that are new. -/
theorem foldl_useHeader (arch : Name) (l : List Name) {s : Scan} (same : ∀ p, p ∈ keys s.needed ↔ p ∈ s.workqueue) :
    ∃ needed new, l.foldl (useHeader arch) s = { s with needed := needed, workqueue := s.workqueue ++ new } ∧
      (∀ p, p ∈ keys needed ↔ p ∈ s.workqueue ++ new) ∧ new.Nodup ∧ (∀ p ∈ new, p ∉ s.workqueue) ∧
      (∀ p ∈ new, ∃ h ∈ l, p = pathFromHeader arch h) ∧ ∀ h ∈ l, pathFromHeader arch h ∈ s.workqueue ++ new := by
  induction l generalizing s with
  | nil => exact ⟨s.needed, [], by simp, by simpa using same, .nil, nofun, nofun, nofun⟩
  | cons h l ih =>
      rw [List.foldl_cons]
      by_cases old : pathFromHeader arch h ∈ keys s.needed
      · obtain ⟨needed₁, step, keys₁⟩ := useHeader_old old
        obtain ⟨needed, new, eq, keys_eq, unique, fresh, used, done⟩ := ih (s := { s with needed := needed₁ })
          (fun p => by rw [keys₁]; exact same p)
        refine ⟨needed, new, by rw [step, eq], keys_eq, unique, fresh, fun p hp => ?_, ?_⟩
        · obtain ⟨u, hu, eq⟩ := used p hp
          exact ⟨u, List.mem_cons_of_mem _ hu, eq⟩
        · exact List.forall_mem_cons.2 ⟨List.mem_append_left _ ((same _).1 old), done⟩
      · obtain ⟨needed₁, step, keys₁⟩ := useHeader_new old
        obtain ⟨needed, new, eq, keys_eq, unique, fresh, used, done⟩ := ih
          (s := { s with needed := needed₁, workqueue := s.workqueue ++ [pathFromHeader arch h] })
          (fun p => by rw [keys₁, same, List.mem_append, List.mem_singleton])
        simp only [List.append_assoc, List.singleton_append] at eq keys_eq done
        refine ⟨needed, pathFromHeader arch h :: new, by rw [step, eq], keys_eq, ?_, ?_, ?_, ?_⟩
        · refine List.nodup_cons.2 ⟨fun again => ?_, unique⟩
          exact fresh _ again (List.mem_append_right _ List.mem_cons_self)
        · refine List.forall_mem_cons.2 ⟨fun again => old ((same _).2 again), fun p hp again => ?_⟩
          exact fresh p hp (List.mem_append_left _ again)
        · refine List.forall_mem_cons.2 ⟨⟨h, List.mem_cons_self, rfl⟩, fun p hp => ?_⟩
          obtain ⟨u, hu, eq⟩ := used p hp
          exact ⟨u, List.mem_cons_of_mem _ hu, eq⟩
        · exact List.forall_mem_cons.2 ⟨List.mem_append_right _ List.mem_cons_self, done⟩

/-- A round of the loop. -/
theorem Inv.visit {k : Kernel} {searched : List Name} {arch : Name} {s : Scan} (order : Order)
    (inv : Inv k searched arch s) (more : s.i < s.workqueue.length) :
    Inv k searched arch (visit k order arch s) ∧ (visit k order arch s).i = s.i + 1 := by
  set path := s.workqueue.getD s.i [] with path_eq
  have at_i : s.workqueue[s.i]? = some path := by
    rw [path_eq, List.getD_eq_getElem?_getD, List.getElem?_eq_getElem more, Option.getD_some]
  have path_mem : path ∈ s.workqueue := List.mem_of_getElem? at_i
  have met : ∀ h ∈ keys (parseFile k arch (k.root ++ path) s.headers),
      ∃ p ∈ s.workqueue, h ∈ k.includes arch (k.root ++ p) := by
    intro h hh
    rcases mem_keys_parseFile.1 hh with old | now
    · exact inv.headers h old
    · exact ⟨path, path_mem, now⟩
  obtain ⟨needed, new, eq, keys_eq, unique, fresh, used, done⟩ := foldl_useHeader arch
    (order.run s.i (keys (parseFile k arch (k.root ++ path) s.headers)))
    (s := { s with headers := parseFile k arch (k.root ++ path) s.headers, i := s.i + 1 }) inv.needed
  rw [HeaderFinder.visit, ← path_eq, eq]
  refine ⟨⟨inv.queue.next at_i unique fresh (fun p hp => ?_) (fun p hp => ?_) ?_, keys_eq, fun h hh => ?_⟩, rfl⟩
  · obtain ⟨h, hh, rfl⟩ := used p hp
    obtain ⟨q, -, hq⟩ := met h ((order.mem ..).1 hh)
    exact mem_allPaths hq
  · obtain ⟨h, hh, rfl⟩ := used p hp
    obtain ⟨q, q_mem, hq⟩ := met h ((order.mem ..).1 hh)
    exact Worklist.reach_next (inv.queue.reach q q_mem) ⟨h, hq, rfl⟩
  · rintro y ⟨u, hu, rfl⟩
    exact done u ((order.mem ..).2 (mem_keys_parseFile.2 (.inr hu)))
  · obtain ⟨p, p_mem, hp⟩ := met h hh
    exact ⟨p, List.mem_append_left _ p_mem, hp⟩

/-! ### The result -/

/-- What an architecture needs. -/
abbrev closure (k : Kernel) (searched : List Name) (arch : Name) : Set Name :=
  Reach {p | p ∈ searched.map (pathFromHeader arch)} (succ k arch)

theorem scanForArch_spec (k : Kernel) (order : Order) (searched : List Name) (arch : Name) (global : Users) {fuel : ℕ}
    (enough : searched.length + (allPaths k arch).length < fuel) :
    ∃ result, scanForArch k order searched fuel arch global = some result ∧
      ∀ p, p ∈ keys result ↔ p ∈ keys global ∨ p ∈ closure k searched arch := by
  obtain ⟨s, ends, inv, no_more⟩ := Worklist.loop_ends (P := Inv k searched arch)
    (m := fun s => searched.length + (allPaths k arch).length - s.i)
    (fun s inv (more : s.i < s.workqueue.length) => by
      obtain ⟨inv', i_eq⟩ := inv.visit order more
      have le := inv.queue.length_le
      rw [List.length_map] at le
      exact ⟨inv', by omega⟩)
    (search_inv k arch searched) (lt_of_le_of_lt (Nat.sub_le ..) enough)
  refine ⟨_, by rw [scanForArch, ends, Option.map_some], fun p => ?_⟩
  rw [mem_keys_copyNeeded, inv.needed, inv.queue.mem_iff (Nat.le_of_not_lt no_more)]

theorem scanFrom_spec (k : Kernel) (order : ℕ → Order) (searched : List Name) {fuel : ℕ} (archs : List Name)
    (enough : ∀ arch ∈ archs, searched.length + (allPaths k arch).length < fuel) (n : ℕ) (global : Users) :
    ∃ result, scanFrom k order searched fuel n archs global = some result ∧
      ∀ p, p ∈ keys result ↔ p ∈ keys global ∨ ∃ arch ∈ archs, p ∈ closure k searched arch := by
  induction archs generalizing n global with
  | nil => exact ⟨global, rfl, by simp⟩
  | cons arch archs ih =>
      obtain ⟨middle, ends, middle_keys⟩ := scanForArch_spec k (order n) searched arch global
        (enough arch List.mem_cons_self)
      obtain ⟨result, ends', keys_eq⟩ := ih (fun a ha => enough a (List.mem_cons_of_mem _ ha)) (n + 1) middle
      refine ⟨result, by rw [scanFrom, ends, Option.bind_some, ends'], fun p => ?_⟩
      rw [keys_eq, middle_keys, or_assoc, List.exists_mem_cons_iff]

/-- A set has the resolved headers that are searched, and the resolved includes of each path that it has. -/
def Resolved (k : Kernel) (searched : List Name) (arch : Name) (S : Set Name) : Prop :=
  (∀ h ∈ searched, pathFromHeader arch h ∈ S) ∧
    ∀ p ∈ S, ∀ u ∈ k.includes arch (k.root ++ p), pathFromHeader arch u ∈ S

theorem resolved_iff {k : Kernel} {searched : List Name} {arch : Name} {S : Set Name} :
    Resolved k searched arch S ↔ Closed {p | p ∈ searched.map (pathFromHeader arch)} (succ k arch) S := by
  refine and_congr ?_ (forall₂_congr fun p _ => ?_)
  · exact ⟨fun h p hp => by obtain ⟨u, hu, rfl⟩ := List.mem_map.1 hp; exact h u hu,
      fun h u hu => h (List.mem_map_of_mem hu)⟩
  · exact ⟨fun h q hq => by obtain ⟨u, hu, rfl⟩ := hq; exact h u hu, fun h u hu => h ⟨u, hu, rfl⟩⟩

/-- The scan ends, and what it returns is the union of the least resolved sets of the architectures. -/
theorem scanForAllArchs_eq (k : Kernel) (order : ℕ → Order) (searched archs : List Name) :
    ∃ least : Name → Set Name, (∀ arch, IsLeast {S | Resolved k searched arch S} (least arch)) ∧
      ∃ bound, ∀ fuel ≥ bound, ∃ result, scanForAllArchs k order searched archs fuel = some result ∧
        {p | p ∈ result} = ⋃ arch ∈ archs, least arch := by
  refine ⟨closure k searched, fun arch => ?_, ?_⟩
  · simp only [resolved_iff]
    exact Worklist.isLeast_reach ..
  · have bounded (arch : Name) (ha : arch ∈ archs) : searched.length + (allPaths k arch).length <
        (archs.map fun arch => searched.length + (allPaths k arch).length + 1).sum :=
      List.le_sum_of_mem (List.mem_map_of_mem (f := fun arch => searched.length + (allPaths k arch).length + 1) ha)
    refine ⟨(archs.map fun arch => searched.length + (allPaths k arch).length + 1).sum, fun fuel enough => ?_⟩
    obtain ⟨result, ends, keys_eq⟩ := scanFrom_spec k order searched archs
      (fun arch ha => lt_of_lt_of_le (bounded arch ha) enough) 0 []
    refine ⟨keys result, by rw [scanForAllArchs, ends, Option.map_some], Set.ext fun p => ?_⟩
    rw [Set.mem_ofPred_eq, keys_eq, Set.mem_iUnion₂]
    simp [keys]

end Bionic.HeaderFinder
