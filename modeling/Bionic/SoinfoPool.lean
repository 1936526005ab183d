import Bionic.LinkedList
import Bionic.LinkerFrame

/-! # The pool of `soinfo` structures (`alloc_info` and `free_info`)

In `linker.c` the list of loaded objects and the list of free pool entries are linked through the one
field `next`, with `sonext` pointing to the last loaded object.  This is the model with pointers: an
assignment is one to a field.

`Threads` says which lists the pointers form, and `allocInfo_threads` and `freeInfo_threads` what
becomes of them.  From these follow `pool_partition`, about all sequences of calls, and
`allocInfo_refines` and `freeInfo_refines`: the lists of `Linker.State` are those that the pointers
form. -/

namespace Bionic.Linker.SoinfoPool

open LinkedList StateExcept

/-! ### The code -/

/-- The fields of the entries, and the variables, that `alloc_info` and `free_info` use; `solist` is
always `&libdl_info`. -/
structure Pool where
  next : Ptr → Option Ptr
  name : Ptr → CStr
  sonext : Ptr
  freelist : Option Ptr
  socount : ℕ

def solist : Ptr := .libdl

/-- The static initialisation. -/
def initial : Pool where
  next := fun _ => none
  name := fun si => if si = .libdl then "libdl.so".toList else []
  sonext := .libdl
  freelist := none
  socount := 0

namespace Pool

def setNext (P : Pool) (si : Ptr) (p : Option Ptr) : Pool :=
  { P with next := Function.update P.next si p }

/-- `freelist = sopool + socount++` and the assignment to its `next`. -/
def grow (P : Pool) : Pool :=
  { P.setNext (.pool P.socount) none with
    freelist := some (.pool P.socount), socount := P.socount + 1 }

/-- The part of `alloc_info` behind the test of `freelist`, which is `si`. -/
def take (P : Pool) (si : Ptr) (name : CStr) : Pool :=
  let P := { P with freelist := P.next si }
  let P := { P.setNext si none with name := Function.update P.name si name }
  let P := P.setNext P.sonext (some si)
  let P := P.setNext si none
  { P with sonext := si }

end Pool

/-- `alloc_info`. -/
def allocInfo (P : Pool) (name : CStr) : Option Ptr × Pool :=
  if SOINFO_NAME_LEN ≤ name.length then (none, P)
  else
    match P.freelist with
    | some si => (some si, P.take si name)
    | none =>
        if P.socount = SO_MAX then (none, P)
        else (some (.pool P.socount), P.grow.take (.pool P.socount) name)

/-- The search of `free_info`; the fuel bounds the number of entries visited. -/
def search (next : Ptr → Option Ptr) (si : Ptr) : ℕ → Option Ptr → Option Ptr →
    Except Fault (Option Ptr × Option Ptr)
  | 0, _, _ => .error .outOfFuel
  | _ + 1, none, prev => .ok (none, prev)
  | fuel + 1, some trav, prev =>
      if trav = si then .ok (some trav, prev) else search next si fuel (next trav) (some trav)

/-- Enough fuel for `search`: `libdl_info`, the pool, and the null pointer. -/
def searchDepth : ℕ := SO_MAX + 2

/-- `free_info`. -/
def freeInfo (P : Pool) (si : Ptr) : Except Fault Pool := do
  match ← search P.next si searchDepth (some solist) none with
  | (none, _) => return P
  | (some _, none) => throw (.nullPrev si)
  | (some _, some prev) =>
      let P := P.setNext prev (P.next si)
      let P := if si = P.sonext then { P with sonext := prev } else P
      let P := P.setNext si P.freelist
      return { P with freelist := some si }

/-! ### The lists -/

/-- The pointers form the list `l` of the loaded objects behind `libdl_info`, and the list `f` of the
free entries; together these are the used part of the pool. -/
structure Threads (P : Pool) (l f : List Ptr) : Prop where
  loaded : Seg P.next (some solist) (solist :: l) none
  last : (solist :: l).getLast? = some P.sonext
  free : Seg P.next P.freelist f none
  nodup : (solist :: l ++ f).Nodup
  used : ∀ x, x ∈ l ++ f ↔ ∃ i < P.socount, x = .pool i
  count : P.socount ≤ SO_MAX

theorem threads_initial : Threads initial [] [] := by
  refine ⟨⟨rfl, rfl⟩, rfl, rfl, List.nodup_singleton _, fun x => ?_, Nat.zero_le _⟩
  constructor
  · intro hx
    cases hx
  · rintro ⟨i, hi, -⟩
    exact absurd hi (Nat.not_lt_zero i)

namespace Threads

variable {P : Pool} {l f : List Ptr} {si : Ptr}

/-- The loaded objects in front of `sonext`. -/
theorem eq_append_sonext (h : Threads P l f) : ∃ l₀, solist :: l = l₀ ++ [P.sonext] :=
  List.getLast?_eq_some_iff.1 h.last

theorem take (h : Threads P l (si :: f)) (hf : P.freelist = some si) (name : CStr) :
    Threads (P.take si name) (l ++ [si]) f := by
  obtain ⟨l₀, hl₀⟩ := h.eq_append_sonext
  have hperm : (solist :: (l ++ [si]) ++ f).Perm (solist :: l ++ si :: f) := by simp
  have hsi : si ∉ solist :: l := by
    intro hm
    exact (List.nodup_append.1 h.nodup).2.2 si hm si List.mem_cons_self rfl
  have hsif : si ∉ f := (List.nodup_cons.1 (List.nodup_append.1 h.nodup).2.1).1
  have hsof : P.sonext ∉ f := by
    intro hm
    have hml : P.sonext ∈ solist :: l := by
      rw [hl₀]
      exact List.mem_append_right _ List.mem_cons_self
    exact (List.nodup_append.1 h.nodup).2.2 _ hml _ (List.mem_cons_of_mem _ hm) rfl
  refine ⟨?_, ?_, ?_, hperm.nodup_iff.2 h.nodup, ?_, h.count⟩
  · have hseg := h.loaded.update hsi none
    rw [hl₀] at hseg hsi
    have := hseg.push_back hsi
    rw [← hl₀] at this
    exact this
  · rw [← List.cons_append, List.getLast?_concat]
    rfl
  · have hfree := h.free
    rw [hf] at hfree
    exact ((hfree.2.update hsif _).update hsof _).update hsif _
  · intro x
    rw [← List.append_cons]
    exact h.used x

theorem grow (h : Threads P l []) (hc : P.socount < SO_MAX) :
    Threads P.grow l [.pool P.socount] := by
  have hnew : Ptr.pool P.socount ∉ solist :: l := by
    intro hm
    rcases List.mem_cons.1 hm with hm | hm
    · cases hm
    · obtain ⟨i, hi, he⟩ := (h.used _).1 (List.mem_append_left _ hm)
      cases he
      exact absurd hi (Nat.lt_irrefl _)
  refine ⟨h.loaded.update hnew _, h.last, ⟨rfl, ?_⟩, ?_, fun x => ?_, hc⟩
  · exact Function.update_self _ _ _
  · have hn := h.nodup
    rw [List.append_nil] at hn
    refine List.nodup_append.2 ⟨hn, List.nodup_singleton _, ?_⟩
    rintro a ha b hb rfl
    rw [List.mem_singleton.1 hb] at ha
    exact hnew ha
  · have hu := h.used x
    rw [List.append_nil] at hu
    rw [List.mem_append, List.mem_singleton, hu]
    constructor
    · rintro (⟨i, hi, hx⟩ | hx)
      · exact ⟨i, Nat.lt_succ_of_lt hi, hx⟩
      · exact ⟨P.socount, Nat.lt_succ_self _, hx⟩
    · rintro ⟨i, hi, hx⟩
      rcases Nat.lt_succ_iff_lt_or_eq.1 hi with hi | rfl
      · exact Or.inl ⟨i, hi, hx⟩
      · exact Or.inr hx

theorem freelist_nil (h : Threads P l []) : P.freelist = none := h.free

theorem freelist_cons (h : Threads P l (si :: f)) : P.freelist = some si := h.free.1

end Threads

/-! ### `alloc_info` -/

section Alloc

variable {P : Pool} {l f : List Ptr} {name : CStr}

theorem allocInfo_long (hn : SOINFO_NAME_LEN ≤ name.length) : allocInfo P name = (none, P) :=
  if_pos hn

/-- An entry from the free list goes behind all loaded objects. -/
theorem allocInfo_cons {si : Ptr} (h : Threads P l (si :: f)) (hn : name.length < SOINFO_NAME_LEN) :
    allocInfo P name = (some si, P.take si name) ∧ Threads (P.take si name) (l ++ [si]) f := by
  refine ⟨?_, h.take h.freelist_cons name⟩
  rw [allocInfo, if_neg (Nat.not_le.2 hn), h.freelist_cons]

/-- With an empty free list the next unused entry of the pool is taken. -/
theorem allocInfo_nil (h : Threads P l []) (hn : name.length < SOINFO_NAME_LEN)
    (hc : P.socount ≠ SO_MAX) :
    allocInfo P name = (some (.pool P.socount), P.grow.take (.pool P.socount) name) ∧
      Threads (P.grow.take (.pool P.socount) name) (l ++ [.pool P.socount]) [] := by
  have hg := h.grow (Nat.lt_of_le_of_ne h.count hc)
  refine ⟨?_, hg.take hg.freelist_cons name⟩
  rw [allocInfo, if_neg (Nat.not_le.2 hn), h.freelist_nil]
  exact if_neg hc

theorem allocInfo_full (h : Threads P l []) (hc : P.socount = SO_MAX) :
    allocInfo P name = (none, P) := by
  rw [allocInfo, h.freelist_nil]
  dsimp only
  rw [if_pos hc, ite_self]

theorem allocInfo_threads (h : Threads P l f) (name : CStr) : ∃ f',
    Threads (allocInfo P name).2 (l ++ (allocInfo P name).1.toList) f' := by
  by_cases hn : SOINFO_NAME_LEN ≤ name.length
  · rw [allocInfo_long hn, Option.toList_none, List.append_nil]
    exact ⟨f, h⟩
  rw [Nat.not_le] at hn
  cases f with
  | cons si f =>
      obtain ⟨he, ht⟩ := allocInfo_cons h hn
      rw [he]
      exact ⟨f, ht⟩
  | nil =>
      by_cases hc : P.socount = SO_MAX
      · rw [allocInfo_full h hc, Option.toList_none, List.append_nil]
        exact ⟨[], h⟩
      · obtain ⟨he, ht⟩ := allocInfo_nil h hn hc
        rw [he]
        exact ⟨[], ht⟩

/-- Every entry of the pool is loaded if and only if the free list is empty and the pool used up. -/
theorem Threads.full_iff (h : Threads P l f) :
    (∀ i < SO_MAX, Ptr.pool i ∈ l) ↔ f = [] ∧ P.socount = SO_MAX := by
  constructor
  · intro hall
    have hcount : P.socount = SO_MAX := by
      obtain ⟨i, hi, he⟩ := (h.used (.pool (SO_MAX - 1))).1
        (List.mem_append_left _ (hall (SO_MAX - 1) (by decide)))
      cases he
      have := h.count
      have hpos : 0 < SO_MAX := by decide
      omega
    refine ⟨List.eq_nil_iff_forall_not_mem.2 fun x hx => ?_, hcount⟩
    obtain ⟨i, hi, rfl⟩ := (h.used x).1 (List.mem_append_right _ hx)
    have hl := List.mem_cons_of_mem solist (hall i (hcount ▸ hi))
    exact (List.nodup_append.1 h.nodup).2.2 _ hl _ hx rfl
  · rintro ⟨rfl, hc⟩ i hi
    have hm := (h.used (.pool i)).2 ⟨i, hc ▸ hi, rfl⟩
    rwa [List.append_nil] at hm

theorem allocInfo_eq_none_iff (h : Threads P l f) (hn : name.length < SOINFO_NAME_LEN) :
    (allocInfo P name).1 = none ↔ ∀ i < SO_MAX, Ptr.pool i ∈ l := by
  rw [h.full_iff]
  cases f with
  | cons si f =>
      rw [(allocInfo_cons h hn).1]
      simp
  | nil =>
      by_cases hc : P.socount = SO_MAX
      · rw [allocInfo_full h hc]
        simp [hc]
      · rw [(allocInfo_nil h hn hc).1]
        simp [hc]

end Alloc

/-! ### `free_info` -/

section Free

variable {P : Pool} {next : Ptr → Option Ptr} {l r f : List Ptr} {si : Ptr}

theorem search_found {p prev : Option Ptr} {fuel : ℕ} (h : Seg next p (l ++ si :: r) none)
    (hsi : si ∉ l) (hf : l.length < fuel) :
    search next si fuel p prev = .ok (some si, l.getLast?.or prev) := by
  induction l generalizing p prev fuel with
  | nil =>
      obtain ⟨fuel, rfl⟩ := Nat.exists_eq_add_of_lt hf
      rw [h.1, search, if_pos rfl]
      rfl
  | cons a l ih =>
      obtain ⟨fuel, rfl⟩ := Nat.exists_eq_add_of_lt hf
      have hne : a ≠ si := fun he => hsi (he ▸ List.mem_cons_self)
      rw [h.1, search, if_neg hne,
        ih h.2 (fun hm => hsi (List.mem_cons_of_mem _ hm)) (by rw [List.length_cons]; omega)]
      rw [List.getLast?_cons]
      cases l.getLast? <;> rfl

/-- The fuel lasts. -/
theorem Threads.length_lt (h : Threads P l f) : (solist :: l).length < searchDepth := by
  have hsub : l ⊆ (List.range SO_MAX).map .pool := by
    intro x hx
    obtain ⟨i, hi, rfl⟩ := (h.used x).1 (List.mem_append_left _ hx)
    exact List.mem_map_of_mem (List.mem_range.2 (Nat.lt_of_lt_of_le hi h.count))
  have hnd := (List.nodup_cons.1 (List.nodup_append.1 h.nodup).1).2
  have hle := (hnd.subperm hsub).length_le
  rw [List.length_map, List.length_range] at hle
  rw [List.length_cons, searchDepth]
  omega

/-- The state after `free_info(si)` has found the predecessor `prev`. -/
def Pool.release (P : Pool) (si prev : Ptr) : Pool where
  next := Function.update (Function.update P.next prev (P.next si)) si P.freelist
  name := P.name
  sonext := if si = P.sonext then prev else P.sonext
  freelist := some si
  socount := P.socount

theorem freeInfo_eq_release {prev : Ptr}
    (h : search P.next si searchDepth (some solist) none = .ok (some si, some prev)) :
    freeInfo P si = .ok (P.release si prev) := by
  rw [freeInfo, h]
  by_cases he : si = P.sonext
  · simp [Pool.release, Pool.setNext, he, bind, Except.bind, pure, Except.pure]
  · simp [Pool.release, Pool.setNext, he, bind, Except.bind, pure, Except.pure]

theorem Threads.release {l₀ : List Ptr} {prev : Ptr} (h : Threads P l f)
    (hl : solist :: l = l₀ ++ prev :: si :: r) (hl' : solist :: l.erase si = l₀ ++ prev :: r) :
    Threads (P.release si prev) (l.erase si) (si :: f) := by
  have hnd := (List.nodup_append.1 h.nodup).1
  have hdis := (List.nodup_append.1 h.nodup).2.2
  have hsi : si ∈ solist :: l := by simp [hl]
  have hprev : prev ∈ solist :: l := by simp [hl]
  have hsil : si ∈ l := by
    by_contra hm
    rw [List.erase_of_not_mem hm, hl] at hl'
    simp at hl'
  have hperm : (l.erase si ++ si :: f).Perm (l ++ f) :=
    List.perm_middle.trans ((List.perm_cons_erase hsil).symm.append_right f)
  have hsi' : si ∉ l₀ ++ prev :: r := by
    rw [hl] at hnd
    obtain ⟨-, h₂, h₃⟩ := List.nodup_append.1 hnd
    obtain ⟨h₄, h₅⟩ := List.nodup_cons.1 h₂
    intro hm
    rcases List.mem_append.1 hm with hm | hm
    · exact h₃ si hm si (by simp) rfl
    · rcases List.mem_cons.1 hm with hm | hm
      · exact h₄ (hm ▸ List.mem_cons_self)
      · exact (List.nodup_cons.1 h₅).1 hm
  have hseg := h.loaded
  rw [hl] at hseg
  refine ⟨?_, ?_, ?_, (hperm.cons solist).nodup_iff.2 h.nodup,
    fun x => hperm.mem_iff.trans (h.used x), h.count⟩
  · rw [hl']
    exact hseg.unlink.update hsi' _
  · have hlast := h.last
    rw [hl] at hlast
    rw [hl']
    cases r with
    | nil =>
        rw [List.append_cons, List.getLast?_concat] at hlast
        rw [List.getLast?_concat, Pool.release, if_pos (Option.some.inj hlast)]
    | cons b r =>
        have he : l₀ ++ prev :: si :: b :: r = (l₀ ++ [prev, si]) ++ b :: r := by simp
        rw [he, List.getLast?_append_of_ne_nil _ (List.cons_ne_nil _ _)] at hlast
        have hne : si ≠ P.sonext := by
          intro hs
          have hm := List.mem_of_getLast? hlast
          rw [← hs] at hm
          exact hsi' (List.mem_append_right _ (List.mem_cons_of_mem _ hm))
        rw [List.append_cons, List.getLast?_append_of_ne_nil _ (List.cons_ne_nil _ _), Pool.release,
          if_neg hne]
        exact hlast
  · have hfree := h.free.update (fun hm => hdis prev hprev prev hm rfl) (P.next si)
    exact hfree.push_front fun hm => hdis si hsi si hm rfl

theorem freeInfo_threads (h : Threads P l f) (hsi : si ∈ l) : ∃ prev,
    freeInfo P si = .ok (P.release si prev) ∧ Threads (P.release si prev) (l.erase si) (si :: f) := by
  obtain ⟨l₁, l₂, hsi₁, rfl, herase⟩ := List.exists_erase_eq hsi
  obtain ⟨l₀, prev, hl₀⟩ : ∃ l₀ prev, solist :: l₁ = l₀ ++ [prev] :=
    ⟨_, _, (List.dropLast_append_getLast (List.cons_ne_nil _ _)).symm⟩
  have hne : si ≠ solist := fun he =>
    (List.nodup_cons.1 (List.nodup_append.1 h.nodup).1).1 (he ▸ hsi)
  have hnot : si ∉ solist :: l₁ := by
    intro hm
    rcases List.mem_cons.1 hm with hm | hm
    · exact hne hm
    · exact hsi₁ hm
  have hlen : (solist :: l₁).length < searchDepth := by
    have := h.length_lt
    rw [List.length_cons, List.length_append] at this
    rw [List.length_cons]
    omega
  have hs : search P.next si searchDepth (some solist) none = .ok (some si, some prev) := by
    rw [search_found (l := solist :: l₁) h.loaded hnot hlen, hl₀, List.getLast?_concat]
    rfl
  have hl : solist :: (l₁ ++ si :: l₂) = l₀ ++ prev :: si :: l₂ := by
    rw [← List.cons_append, hl₀, List.append_assoc]
    rfl
  have hl' : solist :: (l₁ ++ si :: l₂).erase si = l₀ ++ prev :: l₂ := by
    rw [herase, ← List.cons_append, hl₀, List.append_assoc]
    rfl
  exact ⟨prev, freeInfo_eq_release hs, h.release hl hl'⟩

end Free

/-! ### Sequences of calls -/

/-- The states reached by calls of `alloc_info`, and of `free_info` on entries that were allocated
and have not been freed since; `live` are these entries in the order of their allocation. -/
inductive Run : Pool → List Ptr → Prop where
  | init : Run initial []
  | alloc {P : Pool} {live : List Ptr} (name : CStr) : Run P live →
      Run (allocInfo P name).2 (live ++ (allocInfo P name).1.toList)
  | free {P P' : Pool} {live : List Ptr} {si : Ptr} : Run P live → si ∈ live →
      freeInfo P si = .ok P' → Run P' (live.erase si)

theorem run_threads {P : Pool} {live : List Ptr} (h : Run P live) : ∃ f, Threads P live f := by
  induction h with
  | init => exact ⟨[], threads_initial⟩
  | alloc name _ ih =>
      obtain ⟨f, hf⟩ := ih
      exact allocInfo_threads hf name
  | @free P P' live si _ hsi hfree ih =>
      obtain ⟨f, hf⟩ := ih
      obtain ⟨prev, he, ht⟩ := freeInfo_threads hf hsi
      rw [hfree] at he
      cases he
      exact ⟨si :: f, ht⟩

/-- In every state reached, the used part of the pool is split into the loaded objects, which form
`solist` behind `libdl_info` in the order of their allocation and end with `sonext`, and the free
list; `free_info` of a loaded object returns; and `alloc_info` with a short name fails if and only
if all entries of the pool are loaded. -/
theorem pool_partition {P : Pool} {live : List Ptr} (h : Run P live) :
    (∃ f, Threads P live f) ∧ (∀ si ∈ live, ∃ P', freeInfo P si = .ok P') ∧
      ∀ name : CStr, name.length < SOINFO_NAME_LEN →
        ((allocInfo P name).1 = none ↔ ∀ i < SO_MAX, Ptr.pool i ∈ live) := by
  obtain ⟨f, hf⟩ := run_threads h
  refine ⟨⟨f, hf⟩, fun si hsi => ?_, fun name hn => allocInfo_eq_none_iff hf hn⟩
  obtain ⟨prev, he, -⟩ := freeInfo_threads hf hsi
  exact ⟨_, he⟩

/-- After `alloc_info("a")`, `alloc_info("b")`, `free_info` of the first and `alloc_info("c")`. -/
def recycled : Pool :=
  (allocInfo ((allocInfo (allocInfo initial ['a']).2 ['b']).2.release (.pool 0) .libdl) ['c']).2

theorem run_recycled : Run recycled [.pool 1, .pool 0] := by
  have h₂ := (Run.init.alloc ['a']).alloc ['b']
  have hs : search (allocInfo (allocInfo initial ['a']).2 ['b']).2.next (.pool 0) searchDepth
      (some solist) none = .ok (some (.pool 0), some .libdl) := rfl
  exact (h₂.free (by decide) (freeInfo_eq_release hs)).alloc ['c']

theorem pool_partition_recycled :
    (∃ f, Threads recycled [.pool 1, .pool 0] f) ∧
      (∀ si ∈ [Ptr.pool 1, .pool 0], ∃ P', freeInfo recycled si = .ok P') ∧
      ∀ name : CStr, name.length < SOINFO_NAME_LEN →
        ((allocInfo recycled name).1 = none ↔ ∀ i < SO_MAX, Ptr.pool i ∈ [Ptr.pool 1, .pool 0]) :=
  pool_partition run_recycled

/-! ### The lists of `Linker.State` -/

/-- The lists of `s` are those that the pointers of `P` form. -/
structure Refines (s : State) (P : Pool) : Prop where
  threads : ∃ l, s.solist = solist :: l ∧ Threads P l s.freelist
  socount : P.socount = s.socount
  names : ∀ x ∈ s.solist, P.name x = (s.so x).name

theorem refines_poweredOn (beyond : ℕ → Ba.BaBits) : Refines (poweredOn beyond) initial := by
  refine ⟨⟨[], rfl, threads_initial⟩, rfl, fun x hx => ?_⟩
  rw [List.mem_singleton.1 hx]
  rfl

section Refine

variable {s : State} {P : Pool} {l f : List Ptr}

/-- The entry `si` has been appended in both. -/
theorem Refines.install (h : Refines s P) {Q : Pool} {si : Ptr} {name : CStr}
    (hl : s.solist = solist :: l) (ht : Threads Q (l ++ [si]) f) (hQ : Q.name = Function.update P.name si name) :
    Refines (s.install si name f Q.socount) Q := by
  have hsol : (s.install si name f Q.socount).solist = solist :: (l ++ [si]) := by
    rw [State.install, hl]
    rfl
  refine ⟨⟨_, hsol, ht⟩, rfl, fun x hx => ?_⟩
  rw [hQ]
  by_cases hx' : x = si
  · subst hx'
    simp [State.install]
  · rw [Function.update_of_ne hx']
    have hxs : x ∈ s.solist := by
      rw [hsol, ← List.cons_append, ← hl] at hx
      exact (List.mem_append.1 hx).resolve_right fun hm => hx' (List.mem_singleton.1 hm)
    rw [h.names x hxs]
    simp [State.install, hx']

theorem allocInfo_refines (h : Refines s P) (name : CStr) : ∃ s',
    Returns (Linker.allocInfo name) s (allocInfo P name).1 s' ∧ Refines s' (allocInfo P name).2 := by
  obtain ⟨l, hl, ht⟩ := h.threads
  by_cases hn : SOINFO_NAME_LEN ≤ name.length
  · rw [allocInfo_long hn]
    exact ⟨s, if_pos hn, h⟩
  have hn' := Nat.not_le.1 hn
  cases hf : s.freelist with
  | cons si f =>
      rw [hf] at ht
      obtain ⟨he, ht'⟩ := allocInfo_cons ht hn'
      have hr : Linker.allocInfo name s = .ok (some si, s.install si name f s.socount) := by
        simp [Linker.allocInfo, hn, hf]
      rw [he]
      refine ⟨_, hr, ?_⟩
      have hi := h.install hl ht' (show _ = Function.update P.name si name from rfl)
      rw [show (P.take si name).socount = s.socount from h.socount] at hi
      exact hi
  | nil =>
      rw [hf] at ht
      by_cases hc : P.socount = SO_MAX
      · rw [allocInfo_full ht hc]
        refine ⟨s, ?_, h⟩
        rw [h.socount] at hc
        simp [Returns, Linker.allocInfo, hf, hc]
      · obtain ⟨he, ht'⟩ := allocInfo_nil ht hn' hc
        have hr : Linker.allocInfo name s = .ok (some (.pool s.socount),
            s.install (.pool s.socount) name [] (s.socount + 1)) := by
          rw [h.socount] at hc
          simp [Linker.allocInfo, hn, hf, hc]
        rw [he]
        have hi := h.install hl ht' (show _ = Function.update P.name (.pool P.socount) name from rfl)
        rw [show (P.grow.take (.pool P.socount) name).socount = s.socount + 1 from
          congrArg (· + 1) h.socount, h.socount] at hi
        rw [h.socount]
        exact ⟨_, hr, hi⟩

theorem Refines.wf (h : Refines s P) : Wf s := by
  obtain ⟨l, hl, ht⟩ := h.threads
  refine ⟨?_, ?_, fun x hx => ?_, ?_⟩
  · rw [hl]
    rfl
  · rw [hl]
    exact ht.nodup
  · rw [hl, List.cons_append] at hx
    rcases List.mem_cons.1 hx with hx | hx
    · exact Or.inl hx
    · rw [← h.socount]
      exact Or.inr ((ht.used x).1 hx)
  · rw [← h.socount]
    exact ht.count

theorem freeInfo_refines (h : Refines s P) {si : Ptr} (hsi : si ∈ s.solist) (hne : si ≠ .libdl) :
    ∃ s' P', Returns (Linker.freeInfo si) s () s' ∧ freeInfo P si = .ok P' ∧ Refines s' P' := by
  obtain ⟨l, hl, ht⟩ := h.threads
  have hsil : si ∈ l := by
    rw [hl] at hsi
    exact (List.mem_cons.1 hsi).resolve_left hne
  obtain ⟨prev, hr⟩ := freeInfo_returns h.wf hsi hne
  obtain ⟨prev', he, ht'⟩ := freeInfo_threads ht hsil
  have hsol : (s.unlink si prev).solist = solist :: l.erase si := by
    rw [State.unlink, hl, List.erase_cons_tail (by simpa [solist] using Ne.symm hne)]
  refine ⟨_, _, hr, he, ⟨_, hsol, ht'⟩, h.socount, fun x hx => ?_⟩
  exact h.names x (List.mem_of_mem_erase hx)

end Refine

end Bionic.Linker.SoinfoPool
