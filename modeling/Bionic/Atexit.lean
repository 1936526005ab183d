import Mathlib

/-! # Exit handlers (`libc/stdlib/atexit.c`)

`__cxa_atexit` puts a handler into a table; `__cxa_finalize` calls the handlers of a shared object, or all of them.  A
handler may register more handlers, and it may call `__cxa_finalize` again, by `dlclose` or by `exit`.

* **The table.** A list of pages, `__atexit` being the last one and `next` the one before.  A page is the list of its first
  `ind` entries; there is room for `max` of them.
* **Calls.** The calls of `__cxa_finalize` that have not returned are a stack, the innermost one first.  A call goes through
  the table from the last entry to the first one and stops at every handler it calls until that handler returns.
* **Registering.** The steps of `__cxa_atexit` go on under a lock; other threads and handlers may call it at any time.  Where
  it fails before the entry is stored, nothing has changed.
* **Serial numbers.** Every registration has one, and it is on record what has been registered, called, and replaced by a
  new cleanup function.  The code has none of these. -/

namespace Bionic.Atexit

variable {F A D : Type*}

/-- `struct atexit_fn`.  The first entry of the table is reserved for the cleanup function. -/
structure Fn (F A D : Type*) where
  func : Option F
  arg : Option A
  dso : Option D
  serial : ℕ
  reserved : Bool
deriving DecidableEq, Repr

/-- A call of `__cxa_finalize`: the page `p` counted from the first one (0 is the null pointer), `n`, and whether a handler
runs that it has called.  On record are the handlers that were due at the call and those it has called, the last one first. -/
structure Frame (F A D : Type*) where
  dso : Option D
  page : ℕ
  n : ℕ
  running : Bool
  due : List (Fn F A D)
  called : List (Fn F A D)
deriving DecidableEq, Repr

/-- The variables of the source, and what has been done: the registrations, the handlers called, how many of these could not
be marked, and the cleanup functions that have been replaced. -/
structure State (F A D : Type*) where
  pages : List (List (Fn F A D))
  invalid : Bool
  callDepth : ℕ
  stack : List (Frame F A D)
  registered : List (Fn F A D)
  log : List (Fn F A D)
  unmarked : ℕ
  replaced : List (Fn F A D)
deriving DecidableEq, Repr

def start : State F A D := ⟨[], true, 0, [], [], [], 0, []⟩

/-! ### The source -/

/-- The memory of a new page is zero. -/
def vacant : Fn F A D := ⟨none, none, none, 0, true⟩

/-- There is no page, or the last one is full. -/
def needsPage (max : ℕ) (pages : List (List (Fn F A D))) : Bool := pages.getLast?.elim true fun p => max ≤ p.length + 1

/-- The table with one more entry. -/
def push (max : ℕ) (pages : List (List (Fn F A D))) (fn : Fn F A D) : List (List (Fn F A D)) :=
  if needsPage max pages then pages ++ [if pages.isEmpty then [vacant, fn] else [fn]]
  else pages.dropLast ++ [pages.getLast?.getD [] ++ [fn]]

/-- `__cxa_atexit` -/
def cxaAtexit (max : ℕ) (func : Option F) (arg : Option A) (dso : Option D) (s : State F A D) : State F A D :=
  let fn : Fn F A D := ⟨func, arg, dso, s.registered.length, false⟩
  { s with
    pages := push max s.pages fn
    invalid := s.invalid && !needsPage max s.pages
    registered := s.registered ++ [fn] }

/-- `__atexit_register_cleanup` -/
def atexitRegisterCleanup (func : Option F) (s : State F A D) : State F A D :=
  let fn : Fn F A D := ⟨func, none, none, s.registered.length, true⟩
  match s.pages with
  | [] => { s with pages := [[fn]], invalid := false, registered := s.registered ++ [fn] }
  | p :: pages =>
    { s with
      pages := p.set 0 fn :: pages
      registered := s.registered ++ [fn]
      replaced := p.head?.toList ++ s.replaced }

section Finalize

variable [DecidableEq D]

/-- The handler has not been called yet and belongs to `dso`. -/
def wanted (dso : Option D) (fn : Fn F A D) : Bool := fn.func.isSome && (dso.isNone || dso == fn.dso)

/-- `p->ind` -/
def ind (pages : List (List (Fn F A D))) (page : ℕ) : ℕ := if page = 0 then 0 else (pages[page - 1]?.getD []).length

/-- A call of `__cxa_finalize` begins. -/
def cxaFinalize (dso : Option D) (s : State F A D) : State F A D :=
  if s.invalid then s
  else
    { s with
      callDepth := s.callDepth + 1
      stack := ⟨dso, s.pages.length, ind s.pages s.pages.length, false, s.pages.flatten.filter (wanted dso), []⟩ :: s.stack }

/-- The end of a call of `__cxa_finalize`. -/
def leave (dso : Option D) (stack : List (Frame F A D)) (s : State F A D) : State F A D :=
  if dso.isNone then
    { s with callDepth := s.callDepth - 1, stack := stack, pages := if s.callDepth - 1 = 0 then [] else s.pages }
  else { s with stack := stack }

/-- `p->fns[n].fn_ptr.cxa_func = NULL` -/
def mark (pages : List (List (Fn F A D))) (page n : ℕ) : List (List (Fn F A D)) :=
  pages.modify (page - 1) fun p => p.modify n fun fn => { fn with func := none }

/-- The innermost call goes on: to the end, to the next page, or to the next entry.  `marks` says whether `mprotect` lets it
mark the handler that it calls.  It touches no page that is not there, or there is no next state. -/
def scan (marks : Bool) (f : Frame F A D) (stack : List (Frame F A D)) (s : State F A D) : Option (State F A D) :=
  if f.page = 0 then some (leave f.dso stack s)
  else
    s.pages[f.page - 1]?.bind fun p =>
      match f.n with
      | 0 => some { s with stack := { f with page := f.page - 1, n := ind s.pages (f.page - 1) } :: stack }
      | n + 1 =>
        p[n]?.map fun fn =>
          if wanted f.dso fn then
            { s with
              pages := if marks then mark s.pages f.page n else s.pages
              stack := { f with n := n, running := true, called := fn :: f.called } :: stack
              log := fn :: s.log
              unmarked := if marks then s.unmarked else s.unmarked + 1 }
          else { s with stack := { f with n := n } :: stack }

/-- One step of the program. -/
inductive Step (max : ℕ) : State F A D → State F A D → Prop
  | register (s : State F A D) (func : Option F) (arg : Option A) (dso : Option D) : Step max s (cxaAtexit max func arg dso s)
  | cleanup (s : State F A D) (func : Option F) : Step max s (atexitRegisterCleanup func s)
  | finalize (s : State F A D) (dso : Option D) (h : ∀ f ∈ s.stack.head?, f.running = true) :
      Step max s (cxaFinalize dso s)
  | scan (s s' : State F A D) (marks : Bool) (f : Frame F A D) (stack : List (Frame F A D)) (hs : s.stack = f :: stack)
      (hf : f.running = false) (h : scan marks f stack s = some s') : Step max s s'
  | back (s : State F A D) (f : Frame F A D) (stack : List (Frame F A D)) (hs : s.stack = f :: stack)
      (hf : f.running = true) : Step max s { s with stack := { f with running := false } :: stack }

/-- The states of all runs. -/
def Reachable (max : ℕ) : State F A D → Prop := Relation.ReflTransGen (Step max) start

end Finalize

/-! ### What holds in every state -/

/-- The place of an entry in the order of the calls: the cleanup function is the last one. -/
def Fn.key (fn : Fn F A D) : ℕ := if fn.reserved then 0 else fn.serial + 1

/-- The number of entries that a call has before it. -/
def left (pages : List (List (Fn F A D))) (f : Frame F A D) : ℕ :=
  if f.page = 0 then 0 else (pages.take (f.page - 1)).flatten.length + f.n

variable [DecidableEq D]

/-- What holds of a call of `__cxa_finalize` that has not returned. -/
structure FrameInv (s : State F A D) (f : Frame F A D) : Prop where
  page : f.page ≤ s.pages.length
  n : f.n ≤ ind s.pages f.page
  isDue : ∀ fn ∈ f.due, wanted f.dso fn
  due : ∀ fn ∈ f.due, fn ∈ s.log ∨ fn ∈ s.replaced ∨ fn ∈ s.pages.flatten.take (left s.pages f)
  ahead : ∀ fn ∈ s.pages.flatten.take (left s.pages f), wanted f.dso fn → fn ∈ f.due ∨ fn.reserved = true
  called : ∀ fn ∈ f.called, fn ∈ f.due ∨ fn.reserved = true
  order : f.called.Pairwise (Fn.key · < Fn.key ·)
  below : ∀ fn ∈ f.called, ∀ fn' ∈ s.pages.flatten.take (left s.pages f), fn'.key < fn.key

structure Inv (max : ℕ) (s : State F A D) : Prop where
  keys : s.pages.flatten.Pairwise (Fn.key · < Fn.key ·)
  small : ∀ fn ∈ s.pages.flatten, fn.key ≤ s.registered.length
  reserved : ∀ fn, s.pages.flatten.head? = some fn → fn.reserved = true
  live : ∀ fn ∈ s.pages.flatten, fn.func.isSome → s.registered[fn.serial]? = some fn
  logged : ∀ fn ∈ s.log, s.registered[fn.serial]? = some fn
  once : s.unmarked = 0 → ((s.log ++ s.pages.flatten.filter fun fn => fn.func.isSome).map Fn.serial).Nodup
  depth : s.stack.length ≤ s.callDepth
  pages : ∀ p ∈ s.pages, p ≠ [] ∧ p.length ≤ max
  frames : ∀ f ∈ s.stack, FrameInv s f

/-! ### The table -/

section Table

omit [DecidableEq D]

variable {pages : List (List (Fn F A D))} {p : List (Fn F A D)} {fn fn' : Fn F A D} {f : Frame F A D} {max page n i k : ℕ}

theorem mem_take_iff {α : Type*} {l : List α} {a : α} : a ∈ l.take k ↔ ∃ i, i < k ∧ l[i]? = some a := by
  rw [List.mem_iff_getElem?]
  constructor
  · rintro ⟨i, hi⟩
    rw [List.getElem?_take] at hi
    split_ifs at hi with hlt
    exact ⟨i, hlt, hi⟩
  · rintro ⟨i, hlt, hi⟩
    exact ⟨i, by rw [List.getElem?_take_of_lt hlt, hi]⟩

/-- The entries of the page `p` behind those of the pages before it. -/
theorem flatten_split (hp : pages[page - 1]? = some p) :
    pages.flatten = (pages.take (page - 1)).flatten ++ (p ++ (pages.drop page).flatten) ∨ page = 0 := by
  rcases Nat.eq_zero_or_pos page with h0 | hpos
  · exact .inr h0
  · refine .inl ?_
    obtain ⟨hlt, hget⟩ := List.getElem?_eq_some_iff.mp hp
    have hdrop : pages.drop (page - 1) = p :: pages.drop page := by
      rw [List.drop_eq_getElem_cons hlt, hget]
      congr 2
      omega
    rw [← List.flatten_cons, ← hdrop, ← List.flatten_append, List.take_append_drop]

theorem getElem?_flatten (hpos : page ≠ 0) (hp : pages[page - 1]? = some p) (hn : n < p.length) :
    pages.flatten[(pages.take (page - 1)).flatten.length + n]? = p[n]? := by
  rw [(flatten_split hp).resolve_right hpos, List.getElem?_append_right (Nat.le_add_right _ _), Nat.add_sub_cancel_left,
    List.getElem?_append_left hn]

theorem ind_eq (hpos : page ≠ 0) (hp : pages[page - 1]? = some p) : ind pages page = p.length := by
  rw [ind, if_neg hpos, hp]
  rfl

theorem left_le (hpage : f.page ≤ pages.length) (hn : f.n ≤ ind pages f.page) : left pages f ≤ pages.flatten.length := by
  rw [left]
  split_ifs with h0
  · exact Nat.zero_le _
  · have hlt : f.page - 1 < pages.length := by omega
    have hp := List.getElem?_eq_getElem hlt
    rw [ind_eq h0 hp] at hn
    rw [(flatten_split hp).resolve_right h0, List.length_append, List.length_append]
    omega

/-- A call that begins has all entries before it. -/
theorem left_length (dso : Option D) (running : Bool) (due called : List (Fn F A D)) :
    left pages ⟨dso, pages.length, ind pages pages.length, running, due, called⟩ = pages.flatten.length := by
  rw [left]
  split_ifs with h0
  · have hnil : pages = [] := List.length_eq_zero_iff.mp h0
    rw [hnil]
    rfl
  · have hlt : pages.length - 1 < pages.length := by
      have : pages.length ≠ 0 := h0
      omega
    have hp := List.getElem?_eq_getElem hlt
    dsimp only
    rw [ind_eq h0 hp, (flatten_split hp).resolve_right h0, List.drop_length]
    simp

/-- The entries of a page have all been gone through, and `p = p->next`. -/
theorem left_next (hn : f.n = 0) (hpage : f.page ≤ pages.length) :
    left pages { f with page := f.page - 1, n := ind pages (f.page - 1) } = left pages f := by
  rw [left, left, hn]
  dsimp only
  by_cases h0 : f.page = 0
  · rw [h0]
    rfl
  · by_cases h1 : f.page - 1 = 0
    · rw [if_pos h1, if_neg h0, h1]
      rfl
    · have hlt : f.page - 1 - 1 < pages.length := by omega
      have hp := List.getElem?_eq_getElem hlt
      have hsucc : f.page - 1 - 1 + 1 = f.page - 1 := by omega
      have htake : pages.take (f.page - 1) = pages.take (f.page - 1 - 1) ++ [pages[f.page - 1 - 1]] := by
        conv_lhs => rw [← hsucc, List.take_add_one, hp]
        rfl
      rw [if_neg h1, if_neg h0, ind_eq h1 hp, htake, List.flatten_append, List.length_append, List.flatten_singleton,
        Nat.add_zero]

theorem serial_lt {l : List (Fn F A D)} (h : l[fn.serial]? = some fn) : fn.serial < l.length :=
  (List.getElem?_eq_some_iff.mp h).1

theorem getElem?_concat_of_some {l : List (Fn F A D)} {i : ℕ} (new : Fn F A D) (h : l[i]? = some fn) :
    (l ++ [new])[i]? = some fn := by
  rw [List.getElem?_append_left (List.getElem?_eq_some_iff.mp h).1, h]

/-! ### One more entry -/

/-- The entries that `push` adds. -/
def added (pages : List (List (Fn F A D))) (fn : Fn F A D) : List (Fn F A D) :=
  if pages.isEmpty then [vacant, fn] else [fn]

/-- A new page, or one more entry in the last page. -/
theorem push_cases (max : ℕ) (pages : List (List (Fn F A D))) (fn : Fn F A D) :
    push max pages fn = pages ++ [added pages fn] ∨
      ∃ ps p, pages = ps ++ [p] ∧ p.length + 1 < max ∧ push max pages fn = ps ++ [p ++ added pages fn] := by
  rcases List.eq_nil_or_concat pages with rfl | ⟨ps, p, rfl⟩
  · exact .inl rfl
  · rw [List.concat_eq_append]
    have hempty : (ps ++ [p]).isEmpty = false := by simp
    by_cases hfull : max ≤ p.length + 1
    · refine .inl ?_
      rw [push, needsPage, List.getLast?_concat, Option.elim_some, if_pos (decide_eq_true hfull)]
      rfl
    · refine .inr ⟨ps, p, rfl, Nat.not_le.mp hfull, ?_⟩
      rw [push, needsPage, List.getLast?_concat, Option.elim_some, if_neg (by simpa using hfull), List.dropLast_concat, added,
        hempty]
      rfl

theorem push_flatten (max : ℕ) (pages : List (List (Fn F A D))) (fn : Fn F A D) :
    (push max pages fn).flatten = pages.flatten ++ added pages fn := by
  rcases push_cases max pages fn with h | ⟨ps, p, hpages, -, h⟩
  · rw [h, List.flatten_append, List.flatten_singleton]
  · rw [h, hpages]
    simp

theorem push_take (max : ℕ) (fn : Fn F A D) (hk : k ≤ pages.length) :
    (push max pages fn).take (k - 1) = pages.take (k - 1) := by
  rcases push_cases max pages fn with h | ⟨ps, p, hpages, -, h⟩
  · rw [h, List.take_append_of_le_length (by omega)]
  · have hlen : k - 1 ≤ ps.length := by
      rw [hpages, List.length_append, List.length_singleton] at hk
      omega
    rw [h]
    conv_rhs => rw [hpages]
    rw [List.take_append_of_le_length hlen, List.take_append_of_le_length hlen]

theorem push_length (max : ℕ) (pages : List (List (Fn F A D))) (fn : Fn F A D) :
    pages.length ≤ (push max pages fn).length := by
  rcases push_cases max pages fn with h | ⟨ps, p, hpages, -, h⟩
  · rw [h, List.length_append]
    omega
  · rw [h]
    conv_lhs => rw [hpages]
    rw [List.length_append, List.length_append]
    rfl

theorem push_ind (max : ℕ) (fn : Fn F A D) (hk : k ≤ pages.length) : ind pages k ≤ ind (push max pages fn) k := by
  rw [ind, ind]
  by_cases h0 : k = 0
  · rw [if_pos h0, if_pos h0]
  rw [if_neg h0, if_neg h0]
  rcases push_cases max pages fn with h | ⟨ps, p, hpages, -, h⟩
  · rw [h, List.getElem?_append_left (by omega)]
  · rw [h]
    conv_lhs => rw [hpages]
    rw [hpages, List.length_append, List.length_singleton] at hk
    rcases (show k - 1 < ps.length ∨ k - 1 = ps.length by omega) with hlt | heq
    · rw [List.getElem?_append_left hlt, List.getElem?_append_left hlt]
    · rw [heq, List.getElem?_concat_length, List.getElem?_concat_length, Option.getD_some, Option.getD_some,
        List.length_append]
      omega

theorem push_pages (hmax : 2 ≤ max) (h : ∀ p ∈ pages, p ≠ [] ∧ p.length ≤ max) :
    ∀ p ∈ push max pages fn, p ≠ [] ∧ p.length ≤ max := by
  have hadded : added pages fn ≠ [] ∧ (added pages fn).length ≤ max := by
    rw [added]
    split_ifs
    · exact ⟨by simp, hmax⟩
    · exact ⟨by simp, Nat.le_of_succ_le hmax⟩
  rcases push_cases max pages fn with hpush | ⟨ps, p, hpages, hroom, hpush⟩
  · rw [hpush]
    exact List.forall_mem_append.mpr ⟨h, by simpa using hadded⟩
  · have hone : added pages fn = [fn] := by
      rw [added, hpages]
      simp
    rw [hpush, hone]
    refine List.forall_mem_append.mpr ⟨fun q hq => h q (by rw [hpages]; exact List.mem_append_left _ hq), ?_⟩
    rw [List.forall_mem_singleton, List.length_append, List.length_singleton]
    exact ⟨by simp, by omega⟩

/-! ### Marking, and replacing the cleanup function -/

theorem modify_append_right {α : Type*} (l l' : List α) (n : ℕ) (g : α → α) :
    (l ++ l').modify (l.length + n) g = l ++ l'.modify n g := by
  induction l with
  | nil => simp
  | cons a l ih => simp [Nat.succ_add, List.modify_succ_cons, ih]

theorem modify_append_left {α : Type*} {l : List α} (l' : List α) {n : ℕ} (hn : n < l.length) (g : α → α) :
    (l ++ l').modify n g = l.modify n g ++ l' := by
  induction l generalizing n with
  | nil => exact absurd hn (Nat.not_lt_zero n)
  | cons a l ih =>
    cases n with
    | zero => rfl
    | succ n => simp [List.modify_succ_cons, ih (Nat.lt_of_succ_lt_succ hn)]

theorem mark_flatten (hpos : page ≠ 0) (hp : pages[page - 1]? = some p) (hn : n < p.length) :
    (mark pages page n).flatten =
      pages.flatten.modify ((pages.take (page - 1)).flatten.length + n) fun fn => { fn with func := none } := by
  obtain ⟨hlt, hget⟩ := List.getElem?_eq_some_iff.mp hp
  have hsplit : pages = pages.take (page - 1) ++ p :: pages.drop page := by
    have hdrop : pages.drop (page - 1) = p :: pages.drop page := by
      rw [List.drop_eq_getElem_cons hlt, hget]
      congr 2
      omega
    rw [← hdrop, List.take_append_drop]
  have hlen : (pages.take (page - 1)).length = page - 1 := by
    rw [List.length_take]
    omega
  have hmark : mark pages page n = pages.take (page - 1) ++ p.modify n (fun fn => { fn with func := none }) :: pages.drop page := by
    have hmodify := modify_append_right (pages.take (page - 1)) (p :: pages.drop page) 0
      fun p => p.modify n fun fn => { fn with func := none }
    rw [Nat.add_zero, ← hsplit, hlen] at hmodify
    exact hmodify
  have hflatten : pages.flatten = (pages.take (page - 1)).flatten ++ (p ++ (pages.drop page).flatten) :=
    (flatten_split hp).resolve_right hpos
  rw [hmark, hflatten, List.flatten_append, List.flatten_cons, modify_append_right, modify_append_left _ hn]

theorem mark_lengths (pages : List (List (Fn F A D))) (page n : ℕ) :
    (mark pages page n).map List.length = pages.map List.length := by
  refine List.ext_getElem? fun i => ?_
  rw [mark, List.getElem?_map, List.getElem?_map, List.getElem?_modify, Option.map_eq_map,
    Option.map_map]
  congr 1
  funext p
  split_ifs
  · exact List.length_modify _ _ _
  · rfl

/-- What a call has before it depends on the lengths of the pages only. -/
theorem left_congr {pages' : List (List (Fn F A D))} (h : pages'.map List.length = pages.map List.length) (f : Frame F A D) :
    left pages' f = left pages f := by
  have htake : (pages'.take (f.page - 1)).flatten.length = (pages.take (f.page - 1)).flatten.length := by
    rw [List.length_flatten, List.length_flatten, List.map_take, List.map_take, h]
  rw [left, left, htake]

theorem ind_congr {pages' : List (List (Fn F A D))} (h : pages'.map List.length = pages.map List.length) (k : ℕ) :
    ind pages' k = ind pages k := by
  have hget : ∀ i : ℕ, (pages'[i]?.getD []).length = (pages[i]?.getD []).length := by
    intro i
    have hi := congrArg (·[i]?) h
    simp only [List.getElem?_map] at hi
    cases h1 : pages[i]? <;> cases h2 : pages'[i]? <;> simp_all
  rw [ind, ind, hget]

variable {s s' : State F A D}

/-! ### What a step keeps for the calls that have not returned -/

/-- A call finds the entries before it again, unless they have been called or replaced. -/
structure Keeps (s s' : State F A D) : Prop where
  length : s.pages.length ≤ s'.pages.length
  ind : ∀ k, k ≤ s.pages.length → ind s.pages k ≤ ind s'.pages k
  left : ∀ f : Frame F A D, f.page ≤ s.pages.length → left s'.pages f = left s.pages f
  log : s.log ⊆ s'.log
  replaced : s.replaced ⊆ s'.replaced
  stays : ∀ k, k ≤ s.pages.flatten.length → ∀ fn ∈ s.pages.flatten.take k,
    fn ∈ s'.log ∨ fn ∈ s'.replaced ∨ fn ∈ s'.pages.flatten.take k
  came : ∀ k, k ≤ s.pages.flatten.length → ∀ fn' ∈ s'.pages.flatten.take k, ∃ fn ∈ s.pages.flatten.take k,
    fn'.key = fn.key ∧ (fn'.func.isSome → fn' = fn ∨ fn'.reserved = true)

/-- More entries at the end. -/
theorem keeps_append {l : List (Fn F A D)} (hlength : s.pages.length ≤ s'.pages.length)
    (hind : ∀ k, k ≤ s.pages.length → ind s.pages k ≤ ind s'.pages k)
    (htake : ∀ k, k ≤ s.pages.length → s'.pages.take (k - 1) = s.pages.take (k - 1)) (hlog : s.log ⊆ s'.log)
    (hreplaced : s.replaced ⊆ s'.replaced) (hflatten : s'.pages.flatten = s.pages.flatten ++ l) : Keeps s s' := by
  have hsame : ∀ k, k ≤ s.pages.flatten.length → s'.pages.flatten.take k = s.pages.flatten.take k := by
    intro k hk
    rw [hflatten, List.take_append_of_le_length hk]
  refine ⟨hlength, hind, fun f hf => ?_, hlog, hreplaced, fun k hk fn hfn => ?_, fun k hk fn hfn => ?_⟩
  · rw [left, left, htake _ hf]
  · rw [hsame k hk]
    exact .inr (.inr hfn)
  · rw [hsame k hk] at hfn
    exact ⟨fn, hfn, rfl, fun _ => .inl rfl⟩

/-- One entry changes, and what has been there is on record. -/
theorem keeps_change {i : ℕ} {old new : Fn F A D} (hlengths : s'.pages.map List.length = s.pages.map List.length)
    (hlog : s.log ⊆ s'.log) (hreplaced : s.replaced ⊆ s'.replaced) (hold : s.pages.flatten[i]? = some old)
    (hnew : s'.pages.flatten[i]? = some new) (hother : ∀ j, i ≠ j → s'.pages.flatten[j]? = s.pages.flatten[j]?)
    (hrecord : old ∈ s'.log ∨ old ∈ s'.replaced) (hkey : new.key = old.key)
    (hcame : new.func.isSome → new = old ∨ new.reserved = true) : Keeps s s' := by
  have hlength : s'.pages.length = s.pages.length := by
    have h := congrArg List.length hlengths
    rwa [List.length_map, List.length_map] at h
  refine ⟨hlength.ge, fun k _ => (ind_congr hlengths k).ge, fun f _ => left_congr hlengths f, hlog, hreplaced,
    fun k _ fn hfn => ?_, fun k _ fn hfn => ?_⟩
  · obtain ⟨j, hj, hget⟩ := mem_take_iff.mp hfn
    by_cases hij : i = j
    · subst hij
      obtain rfl : fn = old := Option.some.inj (hget.symm.trans hold)
      exact hrecord.imp_right .inl
    · exact .inr (.inr (mem_take_iff.mpr ⟨j, hj, (hother j hij).trans hget⟩))
  · obtain ⟨j, hj, hget⟩ := mem_take_iff.mp hfn
    by_cases hij : i = j
    · subst hij
      obtain rfl : fn = new := Option.some.inj (hget.symm.trans hnew)
      exact ⟨old, mem_take_iff.mpr ⟨i, hj, hold⟩, hkey, hcame⟩
    · exact ⟨fn, mem_take_iff.mpr ⟨j, hj, (hother j hij).symm.trans hget⟩, rfl, fun _ => .inl rfl⟩

/-- The entry that comes next is the last one of those before the call. -/
theorem take_left_succ {p : List (Fn F A D)} {n : ℕ} (h0 : f.page ≠ 0) (hp : s.pages[f.page - 1]? = some p)
    (hn : f.n = n + 1) (hfn : p[n]? = some fn) :
    left s.pages { f with n := n } + 1 = left s.pages f ∧ s.pages.flatten[left s.pages { f with n := n }]? = some fn ∧
      s.pages.flatten.take (left s.pages f) = s.pages.flatten.take (left s.pages { f with n := n }) ++ [fn] := by
  have hleft : left s.pages { f with n := n } + 1 = left s.pages f := by
    rw [left, left, if_neg h0, if_neg h0, hn]
    rfl
  have hget : s.pages.flatten[left s.pages { f with n := n }]? = some fn := by
    rw [left, if_neg h0]
    dsimp only
    rw [getElem?_flatten h0 hp (List.getElem?_eq_some_iff.mp hfn).1, hfn]
  refine ⟨hleft, hget, ?_⟩
  rw [← hleft, List.take_add_one, hget]
  rfl

end Table

variable {s s' : State F A D} {f : Frame F A D} {fn : Fn F A D} {stack : List (Frame F A D)} {marks : Bool} {max : ℕ}

theorem wanted_some {dso : Option D} (h : wanted dso fn) : fn.func.isSome := by
  rw [wanted, Bool.and_eq_true] at h
  exact h.1

theorem FrameInv.keeps (h : FrameInv s f) (hk : Keeps s s') : FrameInv s' f := by
  have hleft := hk.left f h.page
  have hle := left_le h.page h.n
  refine ⟨h.page.trans hk.length, h.n.trans (hk.ind _ h.page), h.isDue, fun fn hfn => ?_, fun fn hfn hw => ?_, h.called, h.order,
    fun fn hfn fn' hfn' => ?_⟩
  · rw [hleft]
    rcases h.due fn hfn with hlog | hreplaced | htable
    · exact .inl (hk.log hlog)
    · exact .inr (.inl (hk.replaced hreplaced))
    · exact hk.stays _ hle fn htable
  · rw [hleft] at hfn
    obtain ⟨old, hold, -, hsame⟩ := hk.came _ hle fn hfn
    rcases hsame (wanted_some hw) with rfl | hreserved
    · exact h.ahead fn hold hw
    · exact .inr hreserved
  · rw [hleft] at hfn'
    obtain ⟨old, hold, hkey, -⟩ := hk.came _ hle fn' hfn'
    rw [hkey]
    exact h.below fn hfn old hold

theorem Keeps.frames (hk : Keeps s s') (h : ∀ f ∈ s.stack, FrameInv s f) : ∀ f ∈ s.stack, FrameInv s' f :=
  fun f hf => (h f hf).keeps hk

theorem FrameInv.of_eq (h : FrameInv s f) (hpages : s'.pages = s.pages) (hlog : s'.log = s.log)
    (hreplaced : s'.replaced = s.replaced) : FrameInv s' f := by
  obtain ⟨hpage, hn, hisDue, hdue, hahead, hcalled, horder, hbelow⟩ := h
  exact ⟨by rwa [hpages], by rwa [hpages], hisDue, by rwa [hpages, hlog, hreplaced], by rwa [hpages], hcalled, horder,
    by rwa [hpages]⟩

/-! ### One step -/

theorem Inv.flatten_ne (h : Inv max s) (hne : s.pages ≠ []) : s.pages.flatten ≠ [] := by
  obtain ⟨p, pages, hp⟩ := List.exists_cons_of_ne_nil hne
  rw [hp, List.flatten_cons]
  exact fun hnil => (h.pages p (by rw [hp]; exact List.mem_cons_self)).1 (List.append_eq_nil_iff.mp hnil).1

theorem Inv.serial_lt (h : Inv max s) :
    ∀ fn ∈ s.log ++ s.pages.flatten.filter (fun fn => fn.func.isSome), fn.serial < s.registered.length := by
  intro fn hfn
  rcases List.mem_append.mp hfn with hfn | hfn
  · exact Atexit.serial_lt (h.logged fn hfn)
  · obtain ⟨hfn, hlive⟩ := List.mem_filter.mp hfn
    exact Atexit.serial_lt (h.live fn hfn hlive)

theorem inv_start : Inv max (start : State F A D) :=
  ⟨.nil, by rintro fn ⟨⟩, by rintro fn ⟨⟩, by rintro fn ⟨⟩, by rintro fn ⟨⟩, fun _ => List.nodup_nil, le_rfl, by rintro p ⟨⟩,
    by rintro f ⟨⟩⟩

theorem inv_register (hmax : 2 ≤ max) (h : Inv max s) (func : Option F) (arg : Option A) (dso : Option D) :
    Inv max (cxaAtexit max func arg dso s) := by
  set fn : Fn F A D := ⟨func, arg, dso, s.registered.length, false⟩ with hfn
  have hkey : fn.key = s.registered.length + 1 := rfl
  have hflatten : (cxaAtexit max func arg dso s).pages.flatten = s.pages.flatten ++ added s.pages fn :=
    push_flatten max s.pages fn
  have hadded : ∀ new ∈ added s.pages fn, new = fn ∨ new = vacant ∧ s.pages.flatten = [] := by
    intro new hnew
    rw [added] at hnew
    split_ifs at hnew with hempty
    · rw [List.isEmpty_iff.mp hempty]
      rcases List.mem_cons.mp hnew with rfl | hnew
      · exact .inr ⟨rfl, rfl⟩
      · exact .inl (List.mem_singleton.mp hnew)
    · exact .inl (List.mem_singleton.mp hnew)
  have hkeys : (added s.pages fn).Pairwise (Fn.key · < Fn.key ·) := by
    rw [added]
    split_ifs
    · refine List.pairwise_pair.mpr ?_
      rw [hkey]
      exact Nat.succ_pos _
    · exact List.pairwise_singleton _ _
  have hfilter : (added s.pages fn).filter (fun fn => fn.func.isSome) = [fn].filter fun fn => fn.func.isSome := by
    rw [added]
    split_ifs
    · rfl
    · rfl
  refine ⟨?_, ?_, ?_, ?_, fun old hold => getElem?_concat_of_some fn (h.logged old hold), fun hm => ?_, h.depth,
    push_pages hmax h.pages, ?_⟩
  · rw [hflatten]
    refine List.pairwise_append.mpr ⟨h.keys, hkeys, fun old hold new hnew => ?_⟩
    rcases hadded new hnew with rfl | ⟨-, hnil⟩
    · rw [hkey]
      exact Nat.lt_succ_of_le (h.small old hold)
    · rw [hnil] at hold
      cases hold
  · intro new hnew
    rw [hflatten] at hnew
    show new.key ≤ (s.registered ++ [fn]).length
    rw [List.length_append, List.length_singleton]
    rcases List.mem_append.mp hnew with hnew | hnew
    · exact (h.small new hnew).trans (Nat.le_succ _)
    · rcases hadded new hnew with rfl | ⟨rfl, -⟩
      · exact hkey.le
      · exact Nat.zero_le _
  · intro new hnew
    rw [hflatten] at hnew
    by_cases hnil : s.pages = []
    · rw [hnil] at hnew
      obtain rfl : vacant = new := Option.some.inj hnew
      rfl
    · rw [List.head?_append_of_ne_nil _ (h.flatten_ne hnil)] at hnew
      exact h.reserved new hnew
  · intro new hnew hlive
    rw [hflatten] at hnew
    rcases List.mem_append.mp hnew with hnew | hnew
    · exact getElem?_concat_of_some fn (h.live new hnew hlive)
    · rcases hadded new hnew with rfl | ⟨rfl, -⟩
      · exact List.getElem?_concat_length
      · cases hlive
  · have honce := h.once hm
    rw [hflatten, List.filter_append, hfilter, ← List.append_assoc, List.map_append]
    refine List.nodup_append.mpr ⟨honce, ?_, ?_⟩
    · exact (List.nodup_singleton fn.serial).sublist (List.filter_sublist.map Fn.serial)
    · intro i hi j hj hij
      obtain ⟨old, hold, rfl⟩ := List.mem_map.mp hi
      obtain ⟨new, hnew, rfl⟩ := List.mem_map.mp hj
      obtain rfl := List.mem_singleton.mp (List.mem_filter.mp hnew).1
      exact absurd hij (h.serial_lt old hold).ne
  · have hkeeps : Keeps s (cxaAtexit max func arg dso s) :=
      keeps_append (push_length max s.pages fn) (fun k hk => push_ind max fn hk) (fun k hk => push_take max fn hk)
        (List.Subset.refl _) (List.Subset.refl _) hflatten
    exact hkeeps.frames h.frames

theorem inv_cleanup (hmax : 2 ≤ max) (h : Inv max s) (func : Option F) : Inv max (atexitRegisterCleanup func s) := by
  set fn : Fn F A D := ⟨func, none, none, s.registered.length, true⟩ with hfn
  have hlogged : ∀ old ∈ s.log, (s.registered ++ [fn])[old.serial]? = some old :=
    fun old hold => getElem?_concat_of_some fn (h.logged old hold)
  have hnodup : s.unmarked = 0 → ∀ l : List (Fn F A D), l.Sublist (s.pages.flatten.filter fun fn => fn.func.isSome) →
      ((s.log ++ ([fn].filter (fun fn => fn.func.isSome) ++ l)).map Fn.serial).Nodup := by
    intro hm l hl
    have honce := (h.once hm).sublist (((List.Sublist.refl s.log).append hl).map Fn.serial)
    have hnew : s.registered.length ∉ (s.log ++ l).map Fn.serial := by
      rintro hmem
      obtain ⟨old, hold, heq⟩ := List.mem_map.mp hmem
      refine absurd heq (h.serial_lt old ?_).ne
      exact (List.append_subset.mpr ⟨List.subset_append_left _ _, fun x hx => List.mem_append_right _ (hl.subset hx)⟩) hold
    have hall : ((fn :: (s.log ++ l)).map Fn.serial).Nodup := List.nodup_cons.mpr ⟨hnew, honce⟩
    have hperm : (fn :: (s.log ++ l)).Perm (s.log ++ ([fn] ++ l)) := by
      rw [List.singleton_append]
      exact List.perm_middle.symm
    refine ((hperm.map Fn.serial).nodup_iff.mp hall).sublist (List.Sublist.map Fn.serial ?_)
    exact (List.Sublist.refl _).append (List.filter_sublist.append (List.Sublist.refl _))
  cases hpages : s.pages with
  | nil =>
    have hstate : atexitRegisterCleanup func s =
        { s with pages := [[fn]], invalid := false, registered := s.registered ++ [fn] } := by
      rw [atexitRegisterCleanup, hpages]
    have hflatten : s.pages.flatten = [] := by rw [hpages, List.flatten_nil]
    rw [hstate]
    refine ⟨List.pairwise_singleton _ _, ?_, ?_, ?_, hlogged, fun hm => ?_, h.depth, ?_, ?_⟩
    · intro new hnew
      rw [List.mem_singleton.mp hnew]
      exact Nat.zero_le _
    · rintro new ⟨⟩
      rfl
    · intro new hnew _
      rw [List.mem_singleton.mp hnew]
      exact List.getElem?_concat_length
    · have hn := hnodup hm [] (List.nil_sublist _)
      rwa [List.append_nil] at hn
    · intro p hp
      rw [List.mem_singleton.mp hp]
      exact ⟨by simp, Nat.le_of_succ_le hmax⟩
    · have hkeeps : Keeps s { s with pages := [[fn]], invalid := false, registered := s.registered ++ [fn] } := by
        refine keeps_append (l := [fn]) (by simp [hpages]) (fun k hk => ?_) (fun k hk => ?_) (List.Subset.refl _)
          (List.Subset.refl _) (by simp [hpages])
        all_goals
          rw [hpages] at hk
          obtain rfl := Nat.le_zero.mp hk
          simp [ind]
      exact hkeeps.frames h.frames
  | cons p pages =>
    obtain ⟨hne, hroom⟩ := h.pages p (by rw [hpages]; exact List.mem_cons_self)
    obtain ⟨old, rest, rfl⟩ := List.exists_cons_of_ne_nil hne
    have hstate : atexitRegisterCleanup func s =
        { s with pages := (fn :: rest) :: pages, registered := s.registered ++ [fn], replaced := old :: s.replaced } := by
      rw [atexitRegisterCleanup, hpages]
      rfl
    have hflatten : s.pages.flatten = old :: (rest ++ pages.flatten) := by rw [hpages, List.flatten_cons, List.cons_append]
    have hold : old.reserved = true := h.reserved old (by rw [hflatten]; rfl)
    have hkey : old.key = 0 := by rw [Fn.key, hold, if_pos rfl]
    have hkeys := h.keys
    have hsmall := h.small
    have hlive := h.live
    rw [hflatten] at hkeys hsmall hlive
    rw [hstate]
    have hflatten' : ((fn :: rest) :: pages).flatten = fn :: (rest ++ pages.flatten) := by
      rw [List.flatten_cons, List.cons_append]
    refine ⟨?_, ?_, ?_, ?_, hlogged, fun hm => ?_, h.depth, ?_, ?_⟩
    · dsimp only
      rw [hflatten']
      obtain ⟨hfirst, hrest⟩ := List.pairwise_cons.mp hkeys
      rw [hkey] at hfirst
      exact List.pairwise_cons.mpr ⟨hfirst, hrest⟩
    · dsimp only
      rw [hflatten', List.length_append]
      refine List.forall_mem_cons.mpr ⟨Nat.zero_le _, fun x hx => ?_⟩
      exact (hsmall x (List.mem_cons_of_mem _ hx)).trans (Nat.le_add_right _ _)
    · rintro new ⟨⟩
      rfl
    · dsimp only
      rw [hflatten']
      refine List.forall_mem_cons.mpr ⟨fun _ => List.getElem?_concat_length, fun x hx hx' => ?_⟩
      exact getElem?_concat_of_some fn (hlive x (List.mem_cons_of_mem _ hx) hx')
    · have hn := hnodup hm ((rest ++ pages.flatten).filter fun fn => fn.func.isSome) (by
        rw [hflatten]
        exact (List.sublist_cons_self _ _).filter _)
      rwa [← List.filter_append, List.singleton_append, ← hflatten'] at hn
    · intro q hq
      rcases List.mem_cons.mp hq with rfl | hq
      · exact ⟨by simp, hroom⟩
      · exact h.pages q (by rw [hpages]; exact List.mem_cons_of_mem _ hq)
    · have hkeeps : Keeps s { s with
          pages := (fn :: rest) :: pages, registered := s.registered ++ [fn], replaced := old :: s.replaced } := by
        have hfirst : s.pages.flatten[0]? = some old := by
          rw [hflatten]
          rfl
        have hfirst' : ((fn :: rest) :: pages).flatten[0]? = some fn := by
          rw [hflatten']
          rfl
        refine keeps_change (by simp [hpages]) (List.Subset.refl _) (List.subset_cons_self _ _) hfirst hfirst' ?_
          (.inr List.mem_cons_self) hkey.symm fun _ => .inr rfl
        intro j hj
        obtain ⟨j, rfl⟩ := Nat.exists_eq_succ_of_ne_zero hj.symm
        rw [hflatten, hflatten']
        rfl
      exact hkeeps.frames h.frames

theorem inv_finalize (h : Inv max s) (dso : Option D) : Inv max (cxaFinalize dso s) := by
  rw [cxaFinalize]
  split_ifs with hinvalid
  · exact h
  · refine ⟨h.keys, h.small, h.reserved, h.live, h.logged, h.once, Nat.succ_le_succ h.depth, h.pages, ?_⟩
    refine List.forall_mem_cons.mpr ⟨?_, fun f hf => ?_⟩
    · have hall : s.pages.flatten.take (left s.pages ⟨dso, s.pages.length, ind s.pages s.pages.length, false,
          s.pages.flatten.filter (wanted dso), []⟩) = s.pages.flatten := by
        rw [left_length, List.take_length]
      refine ⟨le_rfl, le_rfl, fun fn hfn => (List.mem_filter.mp hfn).2, fun fn hfn => ?_, fun fn hfn hw => ?_,
        by rintro fn ⟨⟩, .nil, by rintro fn ⟨⟩⟩
      · rw [hall]
        exact .inr (.inr (List.mem_filter.mp hfn).1)
      · rw [hall] at hfn
        exact .inl (List.mem_filter.mpr ⟨hfn, hw⟩)
    · exact (h.frames f hf).of_eq rfl rfl rfl

theorem inv_leave (h : Inv max s) (hs : s.stack = f :: stack) (dso : Option D) : Inv max (leave dso stack s) := by
  have hdepth := h.depth
  rw [hs, List.length_cons] at hdepth
  have hframes : ∀ f ∈ stack, FrameInv s f := fun g hg => h.frames g (by rw [hs]; exact List.mem_cons_of_mem _ hg)
  rw [leave]
  split_ifs with hdso hlast
  · have hnil : stack = [] := List.length_eq_zero_iff.mp (by omega)
    subst hnil
    refine ⟨.nil, by rintro fn ⟨⟩, by rintro fn ⟨⟩, by rintro fn ⟨⟩, h.logged, fun hm => ?_, Nat.zero_le _, by rintro p ⟨⟩,
      by rintro f ⟨⟩⟩
    exact (h.once hm).sublist (((List.Sublist.refl _).append (List.nil_sublist _)).map Fn.serial)
  · refine ⟨h.keys, h.small, h.reserved, h.live, h.logged, h.once, ?_, h.pages, fun g hg => (hframes g hg).of_eq rfl rfl rfl⟩
    dsimp only
    omega
  · exact ⟨h.keys, h.small, h.reserved, h.live, h.logged, h.once, (Nat.le_succ stack.length).trans hdepth, h.pages,
      fun g hg => (hframes g hg).of_eq rfl rfl rfl⟩

/-- Another innermost call, which is in order. -/
theorem Inv.withFrame (h : Inv max s) (hs : s.stack = f :: stack) {f' : Frame F A D} (hf : FrameInv s f') :
    Inv max { s with stack := f' :: stack } := by
  have hdepth := h.depth
  rw [hs] at hdepth
  refine ⟨h.keys, h.small, h.reserved, h.live, h.logged, h.once, hdepth, h.pages, List.forall_mem_cons.mpr ⟨?_, ?_⟩⟩
  · exact hf.of_eq rfl rfl rfl
  · exact fun g hg => (h.frames g (by rw [hs]; exact List.mem_cons_of_mem _ hg)).of_eq rfl rfl rfl

/-- What the innermost call does next. -/
theorem scan_cases (h : FrameInv s f) (marks : Bool) (stack : List (Frame F A D)) :
    f.page = 0 ∧ scan marks f stack s = some (leave f.dso stack s) ∨
    (f.page ≠ 0 ∧ f.n = 0 ∧ scan marks f stack s =
      some { s with stack := { f with page := f.page - 1, n := ind s.pages (f.page - 1) } :: stack }) ∨
    ∃ p n fn, f.page ≠ 0 ∧ s.pages[f.page - 1]? = some p ∧ f.n = n + 1 ∧ p[n]? = some fn ∧ scan marks f stack s = some
      (if wanted f.dso fn then
        { s with
          pages := if marks then mark s.pages f.page n else s.pages
          stack := { f with n := n, running := true, called := fn :: f.called } :: stack
          log := fn :: s.log
          unmarked := if marks then s.unmarked else s.unmarked + 1 }
      else { s with stack := { f with n := n } :: stack }) := by
  by_cases h0 : f.page = 0
  · exact .inl ⟨h0, if_pos h0⟩
  · have hlt : f.page - 1 < s.pages.length := by
      have := h.page
      omega
    have hp := List.getElem?_eq_getElem hlt
    have hind := h.n
    rw [ind_eq h0 hp] at hind
    cases hn : f.n with
    | zero =>
      refine .inr (.inl ⟨h0, rfl, ?_⟩)
      rw [scan, if_neg h0, hp, Option.bind_some, hn]
    | succ n =>
      rw [hn] at hind
      refine .inr (.inr ⟨_, n, _, h0, hp, rfl, List.getElem?_eq_getElem hind, ?_⟩)
      rw [scan, if_neg h0, hp, Option.bind_some, hn]
      dsimp only
      rw [List.getElem?_eq_getElem hind, Option.map_some]

/-- A handler that is not wanted is passed over. -/
theorem frameInv_skip {p : List (Fn F A D)} {n : ℕ} (h : FrameInv s f) (h0 : f.page ≠ 0)
    (hp : s.pages[f.page - 1]? = some p) (hn : f.n = n + 1) (hfn : p[n]? = some fn) (hw : ¬ wanted f.dso fn) :
    FrameInv s { f with n := n } := by
  obtain ⟨-, -, htake⟩ := take_left_succ h0 hp hn hfn
  have hbefore : ∀ x ∈ s.pages.flatten.take (left s.pages { f with n := n }),
      x ∈ s.pages.flatten.take (left s.pages f) := by
    intro x hx
    rw [htake]
    exact List.mem_append_left _ hx
  have hle := h.n
  refine ⟨h.page, by dsimp only; omega, h.isDue, fun x hx => ?_, fun x hx => h.ahead x (hbefore x hx), h.called, h.order,
    fun x hx y hy => h.below x hx y (hbefore y hy)⟩
  refine (h.due x hx).imp_right (Or.imp_right fun hx' => ?_)
  rw [htake, List.mem_append, List.mem_singleton] at hx'
  refine hx'.resolve_right ?_
  rintro rfl
  exact hw (h.isDue x hx)

/-- A handler is called. -/
theorem frameInv_call {p : List (Fn F A D)} {n : ℕ} (h : FrameInv s f) (hkeys : s.pages.flatten.Pairwise (Fn.key · < Fn.key ·))
    (h0 : f.page ≠ 0) (hp : s.pages[f.page - 1]? = some p) (hn : f.n = n + 1) (hfn : p[n]? = some fn)
    (hw : wanted f.dso fn) :
    FrameInv { s with log := fn :: s.log } { f with n := n, running := true, called := fn :: f.called } := by
  obtain ⟨hleft, hget, htake⟩ := take_left_succ h0 hp hn hfn
  have hsame : ∀ running called, left s.pages { f with n := n, running := running, called := called } =
      left s.pages { f with n := n } := fun _ _ => rfl
  have hbefore : ∀ x ∈ s.pages.flatten.take (left s.pages { f with n := n }),
      x ∈ s.pages.flatten.take (left s.pages f) := by
    intro x hx
    rw [htake]
    exact List.mem_append_left _ hx
  have hmem : fn ∈ s.pages.flatten.take (left s.pages f) := by
    rw [htake]
    exact List.mem_append_right _ (List.mem_singleton_self fn)
  have hsorted : ∀ x ∈ s.pages.flatten.take (left s.pages { f with n := n }), x.key < fn.key := by
    have hpre := hkeys.sublist (List.take_sublist (left s.pages f) s.pages.flatten)
    rw [htake] at hpre
    exact fun x hx => (List.pairwise_append.mp hpre).2.2 x hx fn (List.mem_singleton_self fn)
  have hle := h.n
  refine ⟨h.page, by dsimp only; omega, h.isDue, fun x hx => ?_, fun x hx => h.ahead x (hbefore x hx), ?_, ?_, ?_⟩
  · rcases h.due x hx with hlog | hreplaced | htable
    · exact .inl (List.mem_cons_of_mem _ hlog)
    · exact .inr (.inl hreplaced)
    · rw [htake, List.mem_append, List.mem_singleton] at htable
      rcases htable with htable | rfl
      · exact .inr (.inr htable)
      · exact .inl List.mem_cons_self
  · exact List.forall_mem_cons.mpr ⟨h.ahead fn hmem hw, h.called⟩
  · exact List.pairwise_cons.mpr ⟨fun x hx => h.below x hx fn hmem, h.order⟩
  · exact List.forall_mem_cons.mpr ⟨hsorted, fun x hx y hy => h.below x hx y (hbefore y hy)⟩

/-- A handler that could not be marked. -/
theorem inv_call {p : List (Fn F A D)} {n : ℕ} (h : Inv max s) (hs : s.stack = f :: stack) (h0 : f.page ≠ 0)
    (hp : s.pages[f.page - 1]? = some p) (hn : f.n = n + 1) (hfn : p[n]? = some fn) (hw : wanted f.dso fn) :
    Inv max { s with
      stack := { f with n := n, running := true, called := fn :: f.called } :: stack
      log := fn :: s.log
      unmarked := s.unmarked + 1 } := by
  have hf := h.frames f (by rw [hs]; exact List.mem_cons_self)
  obtain ⟨-, hget, -⟩ := take_left_succ h0 hp hn hfn
  have hlive := h.live fn (List.mem_of_getElem? hget) (wanted_some hw)
  have hdepth := h.depth
  rw [hs] at hdepth
  refine ⟨h.keys, h.small, h.reserved, h.live, List.forall_mem_cons.mpr ⟨hlive, h.logged⟩, fun hm => absurd hm (by simp),
    hdepth, h.pages, List.forall_mem_cons.mpr ⟨?_, fun g hg => ?_⟩⟩
  · exact (frameInv_call hf h.keys h0 hp hn hfn hw).of_eq rfl rfl rfl
  · obtain ⟨hpage, hn, hisDue, hdue, hahead, hcalled, horder, hbelow⟩ :=
      h.frames g (by rw [hs]; exact List.mem_cons_of_mem _ hg)
    exact ⟨hpage, hn, hisDue, fun x hx => (hdue x hx).imp_left (List.mem_cons_of_mem _), hahead, hcalled, horder, hbelow⟩

/-- A handler that has been marked. -/
theorem inv_mark {p : List (Fn F A D)} {n : ℕ} (h : Inv max s) (hs : s.stack = f :: stack) (h0 : f.page ≠ 0)
    (hp : s.pages[f.page - 1]? = some p) (hn : f.n = n + 1) (hfn : p[n]? = some fn) (hw : wanted f.dso fn) :
    Inv max { s with
      pages := mark s.pages f.page n
      stack := { f with n := n, running := true, called := fn :: f.called } :: stack
      log := fn :: s.log } := by
  have hcalled := inv_call h hs h0 hp hn hfn hw
  obtain ⟨hlt, -⟩ := List.getElem?_eq_some_iff.mp hfn
  obtain ⟨-, hget, -⟩ := take_left_succ h0 hp hn hfn
  have hflatten := mark_flatten h0 hp hlt
  have hleft : left s.pages { f with n := n } = (s.pages.take (f.page - 1)).flatten.length + n := by rw [left, if_neg h0]
  rw [← hleft] at hflatten
  set i := left s.pages { f with n := n }
  have hmark : ∀ x ∈ (mark s.pages f.page n).flatten, ∃ y ∈ s.pages.flatten, x.key = y.key ∧
      (x.func.isSome → x = y ∧ x ∈ s.pages.flatten) := by
    intro x hx
    rw [hflatten] at hx
    obtain ⟨j, hj⟩ := List.mem_iff_getElem?.mp hx
    rw [List.getElem?_modify, Option.map_eq_map, Option.map_eq_some_iff] at hj
    obtain ⟨y, hy, rfl⟩ := hj
    refine ⟨y, List.mem_of_getElem? hy, ?_⟩
    split_ifs with hij
    · exact ⟨rfl, by rintro ⟨⟩⟩
    · exact ⟨rfl, fun _ => ⟨rfl, List.mem_of_getElem? hy⟩⟩
  obtain ⟨before, behind, hsplit, hlen⟩ : ∃ before behind, s.pages.flatten = before ++ fn :: behind ∧ before.length = i := by
    obtain ⟨hlt, hget⟩ := List.getElem?_eq_some_iff.mp hget
    refine ⟨s.pages.flatten.take i, s.pages.flatten.drop (i + 1), ?_, by rw [List.length_take]; omega⟩
    rw [← hget, ← List.drop_eq_getElem_cons hlt, List.take_append_drop]
  have hmarked : (mark s.pages f.page n).flatten = before ++ { fn with func := none } :: behind := by
    rw [hflatten, hsplit, ← hlen, ← Nat.add_zero before.length, modify_append_right]
    rfl
  have hkeeps : Keeps { s with
        stack := { f with n := n, running := true, called := fn :: f.called } :: stack
        log := fn :: s.log
        unmarked := s.unmarked + 1 } { s with
        pages := mark s.pages f.page n
        stack := { f with n := n, running := true, called := fn :: f.called } :: stack
        log := fn :: s.log } := by
    have hnew : (mark s.pages f.page n).flatten[i]? = some { fn with func := none } := by
      rw [hflatten, List.getElem?_modify_eq, hget]
      rfl
    refine keeps_change (mark_lengths s.pages f.page n) (List.Subset.refl _) (List.Subset.refl _) hget hnew (fun j hj => ?_)
      (.inl List.mem_cons_self) rfl (by rintro ⟨⟩)
    dsimp only
    rw [hflatten, List.getElem?_modify_ne _ _ hj]
  refine ⟨?_, fun x hx => ?_, fun x hx => ?_, fun x hx hlive => ?_, hcalled.logged, fun hm => ?_, hcalled.depth, ?_,
    hkeeps.frames hcalled.frames⟩
  · have hkeys := h.keys
    dsimp only
    rw [hsplit] at hkeys
    rw [hmarked]
    have hmap : ∀ l : List (Fn F A D), l.Pairwise (Fn.key · < Fn.key ·) ↔ (l.map Fn.key).Pairwise (· < ·) :=
      fun l => List.pairwise_map.symm
    rw [hmap] at hkeys ⊢
    rw [List.map_append, List.map_cons] at hkeys ⊢
    exact hkeys
  · obtain ⟨y, hy, hkey, -⟩ := hmark x hx
    rw [hkey]
    exact h.small y hy
  · have hreserved := h.reserved
    dsimp only at hx
    rw [hmarked] at hx
    rw [hsplit] at hreserved
    cases before with
    | nil =>
      obtain rfl := Option.some.inj hx
      exact hreserved fn rfl
    | cons b before => exact hreserved x hx
  · obtain ⟨y, hy, -, hsame⟩ := hmark x hx
    exact h.live x (hsame hlive).2 hlive
  · have honce := h.once hm
    dsimp only
    have hkept : (fn :: behind).filter (fun fn => fn.func.isSome) = fn :: behind.filter fun fn => fn.func.isSome :=
      List.filter_cons_of_pos (wanted_some hw)
    have hgone : ({ fn with func := none } :: behind).filter (fun fn => fn.func.isSome) =
        behind.filter fun fn => fn.func.isSome := List.filter_cons_of_neg (by rintro ⟨⟩)
    rw [hsplit, List.filter_append, hkept] at honce
    rw [hmarked, List.filter_append, hgone]
    refine (List.Perm.map Fn.serial ?_).nodup_iff.mp honce
    rw [← List.append_assoc, ← List.append_assoc]
    exact List.perm_middle
  · intro q hq
    rw [mark] at hq
    obtain ⟨j, hj⟩ := List.mem_iff_getElem?.mp hq
    rw [List.getElem?_modify, Option.map_eq_map, Option.map_eq_some_iff] at hj
    obtain ⟨q', hq', rfl⟩ := hj
    obtain ⟨hne, hroom⟩ := h.pages q' (List.mem_of_getElem? hq')
    split_ifs
    · refine ⟨fun hnil => hne (List.length_eq_zero_iff.mp ?_), by rwa [List.length_modify]⟩
      rw [← List.length_modify, hnil, List.length_nil]
    · exact ⟨hne, hroom⟩

theorem inv_scan (h : Inv max s) (hs : s.stack = f :: stack) {marks : Bool} (hscan : scan marks f stack s = some s') :
    Inv max s' := by
  have hf := h.frames f (by rw [hs]; exact List.mem_cons_self)
  rcases scan_cases hf marks stack with ⟨-, heq⟩ | ⟨h0, hn, heq⟩ | ⟨p, n, fn, h0, hp, hn, hfn, heq⟩
  · obtain rfl := Option.some.inj (heq.symm.trans hscan)
    exact inv_leave h hs f.dso
  · obtain rfl := Option.some.inj (heq.symm.trans hscan)
    have hleft := left_next hn hf.page
    refine h.withFrame hs ⟨(Nat.sub_le _ _).trans hf.page, le_rfl, hf.isDue, ?_, ?_, hf.called, hf.order, ?_⟩
    all_goals rw [hleft]
    · exact hf.due
    · exact hf.ahead
    · exact hf.below
  · obtain rfl := Option.some.inj (heq.symm.trans hscan)
    by_cases hw : wanted f.dso fn
    · rw [if_pos hw]
      cases marks with
      | true => exact inv_mark h hs h0 hp hn hfn hw
      | false => exact inv_call h hs h0 hp hn hfn hw
    · rw [if_neg hw]
      exact h.withFrame hs (frameInv_skip hf h0 hp hn hfn hw)

theorem inv_step (hmax : 2 ≤ max) (h : Inv max s) (hstep : Step max s s') : Inv max s' := by
  cases hstep with
  | register func arg dso => exact inv_register hmax h func arg dso
  | cleanup func => exact inv_cleanup hmax h func
  | finalize dso => exact inv_finalize h dso
  | scan _ marks f stack hs _ hscan => exact inv_scan h hs hscan
  | back f stack hs =>
    obtain ⟨hpage, hn, hisDue, hdue, hahead, hcalled, horder, hbelow⟩ := h.frames f (by rw [hs]; exact List.mem_cons_self)
    exact h.withFrame hs ⟨hpage, hn, hisDue, hdue, hahead, hcalled, horder, hbelow⟩

theorem inv_reachable (hmax : 2 ≤ max) (h : Reachable max s) : Inv max s := by
  induction h with
  | refl => exact inv_start
  | tail _ hstep ih => exact inv_step hmax ih hstep

/-! ### Two handlers, called by `exit` -/

/-- The innermost call goes on, or the handler returns that it has called. -/
def resume (s : State F A D) : Option (State F A D) :=
  s.stack.head?.bind fun f =>
    if f.running then some { s with stack := { f with running := false } :: s.stack.tail }
    else scan true f s.stack.tail s

def resumes : ℕ → State F A D → Option (State F A D)
  | 0, s => some s
  | n + 1, s => (resume s).bind (resumes n)

theorem step_resume (h : resume s = some s') : Step max s s' := by
  cases hs : s.stack with
  | nil =>
    rw [resume, hs] at h
    cases h
  | cons f stack =>
    rw [resume, hs, List.head?_cons, Option.bind_some, List.tail_cons] at h
    split_ifs at h with hf
    · obtain rfl := Option.some.inj h
      exact .back s f stack hs hf
    · exact .scan s s' true f stack hs (by simpa using hf) h

theorem reachable_resumes (h : Reachable max s) {n : ℕ} (hn : resumes n s = some s') : Reachable max s' := by
  induction n generalizing s with
  | zero => exact Option.some.inj hn ▸ h
  | succ n ih =>
    obtain ⟨t, ht, hrest⟩ := Option.bind_eq_some_iff.mp hn
    exact ih (h.tail (step_resume ht)) hrest

def first : Fn ℕ ℕ ℕ := ⟨some 1, none, none, 0, false⟩

def second : Fn ℕ ℕ ℕ := ⟨some 2, none, none, 1, false⟩

def bothCalled : State ℕ ℕ ℕ :=
  ⟨[[vacant, { first with func := none }, { second with func := none }]], false, 1,
    [⟨none, 0, 0, false, [first, second], [first, second]⟩], [first, second], [first, second], 0, []⟩

theorem exit_reachable : Reachable 340 (cxaFinalize none (cxaAtexit 340 (some 2) none none (cxaAtexit 340 (some 1) none none
    (start : State ℕ ℕ ℕ)))) :=
  .tail (.tail (.tail .refl (.register _ _ _ _)) (.register _ _ _ _)) (.finalize _ _ (by rintro f ⟨⟩))

theorem bothCalled_reachable : Reachable 340 bothCalled := reachable_resumes exit_reachable (n := 6) (by decide)

/-- The second handler has called `exit`, and that call is behind its own entry. -/
def nestedExit : State ℕ ℕ ℕ :=
  ⟨[[vacant, first, { second with func := none }]], false, 2,
    [⟨none, 1, 2, false, [first], []⟩, ⟨none, 1, 2, true, [first, second], [second]⟩], [first, second], [second], 0, []⟩

theorem nestedExit_reachable : Reachable 340 nestedExit := by
  have outer : Reachable 340 ⟨[[vacant, first, { second with func := none }]], false, 1,
      [⟨none, 1, 2, true, [first, second], [second]⟩], [first, second], [second], 0, []⟩ :=
    reachable_resumes exit_reachable (n := 1) (by decide)
  exact reachable_resumes (outer.tail (.finalize _ none (by simp))) (n := 1) (by decide)

/-! ### All runs -/

/-- A call of `__cxa_finalize` never touches a page that has been unmapped, whatever its handlers do. -/
theorem scan_touches_mapped (hmax : 2 ≤ max) (h : Reachable max s) (f : Frame F A D) (hs : s.stack = f :: stack)
    (marks : Bool) : (scan marks f stack s).isSome := by
  have hf := (inv_reachable hmax h).frames f (by rw [hs]; exact List.mem_cons_self)
  rcases scan_cases hf marks stack with ⟨-, heq⟩ | ⟨-, -, heq⟩ | ⟨p, n, fn, -, -, -, -, heq⟩
  all_goals
    rw [heq]
    rfl

theorem scan_touches_mapped_nestedExit :
    (scan true ⟨none, 1, 2, false, [first], []⟩ [⟨none, 1, 2, true, [first, second], [second]⟩] nestedExit).isSome :=
  scan_touches_mapped (by decide) nestedExit_reachable ⟨none, 1, 2, false, [first], []⟩ rfl true

/-- As long as every handler that is called can be marked, none is called twice, and what is called has been registered,
with this argument. -/
theorem called_once (hmax : 2 ≤ max) (h : Reachable max s) (hmarked : s.unmarked = 0) :
    (s.log.map Fn.serial).Nodup ∧ ∀ fn ∈ s.log, s.registered[fn.serial]? = some fn := by
  have hi := inv_reachable hmax h
  exact ⟨(hi.once hmarked).sublist ((List.sublist_append_left _ _).map Fn.serial), hi.logged⟩

theorem called_once_bothCalled :
    (bothCalled.log.map Fn.serial).Nodup ∧ ∀ fn ∈ bothCalled.log, bothCalled.registered[fn.serial]? = some fn :=
  called_once (by decide) bothCalled_reachable rfl

/-- When a call of `__cxa_finalize` is at its end, every handler that it found at its beginning has been called, by itself or
by another call, but for a cleanup function that has been replaced. -/
theorem finalize_complete (hmax : 2 ≤ max) (h : Reachable max s) (f : Frame F A D) (hf : f ∈ s.stack) (hend : f.page = 0) :
    ∀ fn ∈ f.due, fn ∈ s.log ∨ fn ∈ s.replaced := by
  intro fn hfn
  have hleft : left s.pages f = 0 := if_pos hend
  rcases ((inv_reachable hmax h).frames f hf).due fn hfn with hlog | hreplaced | htable
  · exact .inl hlog
  · exact .inr hreplaced
  · rw [hleft, List.take_zero] at htable
    cases htable

theorem finalize_complete_bothCalled : (first ∈ bothCalled.log ∨ first ∈ bothCalled.replaced) ∧
    (second ∈ bothCalled.log ∨ second ∈ bothCalled.replaced) := by
  have hcalled := finalize_complete (by decide) bothCalled_reachable ⟨none, 0, 0, false, [first, second], [first, second]⟩
    List.mem_cons_self rfl
  exact ⟨hcalled first List.mem_cons_self, hcalled second (List.mem_cons_of_mem _ List.mem_cons_self)⟩

/-- Of the handlers that one call of `__cxa_finalize` calls, those registered later come first, and the cleanup function is
the last one.  What is registered after the call has begun is not among them, but for a cleanup function. -/
theorem finalize_order (hmax : 2 ≤ max) (h : Reachable max s) (f : Frame F A D) (hf : f ∈ s.stack) :
    f.called.Pairwise (fun next fn => fn.reserved = false ∧ (next.reserved = true ∨ next.serial < fn.serial)) ∧
      ∀ fn ∈ f.called, fn ∈ f.due ∨ fn.reserved = true := by
  have hi := (inv_reachable hmax h).frames f hf
  refine ⟨hi.order.imp fun {next fn} hlt => ?_, hi.called⟩
  rw [Fn.key, Fn.key] at hlt
  cases hfn : fn.reserved <;> cases hnext : next.reserved
  · rw [hfn, hnext] at hlt
    exact ⟨rfl, .inr (Nat.lt_of_succ_lt_succ hlt)⟩
  · exact ⟨rfl, .inl rfl⟩
  all_goals
    rw [hfn] at hlt
    exact absurd hlt (Nat.not_lt_zero _)

theorem finalize_order_bothCalled :
    [first, second].Pairwise (fun next fn => fn.reserved = false ∧ (next.reserved = true ∨ next.serial < fn.serial)) ∧
      ∀ fn ∈ [first, second], fn ∈ [first, second] ∨ fn.reserved = true :=
  finalize_order (by decide) bothCalled_reachable ⟨none, 0, 0, false, [first, second], [first, second]⟩ List.mem_cons_self

end Bionic.Atexit
