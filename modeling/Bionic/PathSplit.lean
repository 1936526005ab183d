import Mathlib.Data.BitVec
import Mathlib.Data.List.DropRight
import Mathlib.Data.List.Basic
import Mathlib.Data.List.GetD
import Bionic.UserNames

/-! # Splitting a path (`libc/bionic/basename_r.c`, `libc/bionic/dirname_r.c`)

Both functions walk backwards from the end of the path, over the slashes behind the last component and over the
component itself; `dirname_r` goes on over the slashes in front of it.  A walk that stops at the first byte drops a suffix
(`scanBack_eq`, `findBase_eq`), so the two results are `path` less its trailing parts (`basename_eq`, `dirname_eq`), and
the components of the path are those of the directory and the base (`basename_r_dirname_r_split`). -/

namespace Bionic.PathSplit

open UserNames (CStr)

/-! ### The two functions -/

def MAXPATHLEN : ℕ := 4096

inductive Errno
  | ERANGE
  | ENAMETOOLONG
deriving DecidableEq, Repr

/-- The returned value, `errno` if it is set, and the string in the buffer if it is written. -/
structure Outcome where
  result : ℤ
  errno : Option Errno
  buffer : Option CStr
deriving DecidableEq, Repr

def isSlash (c : Char) : Bool := c == '/'

def notSlash (c : Char) : Bool := !isSlash c

/-- `path[i]`, with the terminating NUL behind the last character. -/
def charAt (path : CStr) (i : ℕ) : Char := path.getD i '\x00'

/-- `while (endp > path && p(*endp)) endp--`, from the index of `endp` to the one where it stops. -/
def scanBack (p : Char → Bool) (path : CStr) : ℕ → ℕ
  | 0 => 0
  | i + 1 => if p (charAt path (i + 1)) then scanBack p path i else i + 1

/-- `while (startp > path && *(startp - 1) != '/') startp--`. -/
def findBase (path : CStr) : ℕ → ℕ
  | 0 => 0
  | i + 1 => if notSlash (charAt path i) then findBase path i else i + 1

/-- The `len` characters at `startp` in `basename_r`, at `Exit`. -/
def basename : Option CStr → CStr
  | none => ['.']
  | some path =>
    if path = [] then ['.']
    else
      let endp := scanBack isSlash path (path.length - 1)
      if endp = 0 ∧ isSlash (charAt path endp) then ['/']
      else
        let startp := findBase path endp
        (path.drop startp).take (endp - startp + 1)

/-- The `len` characters at `path` in `dirname_r`, at `Exit`. -/
def dirname : Option CStr → CStr
  | none => ['.']
  | some path =>
    if path = [] then ['.']
    else
      let endp := scanBack isSlash path (path.length - 1)
      let endp := scanBack notSlash path endp
      if endp = 0 then if isSlash (charAt path endp) then ['/'] else ['.']
      else
        let endp := scanBack isSlash path (endp - 1)
        path.take (endp + 1)

/-- `Exit` of both functions: `len` is compared with `bufflen` as an `int`. -/
def copyOut (text : CStr) : Option (BitVec 32) → Outcome
  | none => ⟨text.length, none, none⟩
  | some bufflen =>
    let room := bufflen.toInt - 1
    let short := (text.length : ℤ) > room
    let len := if short then room else text.length
    ⟨if short then -1 else text.length, if short then some .ERANGE else none,
      if 0 ≤ len then some (text.take len.toNat) else none⟩

def basenameR (path : Option CStr) (bufflen : Option (BitVec 32)) : Outcome := copyOut (basename path) bufflen

def dirnameR (path : Option CStr) (bufflen : Option (BitVec 32)) : Outcome :=
  if (dirname path).length + 1 > MAXPATHLEN then ⟨-1, some .ENAMETOOLONG, none⟩ else copyOut (dirname path) bufflen

/-! ### Components -/

/-- The non-empty texts between the slashes. -/
def components (path : CStr) : List CStr := (path.splitOn '/').filter (· ≠ [])

def Absolute (path : CStr) : Prop := path.head? = some '/'

/-- `base` is the last component of `path`, and `dir` is the path in front of it. -/
structure Splits (path base dir : CStr) : Prop where
  last : (components path).getLast? = some base
  noSlash : '/' ∉ base
  single : ¬ Absolute path → (components path).length = 1 → dir = ['.']
  front : ¬ (¬ Absolute path ∧ (components path).length = 1) →
    components path = components dir ++ [base] ∧ (components dir ≠ [] → dir.getLast? ≠ some '/') ∧
      (Absolute dir ↔ Absolute path)

section Components

variable {l r : CStr}

theorem isSlash_iff {c : Char} : isSlash c = true ↔ c = '/' := beq_iff_eq

theorem notSlash_iff {c : Char} : notSlash c = true ↔ c ≠ '/' := by simp [notSlash, isSlash]

theorem components_nil : components [] = [] := by simp [components]

theorem components_append_slash (l r : CStr) : components (l ++ '/' :: r) = components l ++ components r := by
  rw [components, List.splitOn_append_cons_self, List.filter_append, components, components]

/-- Slashes at the end make no component. -/
theorem components_append_slashes (hr : ∀ c ∈ r, isSlash c = true) : components (l ++ r) = components l := by
  induction r generalizing l with
  | nil => rw [List.append_nil]
  | cons c r ih =>
    have hc : c = '/' := isSlash_iff.mp (hr c List.mem_cons_self)
    have hnil := ih (l := []) fun x hx => hr x (List.mem_cons_of_mem _ hx)
    rw [List.nil_append, components_nil] at hnil
    rw [hc, components_append_slash, hnil, List.append_nil]

theorem components_slashes (hr : ∀ c ∈ r, isSlash c = true) : components r = [] := by
  simpa [components_nil] using components_append_slashes (l := []) hr

theorem components_of_notSlash (hl : l ≠ []) (hslash : '/' ∉ l) : components l = [l] := by
  rw [components, List.splitOn_eq_singleton hslash]
  simp [hl]

/-- What is left of a text without its last characters that satisfy `p` is empty, or ends with one that does not. -/
theorem rdropWhile_cases (p : Char → Bool) (l : CStr) :
    l.rdropWhile p = [] ∨ ∃ k c, l.rdropWhile p = k ++ [c] ∧ p c = false := by
  rcases List.eq_nil_or_concat' (l.rdropWhile p) with h | ⟨k, c, h⟩
  · exact Or.inl h
  · refine Or.inr ⟨k, c, h, ?_⟩
    have hlast := List.rdropWhile_last_not p l (by simp [h])
    simpa [h] using hlast

/-- The characters behind the last slash are the last component, if there are any. -/
theorem components_rtakeWhile (h : l.rtakeWhile notSlash ≠ []) :
    components l = components (l.rdropWhile notSlash) ++ [l.rtakeWhile notSlash] := by
  have hslash : '/' ∉ l.rtakeWhile notSlash := fun hmem => notSlash_iff.mp (List.mem_rtakeWhile_imp hmem) rfl
  have hl : components l = components (l.rdropWhile notSlash ++ l.rtakeWhile notSlash) := by
    rw [List.rdropWhile_append_rtakeWhile]
  rw [hl]
  rcases rdropWhile_cases notSlash l with hnil | ⟨k, c, hk, hc⟩
  · rw [hnil, List.nil_append, components_of_notSlash h hslash, components_nil, List.nil_append]
  · have hc : c = '/' := by simpa [notSlash, isSlash] using hc
    rw [hk, hc, List.append_assoc, List.singleton_append, components_append_slash, components_append_slash,
      components_of_notSlash h hslash, components_nil, List.append_nil]

/-- A text that does not end with a slash has a component. -/
theorem components_concat_ne_nil {c : Char} (hc : c ≠ '/') : components (l ++ [c]) ≠ [] := by
  have hlast : (l ++ [c]).rtakeWhile notSlash ≠ [] := by
    rw [List.rtakeWhile_concat_pos _ _ _ (notSlash_iff.mpr hc)]
    simp
  rw [components_rtakeWhile hlast]
  simp

end Components

/-! ### The walks -/

section Walks

variable {path : CStr} {i : ℕ}

theorem take_succ_eq (h : i < path.length) : path.take (i + 1) = path.take i ++ [charAt path i] := by
  rw [List.take_succ_eq_append_getElem h, charAt, List.getD_eq_getElem _ _ h]

/-- A walk drops the characters it steps over from the end, except for the first one. -/
theorem scanBack_eq (p : Char → Bool) (path : CStr) (h : i < path.length) :
    scanBack p path i = ((path.take (i + 1)).rdropWhile p).length - 1 := by
  induction i with
  | zero =>
    have hle := (List.rdropWhile_prefix p (path.take 1)).length_le
    rw [List.length_take] at hle
    rw [scanBack, Nat.zero_add]
    omega
  | succ i ih =>
    rw [scanBack, take_succ_eq h, List.rdropWhile_concat]
    split
    · exact ih (by omega)
    · simp only [List.length_append, List.length_take, List.length_singleton]
      omega

theorem findBase_eq (h : i ≤ path.length) : findBase path i = ((path.take i).rdropWhile notSlash).length := by
  induction i with
  | zero => rfl
  | succ i ih =>
    rw [findBase, take_succ_eq h, List.rdropWhile_concat]
    split
    · exact ih (by omega)
    · simp only [List.length_append, List.length_take, List.length_singleton]
      omega

end Walks

/-! ### The results -/

/-- The path without the slashes at its end. -/
def trimmed (path : CStr) : CStr := path.rdropWhile isSlash

def lastComponent (path : CStr) : CStr := (trimmed path).rtakeWhile notSlash

/-- What is in front of the last component, with the slashes. -/
def front (path : CStr) : CStr := (trimmed path).rdropWhile notSlash

section Results

variable {path : CStr}

theorem front_append_lastComponent (path : CStr) : front path ++ lastComponent path = trimmed path :=
  List.rdropWhile_append_rtakeWhile

theorem components_trimmed (path : CStr) : components (trimmed path) = components path := by
  have hpath := components_append_slashes (l := trimmed path) (r := path.rtakeWhile isSlash)
    fun c hc => List.mem_rtakeWhile_imp hc
  rwa [trimmed, List.rdropWhile_append_rtakeWhile, eq_comm] at hpath

theorem trimmed_isPrefix (path : CStr) : trimmed path <+: path := List.rdropWhile_prefix _ _

theorem front_isPrefix (path : CStr) : front path <+: trimmed path := List.rdropWhile_prefix _ _

/-- With a component, the trimmed path ends with one of its characters. -/
theorem trimmed_eq_concat (hne : components path ≠ []) : ∃ k c, trimmed path = k ++ [c] ∧ c ≠ '/' := by
  rcases rdropWhile_cases isSlash path with hnil | ⟨k, c, hk, hc⟩
  · rw [← components_trimmed, trimmed, hnil, components_nil] at hne
    exact absurd rfl hne
  · exact ⟨k, c, hk, by simpa [isSlash] using hc⟩

theorem lastComponent_ne_nil (hne : components path ≠ []) : lastComponent path ≠ [] := by
  obtain ⟨k, c, hk, hc⟩ := trimmed_eq_concat hne
  rw [lastComponent, hk, List.rtakeWhile_concat_pos _ _ _ (notSlash_iff.mpr hc)]
  simp

theorem components_eq (hne : components path ≠ []) : components path = components (front path) ++ [lastComponent path] := by
  rw [← components_trimmed]
  exact components_rtakeWhile (lastComponent_ne_nil hne)

/-- Both functions first come to the last character of the trimmed path. -/
theorem strip_eq (hne : components path ≠ []) :
    path ≠ [] ∧ scanBack isSlash path (path.length - 1) + 1 = (trimmed path).length ∧ (trimmed path).length ≤ path.length := by
  obtain ⟨k, c, hk, -⟩ := trimmed_eq_concat hne
  have hle := (trimmed_isPrefix path).length_le
  have hpos : 0 < (trimmed path).length := by simp [hk]
  have hscan := scanBack_eq isSlash path (i := path.length - 1) (by omega)
  rw [Nat.sub_add_cancel (by omega), List.take_length] at hscan
  rw [trimmed] at hpos hle ⊢
  refine ⟨?_, by omega, hle⟩
  rintro rfl
  simp at hpos

theorem take_of_isPrefix {l : CStr} (h : l <+: path) : path.take l.length = l := (List.prefix_iff_eq_take.mp h).symm

theorem charAt_of_isPrefix {l : CStr} {c : Char} (h : l ++ [c] <+: path) : charAt path l.length = c := by
  obtain ⟨t, rfl⟩ := h
  simp [charAt]

theorem take_one_of_slashes {g : CStr} (hg : ∀ c ∈ g, isSlash c = true) (hpos : 0 < g.length) (hpre : g <+: path) :
    path.take 1 = ['/'] := by
  obtain ⟨t, rfl⟩ := hpre
  cases g with
  | nil => simp at hpos
  | cons c g => simpa using isSlash_iff.mp (hg c List.mem_cons_self)

theorem basename_eq (hne : components path ≠ []) : basename (some path) = lastComponent path := by
  obtain ⟨hnil, hstrip, hle⟩ := strip_eq hne
  obtain ⟨k, c, hk, hc⟩ := trimmed_eq_concat hne
  have hpre : k ++ [c] <+: path := hk ▸ trimmed_isPrefix path
  have hlen : scanBack isSlash path (path.length - 1) = k.length := by
    rw [hk, List.length_append, List.length_singleton] at hstrip
    omega
  have hfront : front path = k.rdropWhile notSlash := by
    rw [front, hk, List.rdropWhile_concat_pos _ _ _ (notSlash_iff.mpr hc)]
  have hfind : findBase path k.length = (front path).length := by
    rw [findBase_eq (by rw [hk, List.length_append] at hle; omega), take_of_isPrefix ((List.prefix_append k [c]).trans hpre),
      hfront]
  have hshort : (front path).length ≤ k.length := hfront ▸ (List.rdropWhile_prefix _ _).length_le
  obtain ⟨t, ht⟩ := trimmed_isPrefix path
  have hsize : k.length - (front path).length + 1 = (lastComponent path).length := by
    have h := congrArg List.length (front_append_lastComponent path)
    rw [hk, List.length_append, List.length_append, List.length_singleton] at h
    omega
  have hdrop : path.drop (front path).length = lastComponent path ++ t := by
    have hpath : path = front path ++ (lastComponent path ++ t) := by
      rw [← List.append_assoc, front_append_lastComponent, ht]
    calc path.drop (front path).length
        = (front path ++ (lastComponent path ++ t)).drop (front path).length := by rw [← hpath]
      _ = lastComponent path ++ t := List.drop_left
  have hslash : ¬ (k.length = 0 ∧ isSlash (charAt path k.length) = true) := by
    rw [charAt_of_isPrefix hpre, isSlash_iff]
    exact fun h => hc h.2
  simp only [basename, if_neg hnil, hlen, if_neg hslash, hfind]
  rw [hdrop, hsize, List.take_left]

/-- Without a front the path starts with its base. -/
theorem start_of_front_nil (hne : components path ≠ []) (hfront : front path = []) : ∃ b l, path = b :: l ∧ b ≠ '/' := by
  obtain ⟨b, l, hb⟩ := List.exists_cons_of_ne_nil (lastComponent_ne_nil hne)
  have hbase : b ∈ (trimmed path).rtakeWhile notSlash := by
    rw [← lastComponent, hb]
    exact List.mem_cons_self
  obtain ⟨t, ht⟩ := trimmed_isPrefix path
  rw [← front_append_lastComponent, hfront, hb] at ht
  exact ⟨b, l ++ t, ht.symm, notSlash_iff.mp (List.mem_rtakeWhile_imp hbase)⟩

theorem dirname_eq (hne : components path ≠ []) : dirname (some path) =
    if front path = [] then ['.']
    else if (front path).rdropWhile isSlash = [] then ['/'] else (front path).rdropWhile isSlash := by
  obtain ⟨hnil, hstrip, hle⟩ := strip_eq hne
  have hpre : front path <+: path := (front_isPrefix path).trans (trimmed_isPrefix path)
  have hscan : scanBack notSlash path (scanBack isSlash path (path.length - 1)) = (front path).length - 1 := by
    rw [scanBack_eq notSlash path (by omega), hstrip, take_of_isPrefix (trimmed_isPrefix path), front]
  simp only [dirname, if_neg hnil, hscan]
  rcases rdropWhile_cases notSlash (trimmed path) with hfront | ⟨g, s, hg, hs⟩
  · obtain ⟨b, l, rfl, hb⟩ := start_of_front_nil hne hfront
    have hslash : ¬ isSlash (charAt (b :: l) 0) = true := mt isSlash_iff.mp hb
    rw [← front] at hfront
    simp [hfront, hslash]
  · rw [← front] at hg
    have hs : s = '/' := by simpa [notSlash, isSlash] using hs
    subst hs
    have hdrop : (front path).rdropWhile isSlash = g.rdropWhile isSlash := by
      rw [hg, List.rdropWhile_concat_pos _ _ _ (isSlash_iff.mpr rfl)]
    have hgpre : g <+: path := (List.prefix_append g ['/']).trans (hg ▸ hpre)
    rw [hdrop, hg, if_neg (by simp : ¬ g ++ ['/'] = [])]
    rw [List.length_append, List.length_singleton, Nat.add_sub_cancel, charAt_of_isPrefix (hg ▸ hpre),
      if_pos (isSlash_iff.mpr rfl)]
    rcases Nat.eq_zero_or_pos g.length with hzero | hpos
    · rw [if_pos hzero, List.eq_nil_of_length_eq_zero hzero, List.rdropWhile_nil, if_pos rfl]
    · have hback : scanBack isSlash path (g.length - 1) = (g.rdropWhile isSlash).length - 1 := by
        rw [scanBack_eq isSlash path (by have h := hgpre.length_le; omega), Nat.sub_add_cancel hpos, take_of_isPrefix hgpre]
      rw [if_neg (by omega), hback]
      split
      · next hall =>
        rw [hall]
        exact take_one_of_slashes (List.rdropWhile_eq_nil_iff.mp hall) hpos hgpre
      · next hsome =>
        rw [Nat.sub_add_cancel (List.length_pos_iff.mpr hsome),
          take_of_isPrefix ((List.rdropWhile_prefix isSlash g).trans hgpre)]

theorem notSlash_lastComponent (path : CStr) : '/' ∉ lastComponent path :=
  fun hmem => notSlash_iff.mp (List.mem_rtakeWhile_imp hmem) rfl

theorem lastComponent_length_le (path : CStr) : (lastComponent path).length ≤ path.length := by
  have h := congrArg List.length (front_append_lastComponent path)
  have hle := (trimmed_isPrefix path).length_le
  rw [List.length_append] at h
  omega

theorem dirname_length_le (hne : components path ≠ []) : (dirname (some path)).length ≤ path.length := by
  have hpos := List.length_pos_iff.mpr (strip_eq hne).1
  have hfront := ((front_isPrefix path).trans (trimmed_isPrefix path)).length_le
  have hdir := (List.rdropWhile_prefix isSlash (front path)).length_le
  rw [dirname_eq hne]
  split_ifs
  · exact hpos
  · exact hpos
  · omega

/-- Without the slashes at its end the front has the same components. -/
theorem components_rdropWhile (path : CStr) : components ((front path).rdropWhile isSlash) = components (front path) :=
  components_trimmed (front path)

/-- Without the slashes at its end the front is empty, and then the path starts with a slash, or it has a component. -/
theorem front_cases (hfront : front path ≠ []) : Absolute path ∧ (front path).rdropWhile isSlash = [] ∨
    ∃ k c, (front path).rdropWhile isSlash = k ++ [c] ∧ c ≠ '/' ∧ path.head? = (k ++ [c]).head? := by
  have hpre : front path <+: path := (front_isPrefix path).trans (trimmed_isPrefix path)
  rcases rdropWhile_cases isSlash (front path) with hnil | ⟨k, c, hk, hc⟩
  · have hone := take_one_of_slashes (List.rdropWhile_eq_nil_iff.mp hnil) (List.length_pos_iff.mpr hfront) hpre
    have hhead : (path.take 1).head? = path.head? := by simp [List.head?_take]
    exact Or.inl ⟨hhead.symm.trans (congrArg List.head? hone), hnil⟩
  · obtain ⟨t, ht⟩ := (hk ▸ List.rdropWhile_prefix isSlash (front path)).trans hpre
    refine Or.inr ⟨k, c, hk, by simpa [isSlash] using hc, ?_⟩
    rw [← ht, List.head?_append_of_ne_nil _ (by simp)]

/-- A path with one component that does not start with a slash has no front. -/
theorem front_eq_nil_iff (hne : components path ≠ []) :
    front path = [] ↔ ¬ Absolute path ∧ (components path).length = 1 := by
  have hcomp := components_eq hne
  constructor
  · intro hfront
    obtain ⟨b, l, hpath, hb⟩ := start_of_front_nil hne hfront
    rw [hcomp, hfront, components_nil]
    exact ⟨by simp [Absolute, hpath, hb], rfl⟩
  · rintro ⟨habs, hone⟩
    by_contra hfront
    rcases front_cases hfront with ⟨h, -⟩ | ⟨k, c, hk, hc, -⟩
    · exact habs h
    · have hfrontNil : components (front path) = [] := by
        rw [hcomp, List.length_append, List.length_singleton] at hone
        exact List.eq_nil_of_length_eq_zero (by omega)
      rw [← components_rdropWhile, hk] at hfrontNil
      exact components_concat_ne_nil hc hfrontNil

theorem splits (hne : components path ≠ []) : Splits path (lastComponent path) (dirname (some path)) where
  last := by rw [components_eq hne, List.getLast?_concat]
  noSlash := notSlash_lastComponent path
  single habs hone := by rw [dirname_eq hne, if_pos ((front_eq_nil_iff hne).mpr ⟨habs, hone⟩)]
  front hmore := by
    have hfront : front path ≠ [] := mt (front_eq_nil_iff hne).mp hmore
    rw [dirname_eq hne, if_neg hfront, components_eq hne, ← components_rdropWhile]
    rcases front_cases hfront with ⟨habs, hnil⟩ | ⟨k, c, hk, hc, hhead⟩
    · have hroot : components ['/'] = [] := components_slashes (by simp [isSlash])
      rw [if_pos hnil, hnil, hroot, components_nil]
      exact ⟨rfl, fun h => absurd rfl h, iff_of_true rfl habs⟩
    · rw [hk, if_neg (by simp)]
      refine ⟨rfl, fun _ => by simpa using hc, ?_⟩
      rw [Absolute, Absolute, hhead]

end Results

/-- The string that the call puts into a buffer with room for it, which is also what the call returns. -/
theorem copyOut_of_room {text : CStr} {bufflen : BitVec 32} (h : (text.length : ℤ) < bufflen.toInt) :
    copyOut text (some bufflen) = ⟨text.length, none, some text⟩ := by
  simp [copyOut, show ¬ (text.length : ℤ) > bufflen.toInt - 1 by omega]

/-- Neither result is longer than the path, so buffers with room for the path have room for both. -/
theorem room_of_length {path : CStr} (hne : components path ≠ []) :
    (basename (some path)).length ≤ path.length ∧ (dirname (some path)).length ≤ path.length :=
  ⟨basename_eq hne ▸ lastComponent_length_le path, dirname_length_le hne⟩

/-- For a path that is short enough and has a component, with room in both buffers, `basename_r` returns the last
component and `dirname_r` the path in front of it.  A `bufflen` of 2 ^ 31 or more counts as negative: both fail with
`ERANGE`. -/
theorem basename_r_dirname_r_split (path : CStr) (hlen : path.length < MAXPATHLEN) (hne : components path ≠ [])
    (m n : BitVec 32) (hm : ((basename (some path)).length : ℤ) < m.toInt)
    (hn : ((dirname (some path)).length : ℤ) < n.toInt) :
    ∃ base dir, basenameR (some path) (some m) = ⟨base.length, none, some base⟩ ∧
      dirnameR (some path) (some n) = ⟨dir.length, none, some dir⟩ ∧ Splits path base dir := by
  refine ⟨basename (some path), dirname (some path), copyOut_of_room hm, ?_, ?_⟩
  · have hle := dirname_length_le hne
    rw [dirnameR, if_neg (by omega), copyOut_of_room hn]
  · rw [basename_eq hne]
    exact splits hne

/-- `//usr/lib//` is split into `//usr` and `lib`. -/
theorem basename_r_dirname_r_split_usr_lib : components "//usr/lib//".toList ≠ [] ∧
    ∃ base dir, basenameR (some "//usr/lib//".toList) (some 4) = ⟨base.length, none, some base⟩ ∧
      dirnameR (some "//usr/lib//".toList) (some 6) = ⟨dir.length, none, some dir⟩ ∧ Splits "//usr/lib//".toList base dir :=
  ⟨by decide, basename_r_dirname_r_split _ (by decide) (by decide) 4 6 (by decide) (by decide)⟩

end Bionic.PathSplit
