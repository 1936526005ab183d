import Mathlib.Logic.Function.Basic
import Bionic.Fields

/-! # `LD_LIBRARY_PATH` (`parse_library_path` of `linker/linker.c`)

The path is copied into a buffer of `LDPATH_BUFSIZE` bytes and split in place, a NUL for each `:`, until `LDPATH_MAX`
non-empty directories have been found.  When the copy was cut short, the last directory is forgotten unless the last
byte of the copy is NUL by then.

* **Soundness.**  What is stored is a list of complete components of the path (`ldpaths_sound`).
* **Completeness.**  With `LDPATH_MAX` directories found, the loop does not reach the rest of the copy, and its last byte
  is no NUL because of text behind the last directory, which was not cut short at all (`storesComplete_iff`). -/

namespace Bionic.LibraryPath

def LDPATH_BUFSIZE : ℕ := 512

def LDPATH_MAX : ℕ := 8

def NUL : Char := '\x00'

/-- The bytes of a C string, without its final NUL. -/
abbrev CStr := List Char

abbrev Buffer := ℕ → Char

/-- `ldpaths_buf` and `ldpaths`; an entry is an offset in the buffer. -/
structure Paths where
  ldpathsBuf : Buffer
  ldpaths : ℕ → Option ℕ

/-- An argument: what a `char *` can point to. -/
def CString := { w : CStr // NUL ∉ w }

/-! ### The source -/

/-- The buffer and the length of `src`. -/
def strlcpy (buf : Buffer) (src : CStr) (siz : ℕ) : Buffer × ℕ :=
  (fun j => if j < min src.length (siz - 1) then src.getD j NUL
    else if 0 < siz ∧ j = min src.length (siz - 1) then NUL else buf j, src.length)

/-- Where the inner loop of `strsep` stops: at a byte of `delim` or at NUL, among the next `n` bytes. -/
def scan (buf : Buffer) (delim : CStr) : ℕ → ℕ → Option ℕ
  | 0, _ => none
  | n + 1, s => if buf s ∈ delim ∨ buf s = NUL then some s else scan buf delim n (s + 1)

/-- The buffer, `*stringp` and the token; `none` when it would read behind the buffer. -/
def strsep (buf : Buffer) (stringp : Option ℕ) (delim : CStr) : Option (Buffer × Option ℕ × Option ℕ) :=
  match stringp with
  | none => some (buf, none, none)
  | some s => do
    let e ← scan buf delim (LDPATH_BUFSIZE - s) s
    if buf e = NUL then some (buf, none, some s)
    else some (Function.update buf e NUL, some (e + 1), some s)

/-- The loop: `i` and the two arrays. -/
def splitPaths (delim : CStr) : ℕ → ℕ → Option ℕ → Paths → Option (ℕ × Paths)
  | 0, _, _, _ => none
  | fuel + 1, i, bufp, P =>
    if i < LDPATH_MAX then do
      let (buf, bufp', tok) ← strsep P.ldpathsBuf bufp delim
      let P' : Paths := ⟨buf, Function.update P.ldpaths i tok⟩
      match tok with
      | none => some (i, P')
      | some t => if buf t ≠ NUL then splitPaths delim fuel (i + 1) bufp' P' else splitPaths delim fuel i bufp' P'
    else some (i, P)

def parseLibraryPath (P : Paths) (path delim : CStr) : Option Paths := do
  let (buf, len) := strlcpy P.ldpathsBuf path LDPATH_BUFSIZE
  let (i, P') ← splitPaths delim (LDPATH_BUFSIZE + 2) 0 (some 0) { P with ldpathsBuf := buf }
  -- "Forget the last path if we had to truncate"
  if 0 < i ∧ LDPATH_BUFSIZE ≤ len ∧ P'.ldpathsBuf (LDPATH_BUFSIZE - 2) ≠ NUL then
    some { P' with ldpaths := Function.update P'.ldpaths (i - 1) none }
  else some { P' with ldpaths := Function.update P'.ldpaths i none }

/-! ### Strings in the buffer -/

/-- The C string `w` stands at `p`. -/
def StrAt (buf : Buffer) : ℕ → CStr → Prop
  | p, [] => buf p = NUL
  | p, c :: w => c ≠ NUL ∧ buf p = c ∧ StrAt buf (p + 1) w

/-- The entries of `ldpaths` from `i` on, up to the first NULL. -/
def EntriesFrom (P : Paths) : ℕ → List CStr → Prop
  | i, [] => P.ldpaths i = none
  | i, w :: ws => (∃ p, P.ldpaths i = some p ∧ StrAt P.ldpathsBuf p w) ∧ EntriesFrom P (i + 1) ws

def Entries (P : Paths) (ws : List CStr) : Prop := EntriesFrom P 0 ws

section Strings

variable {buf buf' : Buffer} {p : ℕ} {w w' : CStr} {P : Paths}

theorem StrAt.unique (h : StrAt buf p w) (h' : StrAt buf p w') : w = w' := by
  induction w generalizing p w' with
  | nil =>
    cases w' with
    | nil => rfl
    | cons c w' => exact absurd (h'.2.1.symm.trans h) h'.1
  | cons c w ih =>
    cases w' with
    | nil => exact absurd (h.2.1.symm.trans h') h.1
    | cons c' w' => rw [← h.2.1, ← h'.2.1, ih h.2.2 h'.2.2]

theorem StrAt.eq_nul_iff (h : StrAt buf p w) : buf p = NUL ↔ w = [] := by
  cases w with
  | nil => exact iff_of_true h rfl
  | cons c w => exact iff_of_false (fun hb => h.1 (h.2.1.symm.trans hb)) (List.cons_ne_nil c w)

theorem EntriesFrom.unique {ws ws' : List CStr} {i : ℕ} (h : EntriesFrom P i ws) (h' : EntriesFrom P i ws') :
    ws = ws' := by
  induction ws generalizing i ws' with
  | nil =>
    cases ws' with
    | nil => rfl
    | cons w' ws' =>
      obtain ⟨⟨p, hp, -⟩, -⟩ := h'
      exact absurd (hp.symm.trans h) (by simp)
  | cons w ws ih =>
    obtain ⟨⟨p, hp, hw⟩, hr⟩ := h
    cases ws' with
    | nil => exact absurd (hp.symm.trans h') (by simp)
    | cons w' ws' =>
      obtain ⟨⟨p', hp', hw'⟩, hr'⟩ := h'
      obtain rfl : p = p' := Option.some.inj (hp.symm.trans hp')
      rw [hw.unique hw', ih hr hr']

theorem StrAt.congr (h : StrAt buf p w) (hf : ∀ j, p ≤ j → j ≤ p + w.length → buf' j = buf j) :
    StrAt buf' p w := by
  induction w generalizing p with
  | nil => exact (hf p (Nat.le_refl _) (by simp)).trans h
  | cons c w ih =>
    refine ⟨h.1, (hf p (Nat.le_refl _) (by simp)).trans h.2.1, ih h.2.2 fun j hj hj' => hf j (by omega) ?_⟩
    rw [List.length_cons]
    omega

theorem StrAt.cut {c : CStr} (h : StrAt buf p (w ++ c)) (he : buf' (p + w.length) = NUL)
    (hf : ∀ j, p ≤ j → j < p + w.length → buf' j = buf j) : StrAt buf' p w := by
  induction w generalizing p with
  | nil => exact he
  | cons a w ih =>
    refine ⟨h.1, (hf p (Nat.le_refl _) (by simp)).trans h.2.1, ih h.2.2 ?_ fun j hj hj' => hf j (by omega) ?_⟩
    · rw [← he, List.length_cons, Nat.add_right_comm, Nat.add_assoc]
    · rw [List.length_cons]
      omega

theorem StrAt.suffix {c : CStr} (h : StrAt buf p (w ++ c)) : StrAt buf (p + w.length) c := by
  induction w generalizing p with
  | nil => exact h
  | cons a w ih =>
    rw [List.length_cons, show p + (w.length + 1) = p + 1 + w.length by omega]
    exact ih h.2.2

theorem StrAt.last {c : Char} (h : StrAt buf p (w ++ [c])) : buf (p + w.length) = c ∧ c ≠ NUL :=
  ⟨h.suffix.2.1, h.suffix.1⟩

theorem strAt_of_getElem? (hn : NUL ∉ w) (hb : ∀ j c, w[j]? = some c → buf (p + j) = c)
    (he : buf (p + w.length) = NUL) : StrAt buf p w := by
  induction w generalizing p with
  | nil => exact he
  | cons a w ih =>
    rw [List.mem_cons, not_or] at hn
    refine ⟨Ne.symm hn.1, hb 0 a rfl, ih hn.2 (fun j c hc => ?_) ?_⟩
    · rw [Nat.add_right_comm]
      exact hb (j + 1) c (by simpa using hc)
    · rw [← he, List.length_cons, Nat.add_right_comm, Nat.add_assoc]

theorem strAt_strlcpy {src : CStr} (hs : NUL ∉ src) {n : ℕ} (h0 : 0 < n) (buf : Buffer) :
    StrAt (strlcpy buf src n).1 0 (src.take (n - 1)) := by
  have hlen : (src.take (n - 1)).length = min src.length (n - 1) := by rw [List.length_take, Nat.min_comm]
  refine strAt_of_getElem? (fun hn => hs (List.mem_of_mem_take hn)) (fun j c hc => ?_) ?_
  · obtain ⟨hj, -⟩ := List.getElem?_eq_some_iff.mp hc
    rw [List.getElem?_take_of_lt (by omega)] at hc
    simp only [strlcpy, Nat.zero_add]
    rw [if_pos (by omega), List.getD_eq_getElem?_getD, hc, Option.getD_some]
  · simp only [strlcpy, Nat.zero_add]
    rw [if_neg (by omega), if_pos ⟨h0, hlen⟩]

end Strings

/-! ### Components -/

def components (text : CStr) : List CStr := text.splitOn ':'

/-- The components of `text` that a `:` ends. -/
def complete (text : CStr) : List CStr := Fields.ended ':' text

def named (cs : List CStr) : List CStr := cs.filter (· ≠ [])

section Components

variable {t c : CStr}

theorem components_of_notMem (h : ':' ∉ t) : components t = [t] := List.splitOn_eq_singleton h

theorem components_append (h : ':' ∉ c) : components (c ++ ':' :: t) = c :: components t :=
  List.splitOn_append_cons_self_of_not_mem h t

theorem complete_append (h : ':' ∉ c) : complete (c ++ ':' :: t) = c :: complete t := Fields.ended_append h

theorem named_cons (c : CStr) (cs : List CStr) :
    named (c :: cs) = if c = [] then named cs else c :: named cs := by
  by_cases h : c = [] <;> simp [named, h]

theorem named_append (cs cs' : List CStr) : named (cs ++ cs') = named cs ++ named cs' := List.filter_append ..

theorem mem_named {c : CStr} {cs : List CStr} (h : c ∈ named cs) : c ≠ [] := by simpa using (List.mem_filter.mp h).2

end Components

/-! ### The loop -/

section Loop

variable {buf : Buffer} {s : ℕ} {t c : CStr}

theorem scan_notMem {r : CStr} (h : StrAt buf s (c ++ r)) (hc : ':' ∉ c) {n : ℕ} (hn : c.length < n)
    (hr : r = [] ∨ ∃ r', r = ':' :: r') : scan buf [':'] n s = some (s + c.length) := by
  induction c generalizing s n with
  | nil =>
    obtain ⟨n, rfl⟩ : ∃ m, n = m + 1 := ⟨n - 1, by simp at hn; omega⟩
    rw [scan, if_pos, List.length_nil, Nat.add_zero]
    rcases hr with rfl | ⟨r', rfl⟩
    · exact Or.inr h
    · exact Or.inl (h.2.1 ▸ List.mem_singleton_self _)
  | cons a c ih =>
    rw [List.length_cons] at hn
    obtain ⟨n, rfl⟩ : ∃ m, n = m + 1 := ⟨n - 1, by omega⟩
    rw [List.mem_cons, not_or] at hc
    rw [scan, if_neg, ih h.2.2 hc.2 (by omega), List.length_cons, Nat.add_assoc, Nat.add_comm 1]
    rw [h.2.1, List.mem_singleton, not_or]
    exact ⟨Ne.symm hc.1, h.1⟩

theorem strsep_none (buf : Buffer) (delim : CStr) : strsep buf none delim = some (buf, none, none) := rfl

theorem strsep_last (h : StrAt buf s t) (ht : ':' ∉ t) (hs : s + t.length < LDPATH_BUFSIZE) :
    strsep buf (some s) [':'] = some (buf, none, some s) := by
  have hscan := scan_notMem (r := []) (n := LDPATH_BUFSIZE - s) (by rwa [List.append_nil]) ht (by omega) (Or.inl rfl)
  have he : buf (s + t.length) = NUL := by
    rw [← List.append_nil t] at h
    exact h.suffix
  simp [strsep, hscan, he]

theorem strsep_component (h : StrAt buf s (c ++ ':' :: t)) (hc : ':' ∉ c)
    (hs : s + (c ++ ':' :: t).length < LDPATH_BUFSIZE) :
    strsep buf (some s) [':'] =
      some (Function.update buf (s + c.length) NUL, some (s + c.length + 1), some s) := by
  rw [List.length_append] at hs
  have hscan := scan_notMem (n := LDPATH_BUFSIZE - s) h hc (by omega) (Or.inr ⟨t, rfl⟩)
  have he : buf (s + c.length) ≠ NUL := h.suffix.2.1 ▸ h.suffix.1
  simp [strsep, hscan, he]

/-- The first `n` directories of `t`. -/
def directories (n : ℕ) (t : CStr) : List CStr := (named (components t)).take n

theorem directories_of_notMem (h : ':' ∉ t) (n : ℕ) :
    directories (n + 1) t = if t = [] then [] else [t] := by
  rw [directories, components_of_notMem h, named_cons]
  by_cases ht : t = [] <;> simp [ht, named]

theorem directories_append (h : ':' ∉ c) (n : ℕ) :
    directories (n + 1) (c ++ ':' :: t) =
      if c = [] then directories (n + 1) t else c :: directories n t := by
  rw [directories, components_append h, named_cons]
  by_cases hc : c = [] <;> simp [hc, directories]

/-- What the loop leaves, started at `i` on the text `t` at `s`. -/
structure Splits (P P' : Paths) (i s : ℕ) (t : CStr) : Prop where
  strings : ∀ k w, (directories (LDPATH_MAX - i) t)[k]? = some w →
    ∃ p, P'.ldpaths (i + k) = some p ∧ StrAt P'.ldpathsBuf p w
  buf_frame : ∀ j < s, P'.ldpathsBuf j = P.ldpathsBuf j
  ldpaths_frame : ∀ k < i, P'.ldpaths k = P.ldpaths k
  last_byte : t ≠ [] → (P'.ldpathsBuf (s + (t.length - 1)) = NUL ↔
    t.getLast? = some ':' ∧ (named (complete t.dropLast)).length < LDPATH_MAX - i)

variable {P P' : Paths} {i b : ℕ} {bufp : Option ℕ}

theorem splitPaths_full (h : ¬ i < LDPATH_MAX) (hf : 0 < b) (delim : CStr) :
    splitPaths delim b i bufp P = some (i, P) := by
  obtain ⟨f, rfl⟩ : ∃ f, b = f + 1 := ⟨b - 1, by omega⟩
  rw [splitPaths, if_neg h]

theorem splitPaths_step {delim : CStr} {buf' : Buffer} {bufp' : Option ℕ} {p : ℕ} (hi : i < LDPATH_MAX)
    (h : strsep P.ldpathsBuf bufp delim = some (buf', bufp', some p)) :
    splitPaths delim (b + 1) i bufp P =
      splitPaths delim b (if buf' p = NUL then i else i + 1) bufp'
        ⟨buf', Function.update P.ldpaths i (some p)⟩ := by
  rw [splitPaths, if_pos hi, h]
  by_cases hb : buf' p = NUL <;> simp [hb]

/-- Once `strsep` has handed out the last component. -/
theorem splitPaths_none (hf : 0 < b) (P : Paths) (delim : CStr) :
    ∃ ld, splitPaths delim b i none P = some (i, ⟨P.ldpathsBuf, ld⟩) ∧ ∀ k < i, ld k = P.ldpaths k := by
  obtain ⟨f, rfl⟩ : ∃ f, b = f + 1 := ⟨b - 1, by omega⟩
  by_cases hi : i < LDPATH_MAX
  · refine ⟨Function.update P.ldpaths i none, ?_, fun k hk => Function.update_of_ne (by omega) _ _⟩
    rw [splitPaths, if_pos hi, strsep_none]
    rfl
  · exact ⟨P.ldpaths, splitPaths_full hi (by omega) delim, fun k _ => rfl⟩

theorem getLast?_ne_nil_append (ht : t ≠ []) (c : CStr) : (c ++ ':' :: t).getLast? = t.getLast? := by
  rw [List.getLast?_append, List.getLast?_cons_of_ne_nil ht]
  cases h : t.getLast? with
  | none => exact absurd (List.getLast?_eq_none_iff.mp h) ht
  | some a => rfl

theorem StrAt.last_byte (h : StrAt buf s t) (ht : t ≠ []) :
    buf (s + (t.length - 1)) ≠ NUL ∧ t.getLast? = some (buf (s + (t.length - 1))) := by
  obtain ⟨u, a, rfl⟩ := (List.eq_nil_or_concat t).resolve_left ht
  rw [List.concat_eq_append] at h ⊢
  obtain ⟨hb, ha⟩ := h.last
  rw [List.length_append, List.length_singleton, Nat.add_sub_cancel, hb, List.getLast?_concat]
  exact ⟨ha, rfl⟩

theorem splits_full (h : StrAt P.ldpathsBuf s t) (hi : ¬ i < LDPATH_MAX) : Splits P P i s t where
  strings k w hw := by
    rw [show LDPATH_MAX - i = 0 by omega, directories, List.take_zero] at hw
    exact absurd hw (by simp)
  buf_frame _ _ := rfl
  ldpaths_frame _ _ := rfl
  last_byte ht := by
    have hn := (h.last_byte ht).1
    exact ⟨fun hb => absurd hb hn, fun hr => absurd hr.2 (by omega)⟩

theorem splits_last {ld : ℕ → Option ℕ} (h : StrAt P.ldpathsBuf s t) (ht : ':' ∉ t) (hi : i < LDPATH_MAX)
    (hld : t ≠ [] → ld i = some s) (hfr : ∀ k < i, ld k = P.ldpaths k) :
    Splits P ⟨P.ldpathsBuf, ld⟩ i s t where
  strings k w hw := by
    rw [show LDPATH_MAX - i = LDPATH_MAX - i - 1 + 1 by omega, directories_of_notMem ht] at hw
    by_cases h0 : t = []
    · exact absurd hw (by simp [h0])
    · rw [if_neg h0] at hw
      obtain ⟨rfl, rfl⟩ : k = 0 ∧ t = w := by cases k <;> simp_all
      exact ⟨s, hld h0, h⟩
  buf_frame _ _ := rfl
  ldpaths_frame := hfr
  last_byte h0 := by
    obtain ⟨hn, hl⟩ := h.last_byte h0
    refine ⟨fun hb => absurd hb hn, fun hr => absurd (List.mem_of_getLast? hr.1) ht⟩

/-- One component is split off, and the loop goes on behind it at `i'`. -/
theorem Splits.append {i' : ℕ} {ld : ℕ → Option ℕ} (h : StrAt P.ldpathsBuf s (c ++ ':' :: t)) (hc : ':' ∉ c)
    (hi : i < LDPATH_MAX) (hi' : i' = if c = [] then i else i + 1)
    (hld : ld i = some s) (hfr : ∀ k < i, ld k = P.ldpaths k)
    (hs : Splits ⟨Function.update P.ldpathsBuf (s + c.length) NUL, ld⟩ P' i' (s + c.length + 1) t) :
    Splits P P' i s (c ++ ':' :: t) := by
  have hframe : ∀ j < s + c.length, P'.ldpathsBuf j = P.ldpathsBuf j := fun j hj => by
    rw [hs.buf_frame j (by omega)]
    exact Function.update_of_ne (by omega) _ _
  have hnul : P'.ldpathsBuf (s + c.length) = NUL := by
    rw [hs.buf_frame _ (by omega)]
    exact Function.update_self ..
  have hn : LDPATH_MAX - i = LDPATH_MAX - i - 1 + 1 := by omega
  refine ⟨fun k w hw => ?_, fun j hj => hframe j (by omega), fun k hk => ?_, fun _ => ?_⟩
  · rw [hn, directories_append hc] at hw
    by_cases h0 : c = []
    · rw [if_pos h0, ← hn] at hw
      rw [if_pos h0] at hi'
      subst hi'
      exact hs.strings k w hw
    · rw [if_neg h0] at hw hi'
      subst hi'
      cases k with
      | zero =>
        obtain rfl : c = w := by simpa using hw
        refine ⟨s, ?_, h.cut hnul fun j _ hj => hframe j hj⟩
        rw [Nat.add_zero, hs.ldpaths_frame i (by omega)]
        exact hld
      | succ k =>
        obtain ⟨p, hp, hw'⟩ := hs.strings k w (by simpa [Nat.sub_sub] using hw)
        exact ⟨p, by rw [← hp, Nat.add_right_comm, Nat.add_assoc], hw'⟩
  · rw [hs.ldpaths_frame k (by split at hi' <;> omega)]
    exact hfr k hk
  · by_cases ht : t = []
    · subst ht
      have h1 : complete c = [] := Fields.ended_of_notMem hc
      rw [List.length_append, List.length_singleton, Nat.add_sub_cancel, hnul, List.getLast?_concat,
        List.dropLast_concat, h1]
      exact ⟨fun _ => ⟨rfl, by simp [named]; omega⟩, fun _ => rfl⟩
    · have hlen : 0 < t.length := List.length_pos_of_ne_nil ht
      rw [List.length_append, List.length_cons, show s + (c.length + (t.length + 1) - 1) =
        s + c.length + 1 + (t.length - 1) by omega, hs.last_byte ht, getLast?_ne_nil_append ht,
        List.dropLast_append_of_ne_nil (by simp), List.dropLast_cons_of_ne_nil ht, complete_append hc, named_cons]
      by_cases h0 : c = []
      · rw [if_pos h0] at hi' ⊢
        rw [hi']
      · rw [if_neg h0] at hi' ⊢
        rw [hi', List.length_cons]
        exact and_congr_right fun _ => by omega

/-- The loop ends, with `i` past the directories it has found. -/
theorem splitPaths_spec (h : StrAt P.ldpathsBuf s t) (hs : s + t.length < LDPATH_BUFSIZE)
    (hf : t.length + 2 ≤ b) (hi : i ≤ LDPATH_MAX) :
    ∃ P', splitPaths [':'] b i (some s) P = some (i + (directories (LDPATH_MAX - i) t).length, P') ∧
      Splits P P' i s t := by
  induction hn : t.length using Nat.strongRecOn generalizing t s i P b with
  | ind n ih =>
    by_cases hlt : i < LDPATH_MAX
    swap
    · refine ⟨P, ?_, splits_full h hlt⟩
      rw [splitPaths_full hlt (by omega), show LDPATH_MAX - i = 0 by omega]
      rfl
    have hm : LDPATH_MAX - i = LDPATH_MAX - i - 1 + 1 := by omega
    obtain ⟨f, rfl⟩ : ∃ f, b = f + 1 := ⟨b - 1, by omega⟩
    rcases Fields.first_separator ':' t with ht | ⟨c, t', hc, rfl⟩
    · rw [splitPaths_step hlt (strsep_last h ht hs)]
      have h0 := h.eq_nul_iff
      obtain ⟨ld, hstop, hld⟩ := splitPaths_none (i := if P.ldpathsBuf s = NUL then i else i + 1) (b := f)
        (by omega) ⟨P.ldpathsBuf, Function.update P.ldpaths i (some s)⟩ [':']
      refine ⟨⟨P.ldpathsBuf, ld⟩, hstop.trans ?_, splits_last h ht hlt (fun hne => ?_) fun k hk => ?_⟩
      · rw [hm, directories_of_notMem ht]
        by_cases h1 : t = [] <;> simp [h0, h1]
      · rw [hld i (by rw [if_neg (fun hb => hne (h0.mp hb))]; omega)]
        exact Function.update_self ..
      · rw [hld k (by split <;> omega)]
        exact Function.update_of_ne (by omega) _ _
    · rw [splitPaths_step hlt (strsep_component h hc hs)]
      rw [List.length_append, List.length_cons] at hs hf hn
      have hsuf : StrAt (Function.update P.ldpathsBuf (s + c.length) NUL) (s + c.length + 1) t' :=
        h.suffix.2.2.congr fun j hj _ => Function.update_of_ne (by omega) _ _
      have hcomponent : StrAt (Function.update P.ldpathsBuf (s + c.length) NUL) s c :=
        h.cut (Function.update_self ..) fun j _ hj => Function.update_of_ne (by omega) _ _
      have h0 := hcomponent.eq_nul_iff
      simp only [h0]
      obtain ⟨P', hrun, hsp⟩ := ih t'.length (by omega) (i := if c = [] then i else i + 1) (b := f)
        (P := ⟨Function.update P.ldpathsBuf (s + c.length) NUL, Function.update P.ldpaths i (some s)⟩)
        hsuf (by omega) (by omega) (by split <;> omega) rfl
      refine ⟨P', hrun.trans ?_, hsp.append h hc hlt rfl (Function.update_self ..)
        fun k hk => Function.update_of_ne (by omega) _ _⟩
      rw [hm, directories_append hc]
      by_cases h1 : c = []
      · rw [if_pos h1, if_pos h1, ← hm]
      · rw [if_neg h1, if_neg h1, List.length_cons, show LDPATH_MAX - (i + 1) = LDPATH_MAX - i - 1 by omega,
          Nat.add_right_comm, Nat.add_assoc]

end Loop

/-! ### The entries -/

/-- What `strlcpy` copies. -/
def copied (path : CStr) : CStr := path.take (LDPATH_BUFSIZE - 1)

/-- The last byte of the copy is NUL after the loop. -/
def LastReplaced (path : CStr) : Prop :=
  (copied path).getLast? = some ':' ∧ (named (complete (copied path).dropLast)).length < LDPATH_MAX

instance (path : CStr) : Decidable (LastReplaced path) := inferInstanceAs (Decidable (_ ∧ _))

/-- What the entries are. -/
def stored (path : CStr) : List CStr :=
  if path.length < LDPATH_BUFSIZE ∨ LastReplaced path then directories LDPATH_MAX (copied path)
  else (directories LDPATH_MAX (copied path)).dropLast

section Stored

variable {P : Paths}

theorem entriesFrom_of_getElem? {ws : List CStr} {i : ℕ} (he : P.ldpaths (i + ws.length) = none)
    (h : ∀ k w, ws[k]? = some w → ∃ p, P.ldpaths (i + k) = some p ∧ StrAt P.ldpathsBuf p w) :
    EntriesFrom P i ws := by
  induction ws generalizing i with
  | nil => exact he
  | cons w ws ih =>
    refine ⟨h 0 w rfl, ih ?_ fun k w' hk => ?_⟩
    · rw [← he, List.length_cons, Nat.add_right_comm, Nat.add_assoc]
    · rw [Nat.add_right_comm]
      exact h (k + 1) w' (by simpa using hk)

/-- NULL is stored in place of an entry, or behind the last one. -/
theorem entries_update {ws : List CStr} {n : ℕ} (hn : n ≤ ws.length)
    (h : ∀ k w, ws[k]? = some w → ∃ p, P.ldpaths (0 + k) = some p ∧ StrAt P.ldpathsBuf p w) :
    Entries { P with ldpaths := Function.update P.ldpaths n none } (ws.take n) := by
  refine entriesFrom_of_getElem? ?_ fun k w hk => ?_
  · rw [List.length_take, Nat.min_eq_left hn, Nat.zero_add]
    exact Function.update_self ..
  · obtain ⟨hlt, -⟩ := List.getElem?_eq_some_iff.mp hk
    rw [List.length_take] at hlt
    rw [List.getElem?_take_of_lt (by omega)] at hk
    obtain ⟨p, hp, hw⟩ := h k w hk
    exact ⟨p, (Function.update_of_ne (by omega) _ _).trans hp, hw⟩

theorem parseLibraryPath_stored (P : Paths) (path : CString) :
    ∃ P', parseLibraryPath P path.1 [':'] = some P' ∧ Entries P' (stored path.1) := by
  have hlen : (copied path.1).length = min (LDPATH_BUFSIZE - 1) path.1.length := List.length_take ..
  have h512 : LDPATH_BUFSIZE = 512 := rfl
  have h0 := strAt_strlcpy path.2 (n := LDPATH_BUFSIZE) (by omega) P.ldpathsBuf
  obtain ⟨P', hrun, hsp⟩ := splitPaths_spec (P := ⟨_, P.ldpaths⟩) (b := LDPATH_BUFSIZE + 2) (i := 0)
    (t := copied path.1) h0 (by omega) (by omega) (by omega)
  rw [Nat.zero_add, Nat.sub_zero] at hrun
  have hstr := hsp.strings
  rw [Nat.sub_zero] at hstr
  have hlast : LDPATH_BUFSIZE ≤ path.1.length →
      (P'.ldpathsBuf (LDPATH_BUFSIZE - 2) = NUL ↔ LastReplaced path.1) := fun hl => by
    have hne : copied path.1 ≠ [] := fun hn => by
      rw [hn, List.length_nil] at hlen
      omega
    have hb := hsp.last_byte hne
    rwa [hlen, Nat.min_eq_left (by omega), Nat.zero_add, Nat.sub_zero, Nat.sub_sub] at hb
  have hkeep := entries_update (P := P') (Nat.le_refl _) hstr
  have hdrop := entries_update (P := P') (Nat.sub_le _ 1) hstr
  rw [List.take_length] at hkeep
  rw [← List.dropLast_eq_take] at hdrop
  unfold parseLibraryPath
  simp only [show (strlcpy P.ldpathsBuf path.1 LDPATH_BUFSIZE).2 = path.1.length from rfl]
  rw [hrun]
  simp only [Option.bind_eq_bind, Option.bind_some]
  by_cases hk : path.1.length < LDPATH_BUFSIZE ∨ LastReplaced path.1
  · rw [stored, if_pos hk, if_neg]
    · exact ⟨_, rfl, hkeep⟩
    · exact fun hc => hk.elim (fun hl => absurd hc.2.1 (by omega)) fun hr => hc.2.2 ((hlast hc.2.1).mpr hr)
  · rw [stored, if_neg hk]
    rw [not_or, Nat.not_lt] at hk
    by_cases hi : 0 < (directories LDPATH_MAX (copied path.1)).length
    · rw [if_pos ⟨hi, hk.1, fun hb => hk.2 ((hlast hk.1).mp hb)⟩]
      exact ⟨_, rfl, hdrop⟩
    · have h1 : (directories LDPATH_MAX (copied path.1)).length - 1 =
        (directories LDPATH_MAX (copied path.1)).length := by omega
      rw [if_neg fun hc => hi hc.1]
      rw [h1] at hdrop
      exact ⟨_, rfl, hdrop⟩

end Stored

section Truncated

variable {path : CStr}

/-- The first `LDPATH_MAX` directories that stand in the copy together with the `:` behind them. -/
def wanted (path : CStr) : List CStr := (named (complete (copied path))).take LDPATH_MAX

theorem copied_of_fits (h : path.length < LDPATH_BUFSIZE) : copied path = path :=
  List.take_of_length_le (by omega)

theorem stored_of_fits (h : path.length < LDPATH_BUFSIZE) : stored path = directories LDPATH_MAX path := by
  rw [stored, if_pos (Or.inl h), copied_of_fits h]

/-- The loop has come to the last byte of the copy, or an entry is forgotten that it should have kept. -/
theorem stored_of_truncated (h : LDPATH_BUFSIZE ≤ path.length) :
    stored path = if (named (complete (path.take (LDPATH_BUFSIZE - 2)))).length < LDPATH_MAX then wanted path
      else (wanted path).take (LDPATH_MAX - 1) := by
  have h512 : LDPATH_BUFSIZE = 512 := rfl
  have h8 : LDPATH_MAX = 8 := rfl
  have hc : copied path = path.take (LDPATH_BUFSIZE - 2) ++ [path[LDPATH_BUFSIZE - 2]] := by
    rw [copied, show LDPATH_BUFSIZE - 1 = LDPATH_BUFSIZE - 2 + 1 from rfl, List.take_succ_eq_append_getElem]
  generalize path.take (LDPATH_BUFSIZE - 2) = u at hc
  generalize path[LDPATH_BUFSIZE - 2] = a at hc
  have hlr : LastReplaced path ↔ a = ':' ∧ (named (complete u)).length < LDPATH_MAX := by
    rw [LastReplaced, hc, List.getLast?_concat, List.dropLast_concat, Option.some.injEq]
  have htake : ∀ l : List CStr, LDPATH_MAX ≤ l.length →
      (l.take LDPATH_MAX).dropLast = (l.take LDPATH_MAX).take (LDPATH_MAX - 1) := fun l hl => by
    rw [List.dropLast_eq_take, List.length_take, Nat.min_eq_left hl]
  rw [stored, wanted, directories]
  by_cases ha : a = ':'
  · have hcomp : complete (copied path) = components u := by
      rw [complete, Fields.ended, hc, ha, Fields.splitOn_concat_self, List.dropLast_concat, components]
    have hnamed : named (components (copied path)) = named (components u) := by
      rw [hc, ha, components, Fields.splitOn_concat_self, named_append]
      exact List.append_nil _
    rw [hcomp, hnamed]
    by_cases hn : (named (complete u)).length < LDPATH_MAX
    · rw [if_pos (Or.inr (hlr.mpr ⟨ha, hn⟩)), if_pos hn]
    · rw [if_neg hn, if_neg, htake]
      · obtain ⟨c, hu⟩ : ∃ c, components u = complete u ++ [c] := Fields.splitOn_eq_ended ':' u
        rw [hu, named_append, List.length_append]
        omega
      · exact not_or.mpr ⟨by omega, fun hl => hn (hlr.mp hl).2⟩
  · obtain ⟨x, hx⟩ := Fields.splitOn_concat ha u
    have hcomp : complete (copied path) = complete u := by
      rw [complete, Fields.ended, hc, hx, List.dropLast_concat, complete]
    have hnamed : named (components (copied path)) = named (complete u) ++ [x ++ [a]] := by
      rw [hc, components, hx, named_append, named_cons, if_neg (by simp)]
      rfl
    rw [hcomp, hnamed, if_neg (not_or.mpr ⟨by omega, fun hl => ha (hlr.mp hl).1⟩)]
    by_cases hn : (named (complete u)).length < LDPATH_MAX
    · rw [if_pos hn, List.take_of_length_le (by simp; omega), List.dropLast_concat, List.take_of_length_le (by omega)]
    · rw [if_neg hn, List.take_append_of_le_length (by omega), htake _ (by omega)]

theorem wanted_isPrefix (path : CStr) : wanted path <+: named (components path) := by
  obtain ⟨cs, hcs⟩ := Fields.splitOn_append_eq ':' (copied path) (path.drop (LDPATH_BUFSIZE - 1))
  rw [copied, List.take_append_drop] at hcs
  have htake : wanted path <+: named (complete (copied path)) := List.take_prefix ..
  rw [components, hcs, named_append]
  exact htake.trans (List.prefix_append ..)

theorem wanted_length (path : CStr) : (wanted path).length ≤ LDPATH_MAX := List.length_take_le ..

theorem stored_isPrefix (path : CStr) : stored path <+: named (components path) := by
  rcases Nat.lt_or_ge path.length LDPATH_BUFSIZE with h | h
  · rw [stored_of_fits h]
    exact List.take_prefix ..
  · rw [stored_of_truncated h]
    split
    · exact wanted_isPrefix path
    · have htake : (wanted path).take (LDPATH_MAX - 1) <+: wanted path := List.take_prefix ..
      exact htake.trans (wanted_isPrefix path)

theorem stored_length (path : CStr) : (stored path).length ≤ LDPATH_MAX := by
  rcases Nat.lt_or_ge path.length LDPATH_BUFSIZE with h | h
  · rw [stored_of_fits h]
    exact List.length_take_le ..
  · rw [stored_of_truncated h]
    split
    · exact wanted_length path
    · exact Nat.le_trans (List.length_take_le ..) (by decide)

end Truncated

/-! ### Soundness -/

theorem EntriesFrom.null {P : Paths} {i : ℕ} {ws : List CStr} (h : EntriesFrom P i ws) :
    P.ldpaths (i + ws.length) = none := by
  induction ws generalizing i with
  | nil => exact h
  | cons w ws ih =>
    rw [List.length_cons, ← ih h.2, Nat.add_right_comm, Nat.add_assoc]

/-- What `ldpaths` holds are whole components of the path, in its order. -/
theorem ldpaths_sound (P : Paths) (path : CString) :
    ∃ P' ws, parseLibraryPath P path.1 [':'] = some P' ∧ Entries P' ws ∧
      ws.Sublist (components path.1) ∧ (∀ w ∈ ws, w ≠ []) ∧
      ws.length ≤ LDPATH_MAX ∧ P'.ldpaths ws.length = none := by
  obtain ⟨P', hp, he⟩ := parseLibraryPath_stored P path
  have hpre := stored_isPrefix path.1
  refine ⟨P', stored path.1, hp, he, hpre.sublist.trans List.filter_sublist, fun w hw => ?_,
    stored_length path.1, ?_⟩
  · exact mem_named (hpre.subset hw)
  · rw [← EntriesFrom.null he, Nat.zero_add]

/-- Both directories of this path are stored. -/
example (P : Paths) : ∃ P', parseLibraryPath P "/vendor/lib::/system/lib".toList [':'] = some P' ∧
    Entries P' ["/vendor/lib".toList, "/system/lib".toList] := by
  have h : stored "/vendor/lib::/system/lib".toList = ["/vendor/lib".toList, "/system/lib".toList] := by decide
  rw [← h]
  exact parseLibraryPath_stored P ⟨_, by decide⟩

/-! ### Completeness -/

/-- Every directory that the copy holds whole is stored, up to `LDPATH_MAX` of them. -/
def StoresComplete (P : Paths) (path : CString) : Prop :=
  ∃ P' ws, parseLibraryPath P path.1 [':'] = some P' ∧ Entries P' ws ∧ ∀ c ∈ wanted path.1, c ∈ ws

/-- The path is not cut short, the loop comes to the last byte of the copy, or the directory that is forgotten stands
among the others, too. -/
def NothingForgotten (path : CStr) : Prop :=
  path.length < LDPATH_BUFSIZE ∨
  (named (complete (path.take (LDPATH_BUFSIZE - 2)))).length < LDPATH_MAX ∨
  ∀ c ∈ (wanted path).drop (LDPATH_MAX - 1), c ∈ (wanted path).take (LDPATH_MAX - 1)

theorem storesComplete_stored (P : Paths) (path : CString) :
    StoresComplete P path ↔ ∀ c ∈ wanted path.1, c ∈ stored path.1 := by
  obtain ⟨P', hp, he⟩ := parseLibraryPath_stored P path
  constructor
  · rintro ⟨P'', ws, hp', he', hc⟩
    obtain rfl : P' = P'' := Option.some.inj (hp.symm.trans hp')
    rwa [EntriesFrom.unique he he']
  · exact fun hc => ⟨P', stored path.1, hp, he, hc⟩

theorem storesComplete_iff (P : Paths) (path : CString) :
    StoresComplete P path ↔ NothingForgotten path.1 := by
  rw [storesComplete_stored, NothingForgotten]
  rcases Nat.lt_or_ge path.1.length LDPATH_BUFSIZE with h | h
  · refine iff_of_true (fun c hc => ?_) (Or.inl h)
    obtain ⟨x, hx⟩ := Fields.splitOn_eq_ended ':' path.1
    rw [stored_of_fits h, directories, components, hx, named_append]
    rw [wanted, copied_of_fits h] at hc
    rw [List.take_append]
    exact List.mem_append_left _ hc
  · rw [stored_of_truncated h]
    by_cases hn : (named (complete (path.1.take (LDPATH_BUFSIZE - 2)))).length < LDPATH_MAX
    · rw [if_pos hn]
      exact iff_of_true (fun c hc => hc) (Or.inr (Or.inl hn))
    · rw [if_neg hn]
      constructor
      · exact fun hc => Or.inr (Or.inr fun c hd => hc c (List.mem_of_mem_drop hd))
      · rintro (hl | hl | hl) c hc
        · exact absurd hl (by omega)
        · exact absurd hl hn
        · rw [← List.take_append_drop (LDPATH_MAX - 1) (wanted path.1), List.mem_append] at hc
          exact hc.elim id (hl c)

/-- Eight directories, and text behind them that does not fit. -/
def eightAndMore : CString :=
  ⟨"/a:/b:/c:/d:/e:/f:/g:/h:".toList ++ List.replicate 500 'x', by decide +kernel⟩

theorem not_storesComplete_eightAndMore :
    ¬ StoresComplete ⟨fun _ => NUL, fun _ => none⟩ eightAndMore := by
  rw [storesComplete_stored]
  decide +kernel

end Bionic.LibraryPath
