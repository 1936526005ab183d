import Mathlib.Data.List.TakeWhile
import Mathlib.Data.BitVec
import Bionic.Fields

/-! # Reading a file line by line (`LineParser` of `libc/unistd/sysconf.c`)

`line_parser_getc` fills `input` with what one `read` gives, and hands out its bytes one by one; `line_parser_addc`
collects them in `buff` until a newline.

* **Refill.**  The test `in_len >= in_pos` holds after every byte, so that each call reads anew: the parser sees the
  first byte of every chunk and no other (`heads`).
* **Overflow.**  A line that does not fit leaves `rpos` at the end of the buffer, for good: no line is returned after it
  (`seenLines`).
* **Characters.**  Where `char` is signed, a byte from 0x80 on ends the input.

`getsLines_iff` says for which chunks the lines come out right all the same. -/

namespace Bionic.Sysconf

abbrev Byte := BitVec 8

abbrev Line := List Byte

def NEWLINE : Byte := 10

/-- `sizeof(buff)` and `sizeof(input)`. -/
def BUFSIZE : ℕ := 128

/-! ### Data -/

/-- The bytes one call of `read` stores, at least one and no more than there is room for. -/
structure Chunk where
  bytes : List Byte
  some_byte : bytes ≠ []
  fits : bytes.length ≤ BUFSIZE

/-- What `read` does: fail with `EINTR`, or give some bytes.  Behind the last one it gives none. -/
inductive Read where
  | interrupted
  | data (c : Chunk)

structure LineParser where
  rpos : ℕ
  len : ℕ
  overflow : Bool
  fd : ℤ
  inLen : ℕ
  inPos : ℕ
  buff : ℕ → Byte
  input : ℕ → Byte

/-! ### The source -/

/-- A `char` as an `int`. -/
def charToInt (signed : Bool) (b : Byte) : ℤ := if signed then b.toInt else b.toNat

/-- `line_parser_init`, with what stands in the two arrays. -/
def lineParserInit (fd : ℤ) (buff input : ℕ → Byte) : LineParser :=
  { rpos := 0, len := BUFSIZE, overflow := false, fd := fd, inLen := 0, inPos := 0, buff := buff, input := input }

/-- `line_parser_addc`: whether a line is complete. -/
def lineParserAddc (p : LineParser) (c : ℤ) : Bool × LineParser :=
  if p.overflow then (false, { p with overflow := decide (c = 10) })
  else if p.len ≤ p.rpos then (false, { p with overflow := true })
  else if c = 10 then (true, { p with buff := Function.update p.buff p.rpos 0, rpos := 0 })
  else (false, { p with buff := Function.update p.buff p.rpos (BitVec.ofInt 8 c), rpos := p.rpos + 1 })

/-- The loop around `read`, and the reads that are left. -/
def readInput (fd : ℤ) : List Read → Option Chunk × List Read
  | [] => (none, [])
  | r :: rs =>
    if fd < 0 then (none, r :: rs)
    else match r with
      | .interrupted => readInput fd rs
      | .data c => (some c, rs)

/-- `line_parser_getc`. -/
def lineParserGetc (signed : Bool) (p : LineParser) (rs : List Read) : ℤ × LineParser × List Read :=
  if p.inPos ≤ p.inLen then
    match readInput p.fd rs with
    | (none, rs') => (-1, { p with inLen := 0, inPos := 0 }, rs')
    | (some c, rs') =>
      let input := fun j => c.bytes.getD j (p.input j)
      (charToInt signed (input 0), { p with inLen := c.bytes.length, inPos := 1, input := input }, rs')
  else (charToInt signed (p.input p.inPos), { p with inPos := p.inPos + 1 }, rs)

/-- The string a caller finds in `buff`. -/
def string (p : LineParser) : Line := ((List.range BUFSIZE).map p.buff).takeWhile (· ≠ 0)

/-- The loop of `line_parser_gets`. -/
def getsLoop (signed : Bool) : ℕ → LineParser → List Read → Option (Option Line × LineParser × List Read)
  | 0, _, _ => none
  | n + 1, p, rs =>
    match lineParserGetc signed p rs with
    | (c, p', rs') =>
      if c < 0 then some (none, { p' with fd := -1 }, rs')
      else match lineParserAddc p' c with
        | (true, p'') => some (some (string p''), p'', rs')
        | (false, p'') => getsLoop signed n p'' rs'

/-- `line_parser_gets`: every pass of the loop takes a read. -/
def lineParserGets (signed : Bool) (p : LineParser) (rs : List Read) :
    Option (Option Line × LineParser × List Read) :=
  getsLoop signed (rs.length + 1) p rs

/-- The results of `n` calls, one after the other. -/
def calls (signed : Bool) : ℕ → LineParser → List Read → Option (List (Option Line))
  | 0, _, _ => some []
  | n + 1, p, rs => do
    let (line, p', rs') ← lineParserGets signed p rs
    return line :: (← calls signed n p' rs')

/-! ### What the parser sees -/

/-- The bytes of the file. -/
def content : List Read → List Byte
  | [] => []
  | .interrupted :: rs => content rs
  | .data c :: rs => c.bytes ++ content rs

/-- The first byte of every chunk, up to one that is negative. -/
def heads (signed : Bool) : List Read → List Byte
  | [] => []
  | .interrupted :: rs => heads signed rs
  | .data c :: rs =>
    if charToInt signed (c.bytes.head c.some_byte) < 0 then []
    else c.bytes.head c.some_byte :: heads signed rs

/-- The lines of a text that a newline ends. -/
def lines (t : List Byte) : List Line := Fields.ended NEWLINE t

/-- The lines that are returned when `u` stands in the buffer. -/
def linesFrom : Line → List Byte → List Line
  | _, [] => []
  | u, b :: t =>
    if BUFSIZE ≤ u.length then []
    else if b = NEWLINE then u :: linesFrom [] t
    else linesFrom (u ++ [b]) t

/-- A line as a C string. -/
def cString (l : Line) : Line := l.takeWhile (· ≠ 0)

section Steps

variable {signed : Bool} {p : LineParser} {u : Line} {b : Byte} {rs : List Read}

/-- `u` is the line so far. -/
structure Collects (p : LineParser) (u : Line) : Prop where
  opened : 0 ≤ p.fd
  len : p.len = BUFSIZE
  refill : p.inPos ≤ p.inLen
  rpos : p.rpos = u.length
  room : u.length ≤ BUFSIZE
  overflow : u.length < BUFSIZE → p.overflow = false
  buff : ∀ j c, u[j]? = some c → p.buff j = c

/-- Nothing more is read. -/
structure Closed (p : LineParser) : Prop where
  fd : p.fd = -1
  refill : p.inPos ≤ p.inLen

theorem ofInt_charToInt (signed : Bool) (b : Byte) : BitVec.ofInt 8 (charToInt signed b) = b := by
  cases signed
  · simp [charToInt]
  · simp [charToInt]

theorem charToInt_eq_newline (h : 0 ≤ charToInt signed b) : charToInt signed b = 10 ↔ b = NEWLINE := by
  constructor
  · intro hc
    rw [← ofInt_charToInt signed b, hc]
    rfl
  · rintro rfl
    cases signed <;> rfl

theorem addc_full (h : Collects p u) (hu : u.length = BUFSIZE) (c : ℤ) :
    (lineParserAddc p c).1 = false ∧ Collects (lineParserAddc p c).2 u := by
  have hr := h.rpos
  have hl := h.len
  unfold lineParserAddc
  split
  · exact ⟨rfl, h.opened, h.len, h.refill, h.rpos, h.room, fun hlt => absurd hlt (by omega), h.buff⟩
  · rw [if_pos (by omega)]
    exact ⟨rfl, h.opened, h.len, h.refill, h.rpos, h.room, fun hlt => absurd hlt (by omega), h.buff⟩

theorem takeWhile_cString (u r : List Byte) : (u ++ 0 :: r).takeWhile (· ≠ 0) = cString u := by
  induction u with
  | nil => rfl
  | cons a u ih =>
    rw [cString, List.cons_append, List.takeWhile_cons, List.takeWhile_cons, ih, cString]

theorem takeWhile_buff {f : ℕ → Byte} (hu : u.length < BUFSIZE) (hb : ∀ j c, u[j]? = some c → f j = c)
    (h0 : f u.length = 0) : ((List.range BUFSIZE).map f).takeWhile (· ≠ 0) = cString u := by
  have htake : ((List.range BUFSIZE).map f).take u.length = u := by
    refine List.ext_getElem (by simp; omega) fun j h1 h2 => ?_
    rw [List.getElem_take, List.getElem_map, List.getElem_range]
    exact hb j _ (List.getElem?_eq_getElem h2)
  have hdrop : ((List.range BUFSIZE).map f).drop u.length = 0 :: ((List.range BUFSIZE).map f).drop (u.length + 1) := by
    rw [List.drop_eq_getElem_cons (by simpa using hu), List.getElem_map, List.getElem_range, h0]
  rw [← List.take_append_drop u.length ((List.range BUFSIZE).map f), htake, hdrop, takeWhile_cString]

theorem addc_newline (h : Collects p u) (hu : u.length < BUFSIZE) :
    (lineParserAddc p 10).1 = true ∧ string (lineParserAddc p 10).2 = cString u ∧
      Collects (lineParserAddc p 10).2 [] := by
  have hr := h.rpos
  have hl := h.len
  have ho := h.overflow hu
  have ha : lineParserAddc p 10 = (true, { p with buff := Function.update p.buff p.rpos 0, rpos := 0 }) := by
    rw [lineParserAddc, if_neg (by simp [ho]), if_neg (by omega), if_pos rfl]
  rw [ha]
  refine ⟨rfl, takeWhile_buff hu (fun j c hc => ?_) ?_, h.opened, h.len, h.refill, rfl, Nat.zero_le _, fun _ => ho,
    fun j c hc => absurd hc (by simp)⟩
  · obtain ⟨hj, -⟩ := List.getElem?_eq_some_iff.mp hc
    exact (Function.update_of_ne (by omega) _ _).trans (h.buff j c hc)
  · rw [← hr]
    exact Function.update_self ..

theorem addc_other (h : Collects p u) (hu : u.length < BUFSIZE) {c : ℤ} (hc : c ≠ 10) :
    (lineParserAddc p c).1 = false ∧ Collects (lineParserAddc p c).2 (u ++ [BitVec.ofInt 8 c]) := by
  have hr := h.rpos
  have hl := h.len
  have ho := h.overflow hu
  have ha : lineParserAddc p c =
      (false, { p with buff := Function.update p.buff p.rpos (BitVec.ofInt 8 c), rpos := p.rpos + 1 }) := by
    rw [lineParserAddc, if_neg (by simp [ho]), if_neg (by omega), if_neg hc]
  rw [ha]
  have hlen : (u ++ [BitVec.ofInt 8 c]).length = u.length + 1 := by simp
  refine ⟨rfl, h.opened, h.len, h.refill, ?_, by omega, fun _ => ho, fun j d hd => ?_⟩
  · rw [hlen, hr]
  · rcases Nat.lt_or_ge j u.length with hj | hj
    · rw [List.getElem?_append_left hj] at hd
      exact (Function.update_of_ne (by omega) _ _).trans (h.buff j d hd)
    · obtain ⟨hj', hv⟩ := List.getElem?_eq_some_iff.mp hd
      obtain rfl : j = u.length := by omega
      rw [List.getElem_concat_length rfl] at hv
      rw [← hv, ← hr]
      exact Function.update_self ..

end Steps

/-! ### The calls -/

/-- The first `n` results: these lines, then NULL. -/
def results : ℕ → List Line → List (Option Line)
  | 0, _ => []
  | n + 1, [] => none :: results n []
  | n + 1, l :: ls => some l :: results n ls

theorem results_injective {ls ls' : List Line} (h : ∀ n, results n ls = results n ls') : ls = ls' := by
  induction ls generalizing ls' with
  | nil =>
    cases ls' with
    | nil => rfl
    | cons l' ls' => simpa [results] using h 1
  | cons l ls ih =>
    cases ls' with
    | nil => simpa [results] using h 1
    | cons l' ls' =>
      obtain rfl : l = l' := by simpa [results] using h 1
      rw [ih fun n => by simpa [results] using h (n + 1)]

section Calls

variable (signed : Bool) {p : LineParser} {u : Line} {rs : List Read}

theorem readInput_none {fd : ℤ} {rs' : List Read} (hfd : 0 ≤ fd) (h : readInput fd rs = (none, rs')) :
    heads signed rs = [] := by
  induction rs with
  | nil => rfl
  | cons r rs ih =>
    cases r with
    | interrupted =>
      rw [readInput, if_neg (by omega)] at h
      exact ih h
    | data c =>
      rw [readInput, if_neg (by omega)] at h
      simp at h

theorem readInput_some {fd : ℤ} {c : Chunk} {rs' : List Read} (hfd : 0 ≤ fd) (h : readInput fd rs = (some c, rs')) :
    heads signed rs = heads signed (.data c :: rs') ∧ rs'.length < rs.length := by
  induction rs with
  | nil => simp [readInput] at h
  | cons r rs ih =>
    cases r with
    | interrupted =>
      rw [readInput, if_neg (by omega)] at h
      obtain ⟨hh, hl⟩ := ih h
      exact ⟨hh, Nat.lt_succ_of_lt hl⟩
    | data d =>
      rw [readInput, if_neg (by omega)] at h
      obtain ⟨rfl, rfl⟩ : d = c ∧ rs = rs' := by simpa using h
      exact ⟨rfl, Nat.lt_succ_self _⟩

/-- A byte is the first one of a chunk, and the last one taken from it. -/
theorem lineParserGetc_collects (h : Collects p u) (rs : List Read) :
    ∃ c p' rs', lineParserGetc signed p rs = (c, p', rs') ∧
      (c < 0 ∧ p'.inPos ≤ p'.inLen ∧ heads signed rs = [] ∨
        ∃ b, c = charToInt signed b ∧ 0 ≤ c ∧ Collects p' u ∧
          heads signed rs = b :: heads signed rs' ∧ rs'.length < rs.length) := by
  unfold lineParserGetc
  rw [if_pos h.refill]
  rcases hr : readInput p.fd rs with ⟨- | c, rs'⟩
  · exact ⟨_, _, _, rfl, Or.inl ⟨Int.negSucc_lt_zero 0, Nat.le_refl _, readInput_none signed h.opened hr⟩⟩
  · obtain ⟨hh, hl⟩ := readInput_some signed h.opened hr
    have hpos : 0 < c.bytes.length := List.length_pos_of_ne_nil c.some_byte
    have hb : c.bytes.getD 0 (p.input 0) = c.bytes.head c.some_byte := by
      rw [List.getD_eq_getElem?_getD, List.getElem?_eq_getElem hpos, Option.getD_some, List.head_eq_getElem]
    refine ⟨_, _, rs', congrArg (fun b => (charToInt signed b, _, rs')) hb, ?_⟩
    rw [heads] at hh
    by_cases hneg : charToInt signed (c.bytes.head c.some_byte) < 0
    · rw [if_pos hneg] at hh
      exact Or.inl ⟨hneg, hpos, hh⟩
    · rw [if_neg hneg] at hh
      exact Or.inr ⟨_, rfl, by omega, ⟨h.opened, h.len, hpos, h.rpos, h.room, h.overflow, h.buff⟩, hh, hl⟩

theorem linesFrom_full (hu : u.length = BUFSIZE) (t : List Byte) : linesFrom u t = [] := by
  cases t with
  | nil => rfl
  | cons b t => rw [linesFrom, if_pos (by omega)]

/-- What one call returns, and where it leaves the parser. -/
theorem getsLoop_spec {n : ℕ} (h : Collects p u) (hn : rs.length < n) :
    ∃ out p' rs', getsLoop signed n p rs = some (out, p', rs') ∧
      (out = none ∧ Closed p' ∧ linesFrom u (heads signed rs) = [] ∨
        ∃ l, out = some (cString l) ∧ Collects p' [] ∧
          linesFrom u (heads signed rs) = l :: linesFrom [] (heads signed rs')) := by
  induction n generalizing p u rs with
  | zero => exact absurd hn (Nat.not_lt_zero _)
  | succ n ih =>
    obtain ⟨c, p', rs', hg, ⟨hneg, hle, hh⟩ | ⟨b, rfl, h0, hc, hh, hl⟩⟩ := lineParserGetc_collects signed h rs
    · rw [getsLoop, hg, hh]
      dsimp only
      rw [if_pos hneg]
      exact ⟨_, _, _, rfl, Or.inl ⟨rfl, ⟨rfl, hle⟩, by cases u <;> rfl⟩⟩
    · rw [getsLoop, hg, hh]
      dsimp only
      rw [if_neg (by omega)]
      by_cases hfull : u.length = BUFSIZE
      · obtain ⟨ha, hc'⟩ := addc_full hc hfull (charToInt signed b)
        generalize lineParserAddc p' (charToInt signed b) = q at ha hc'
        obtain ⟨done, p''⟩ := q
        obtain rfl : done = false := ha
        have hlen : rs'.length < n := by omega
        obtain ⟨out, q', rs'', hrun, hout⟩ := ih hc' hlen
        refine ⟨out, q', rs'', hrun, ?_⟩
        rwa [linesFrom_full hfull] at hout ⊢
      · have hlt : u.length < BUFSIZE := Nat.lt_of_le_of_ne hc.room hfull
        rw [linesFrom, if_neg (by omega)]
        by_cases hb : b = NEWLINE
        · rw [(charToInt_eq_newline h0).mpr hb, if_pos hb]
          obtain ⟨ha, hs, hc'⟩ := addc_newline hc hlt
          generalize lineParserAddc p' 10 = q at ha hs hc'
          obtain ⟨done, p''⟩ := q
          obtain rfl : done = true := ha
          exact ⟨_, p'', rs', rfl, Or.inr ⟨u, congrArg some hs, hc', rfl⟩⟩
        · obtain ⟨ha, hc'⟩ := addc_other hc hlt (mt (charToInt_eq_newline h0).mp hb)
          rw [ofInt_charToInt] at hc'
          rw [if_neg hb]
          generalize lineParserAddc p' (charToInt signed b) = q at ha hc'
          obtain ⟨done, p''⟩ := q
          obtain rfl : done = false := ha
          exact ih hc' (by omega)

theorem lineParserGets_closed (h : Closed p) (rs : List Read) :
    ∃ p' rs', lineParserGets signed p rs = some (none, p', rs') ∧ Closed p' := by
  have hread : ∃ rs', readInput p.fd rs = (none, rs') := by
    cases rs with
    | nil => exact ⟨_, rfl⟩
    | cons r rs =>
      refine ⟨r :: rs, ?_⟩
      cases r <;> rw [readInput, if_pos (by rw [h.fd]; decide)]
  obtain ⟨rs', hr⟩ := hread
  refine ⟨{ p with inLen := 0, inPos := 0, fd := -1 }, rs', ?_, rfl, Nat.le_refl 0⟩
  rw [lineParserGets, getsLoop, lineParserGetc, if_pos h.refill, hr]
  rfl

theorem calls_closed (n : ℕ) (h : Closed p) (rs : List Read) : calls signed n p rs = some (results n []) := by
  induction n generalizing p rs with
  | zero => rfl
  | succ n ih =>
    obtain ⟨p', rs', hg, hc⟩ := lineParserGets_closed signed h rs
    rw [calls, hg, results]
    simp only [Option.bind_eq_bind, Option.bind_some, ih hc]
    rfl

theorem calls_collects (n : ℕ) (h : Collects p u) (rs : List Read) :
    calls signed n p rs = some (results n ((linesFrom u (heads signed rs)).map cString)) := by
  induction n generalizing p u rs with
  | zero => rfl
  | succ n ih =>
    obtain ⟨out, p', rs', hg, ⟨rfl, hc, hl⟩ | ⟨l, rfl, hc, hl⟩⟩ := getsLoop_spec signed h (Nat.lt_succ_self rs.length)
    · rw [calls, lineParserGets, hg, hl, List.map_nil, results]
      simp only [Option.bind_eq_bind, Option.bind_some, calls_closed signed n hc]
      rfl
    · rw [calls, lineParserGets, hg, hl, List.map_cons, results]
      simp only [Option.bind_eq_bind, Option.bind_some, ih hc]
      rfl

end Calls

/-! ### The lines -/

def Short (l : Line) : Prop := l.length < BUFSIZE

instance : DecidablePred Short := fun l => inferInstanceAs (Decidable (l.length < BUFSIZE))

/-- The lines that the first bytes of the chunks make up, as far as each one fits. -/
def seenLines (signed : Bool) (rs : List Read) : List Line :=
  (lines (heads signed rs)).takeWhile (fun l => decide (Short l))

section Lines

variable {signed : Bool} {u t : List Byte} {rs : List Read}

theorem linesFrom_eq (hu : NEWLINE ∉ u) (t : List Byte) :
    linesFrom u t = (lines (u ++ t)).takeWhile fun l => decide (Short l) := by
  induction t generalizing u with
  | nil =>
    rw [lines, List.append_nil, Fields.ended_of_notMem hu]
    cases u <;> rfl
  | cons b t ih =>
    rw [linesFrom]
    by_cases hfull : BUFSIZE ≤ u.length
    · rw [if_pos hfull]
      rcases Fields.first_separator NEWLINE (b :: t) with h | ⟨c, t', hc, ht⟩
      · rw [lines, Fields.ended_of_notMem (by simp_all), List.takeWhile_nil]
      · have hlong : ¬ Short (u ++ c) := by
          unfold Short
          rw [List.length_append]
          omega
        rw [lines, ht, ← List.append_assoc, Fields.ended_append (by simp [hu, hc]), List.takeWhile_cons,
          if_neg (by simpa using hlong)]
    · rw [if_neg hfull]
      by_cases hb : b = NEWLINE
      · rw [if_pos hb, hb, lines, Fields.ended_append hu, List.takeWhile_cons, if_pos (decide_eq_true (by
          unfold Short
          omega)), ih (by simp), List.nil_append, lines]
      · rw [if_neg hb, ih (by simp [hu, Ne.symm hb]), List.append_assoc, List.singleton_append]

end Lines

/-! ### When the lines come out right -/

/-- However often it is called once the file is open, the parser returns the short lines of the file in order, and
then NULL. -/
def GetsLines (signed : Bool) (rs : List Read) : Prop :=
  ∀ (fd : ℕ) (buff input : ℕ → Byte) (n : ℕ), calls signed n (lineParserInit fd buff input) rs =
    some (results n ((lines (content rs)).filter fun l => decide (Short l)))

/-- A chunk with a newline somewhere behind its first byte is that one byte alone, and no negative one. -/
def SingleBytes (signed : Bool) : List Read → Prop
  | [] => True
  | .interrupted :: rs => SingleBytes signed rs
  | .data c :: rs =>
    (NEWLINE ∈ c.bytes.tail ++ content rs → ∃ b, c.bytes = [b] ∧ 0 ≤ charToInt signed b) ∧ SingleBytes signed rs

section Right

variable {signed : Bool} {t : List Byte} {rs : List Read}

theorem collects_init (fd : ℕ) (buff input : ℕ → Byte) : Collects (lineParserInit fd buff input) [] where
  opened := Int.natCast_nonneg fd
  len := rfl
  refill := Nat.le_refl 0
  rpos := rfl
  room := Nat.zero_le _
  overflow _ := rfl
  buff j c hc := absurd hc (by simp)

theorem getsLines_seen (signed : Bool) (rs : List Read) :
    GetsLines signed rs ↔
      (seenLines signed rs).map cString = (lines (content rs)).filter fun l => decide (Short l) := by
  have hrun : ∀ (fd : ℕ) (buff input : ℕ → Byte) (n : ℕ), calls signed n (lineParserInit fd buff input) rs =
      some (results n ((seenLines signed rs).map cString)) := fun fd buff input n => by
    rw [calls_collects signed n (collects_init fd buff input) rs, linesFrom_eq (by simp), List.nil_append, seenLines]
  constructor
  · exact fun h => results_injective fun n =>
      Option.some.inj ((hrun 0 (fun _ => 0) (fun _ => 0) n).symm.trans (h 0 _ _ n))
  · exact fun h fd buff input n => by rw [hrun, h]

/-! The length of a text up to its last newline. -/

/-- The bytes of some lines and of their newlines. -/
def size (ls : List Line) : ℕ := (ls.map fun l => l.length + 1).sum

theorem size_cons (l : Line) (ls : List Line) : size (l :: ls) = l.length + 1 + size ls := by
  rw [size, List.map_cons, List.sum_cons, size]

theorem size_lines_cons (b : Byte) (t : List Byte) :
    size (lines (b :: t)) = if NEWLINE ∈ b :: t then 1 + size (lines t) else 0 := by
  rw [lines, Fields.ended_cons, ← lines]
  by_cases hb : b = NEWLINE
  · rw [if_pos hb, if_pos (by simp [hb]), size_cons, List.length_nil, Nat.zero_add]
  · rw [if_neg hb]
    by_cases ht : NEWLINE ∈ t
    · rw [if_pos (by simp [ht])]
      cases h : lines t with
      | nil => exact absurd ht (Fields.ended_eq_nil.mp h)
      | cons l ls => rw [List.modifyHead_cons, size_cons, size_cons, List.length_cons]; omega
    · rw [if_neg (by simp [ht, Ne.symm hb]), lines, Fields.ended_of_notMem ht]
      rfl

theorem size_lines_append (t r : List Byte) (h : NEWLINE ∈ r) : size (lines (t ++ r)) = t.length + size (lines r) := by
  induction t with
  | nil => simp
  | cons b t ih =>
    rw [List.cons_append, size_lines_cons, if_pos (by simp [h]), ih, List.length_cons]
    omega

theorem size_lines_eq_zero (h : NEWLINE ∉ t) : size (lines t) = 0 := by
  rw [lines, Fields.ended_of_notMem h]
  rfl

theorem size_lines_pos (h : NEWLINE ∈ t) : 0 < size (lines t) := by
  cases hl : lines t with
  | nil => exact absurd h (Fields.ended_eq_nil.mp hl)
  | cons l ls => rw [size_cons]; omega

theorem size_lines_le_append (t r : List Byte) : size (lines r) ≤ size (lines (t ++ r)) := by
  by_cases h : NEWLINE ∈ r
  · rw [size_lines_append t r h]
    omega
  · rw [size_lines_eq_zero h]
    exact Nat.zero_le _

theorem size_cString_le (ls : List Line) : size (ls.map cString) ≤ size ls := by
  induction ls with
  | nil => exact Nat.le_refl _
  | cons l ls ih =>
    have hl : (cString l).length ≤ l.length := (List.takeWhile_sublist _).length_le
    rw [List.map_cons, size_cons, size_cons]
    omega

theorem size_seenLines_le (signed : Bool) (rs : List Read) :
    size (seenLines signed rs) ≤ size (lines (heads signed rs)) := by
  obtain ⟨r, hr⟩ := List.takeWhile_prefix (fun l => decide (Short l)) (l := lines (heads signed rs))
  rw [seenLines]
  conv_rhs => rw [← hr]
  simp [size]

theorem content_data (c : Chunk) (rs : List Read) :
    content (.data c :: rs) = c.bytes.head c.some_byte :: (c.bytes.tail ++ content rs) := by
  rw [content, ← List.cons_append, List.cons_head_tail]

theorem newline_heads (h : NEWLINE ∈ heads signed rs) : NEWLINE ∈ content rs := by
  induction rs with
  | nil => exact h
  | cons r rs ih =>
    cases r with
    | interrupted => exact ih h
    | data c =>
      rw [heads] at h
      split at h
      · exact absurd h (by simp)
      · rw [content_data, List.mem_cons, List.mem_append]
        rcases List.mem_cons.mp h with h | h
        · exact Or.inl h
        · exact Or.inr (Or.inr (ih h))

/-- The parser sees no more up to the last newline than there is. -/
theorem size_heads_le (signed : Bool) (rs : List Read) :
    size (lines (heads signed rs)) ≤ size (lines (content rs)) := by
  induction rs with
  | nil => exact Nat.le_refl _
  | cons r rs ih =>
    cases r with
    | interrupted => exact ih
    | data c =>
      have happ := size_lines_le_append c.bytes.tail (content rs)
      by_cases hn : NEWLINE ∈ heads signed (.data c :: rs)
      · have hc := newline_heads hn
        rw [content_data] at hc ⊢
        rw [heads] at hn ⊢
        split at hn
        · exact absurd hn (by simp)
        · rename_i hneg
          rw [if_neg hneg, size_lines_cons, size_lines_cons, if_pos hn, if_pos hc]
          omega
      · rw [size_lines_eq_zero hn]
        exact Nat.zero_le _

theorem singleBytes_of_size (h : size (lines (content rs)) ≤ size (lines (heads signed rs))) : SingleBytes signed rs := by
  induction rs with
  | nil => trivial
  | cons r rs ih =>
    cases r with
    | interrupted => exact ih h
    | data c =>
      have hle := size_heads_le signed rs
      by_cases hn : NEWLINE ∈ c.bytes.tail ++ content rs
      · have hpos := size_lines_pos hn
        rw [content_data, size_lines_cons, if_pos (List.mem_cons_of_mem _ hn), heads] at h
        by_cases hneg : charToInt signed (c.bytes.head c.some_byte) < 0
        · have h0 : size (lines []) = 0 := rfl
          rw [if_pos hneg] at h
          omega
        · rw [if_neg hneg, size_lines_cons] at h
          have hr : size (lines (c.bytes.tail ++ content rs)) ≤ size (lines (heads signed rs)) := by
            split at h <;> omega
          by_cases hc : NEWLINE ∈ content rs
          · rw [size_lines_append _ _ hc] at hr
            have htail : c.bytes.tail = [] := List.eq_nil_of_length_eq_zero (by omega)
            have hbytes : c.bytes = [c.bytes.head c.some_byte] := by
              rw [← htail, List.cons_head_tail]
            exact ⟨fun _ => ⟨_, hbytes, by omega⟩, ih (by omega)⟩
          · rw [size_lines_eq_zero hc] at hle
            exact absurd hr (by omega)
      · refine ⟨fun hc => absurd hc hn, ih ?_⟩
        rw [size_lines_eq_zero fun hc => hn (List.mem_append_right _ hc)]
        exact Nat.zero_le _

theorem lines_heads (h : SingleBytes signed rs) : lines (heads signed rs) = lines (content rs) := by
  induction rs with
  | nil => rfl
  | cons r rs ih =>
    cases r with
    | interrupted => exact ih h
    | data c =>
      have hrec := ih h.2
      rw [content_data, heads]
      by_cases hn : NEWLINE ∈ c.bytes.tail ++ content rs
      · obtain ⟨b, hb, hpos⟩ := h.1 hn
        simp only [hb, List.head_cons, List.tail_cons, List.nil_append]
        rw [if_neg (by omega), lines, lines, Fields.ended_cons, Fields.ended_cons, ← lines, hrec, lines]
      · have hheads : NEWLINE ∉ heads signed rs := fun hh =>
          hn (List.mem_append_right _ (newline_heads hh))
        by_cases hneg : charToInt signed (c.bytes.head c.some_byte) < 0
        · have hb : c.bytes.head c.some_byte ≠ NEWLINE := fun hb => by
            rw [hb] at hneg
            cases signed <;> exact absurd hneg (by decide)
          rw [if_pos hneg, lines, lines, Fields.ended_cons, if_neg hb, Fields.ended_of_notMem hn]
          rfl
        · rw [if_neg hneg, lines, lines, Fields.ended_cons, Fields.ended_cons, Fields.ended_of_notMem hn,
            Fields.ended_of_notMem hheads]

theorem cString_eq_self {l : Line} : cString l = l ↔ 0 ∉ l := by
  rw [cString, List.takeWhile_eq_self_iff]
  simp only [decide_not, Bool.not_eq_true', decide_eq_false_iff_not]
  exact ⟨fun h h0 => h 0 h0 rfl, fun h x hx hx0 => h (hx0 ▸ hx)⟩

theorem notMem_cString (l : Line) : 0 ∉ cString l := fun h => by
  have h0 := List.mem_takeWhile_imp h
  simp at h0

/-- The lines come out right exactly if the first bytes of the chunks make up the same ones.  When every line of the
file fits the buffer: exactly if the file is read byte by byte up to its last newline and no line holds NUL. -/
theorem getsLines_iff (signed : Bool) (rs : List Read) :
    (GetsLines signed rs ↔
      (seenLines signed rs).map cString = (lines (content rs)).filter fun l => decide (Short l)) ∧
    ((∀ l ∈ lines (content rs), Short l) →
      (GetsLines signed rs ↔ SingleBytes signed rs ∧ ∀ l ∈ lines (content rs), 0 ∉ l)) := by
  refine ⟨getsLines_seen signed rs, fun hshort => ?_⟩
  have hfilter : (lines (content rs)).filter (fun l => decide (Short l)) = lines (content rs) :=
    List.filter_eq_self.mpr fun l hl => decide_eq_true (hshort l hl)
  rw [getsLines_seen, hfilter]
  constructor
  · intro h
    refine ⟨singleBytes_of_size ?_, fun l hl => ?_⟩
    · rw [← h]
      exact Nat.le_trans (size_cString_le _) (size_seenLines_le signed rs)
    · rw [← h] at hl
      obtain ⟨l', -, rfl⟩ := List.mem_map.mp hl
      exact notMem_cString l'
  · rintro ⟨hs, h0⟩
    have hseen : seenLines signed rs = lines (content rs) := by
      rw [seenLines, lines_heads hs]
      exact List.takeWhile_eq_self_iff.mpr fun l hl => decide_eq_true (hshort l hl)
    rw [hseen]
    exact (List.map_congr_left fun l hl => cString_eq_self.mpr (h0 l hl)).trans (List.map_id _)

end Right

/-- A chunk of one byte. -/
def single (b : Byte) : Read := .data ⟨[b], by simp, by simp [BUFSIZE]⟩

theorem getsLines_single : GetsLines true [single 97, .interrupted, single 98, single 10] :=
  ((getsLines_iff true _).2 (by decide)).mpr
    ⟨⟨fun _ => ⟨97, rfl, by decide⟩, fun _ => ⟨98, rfl, by decide⟩, fun h => absurd h (by decide), trivial⟩, by decide⟩

/-- The same file in one read. -/
def whole : Read := .data ⟨[97, 98, 10], by simp, by simp [BUFSIZE]⟩

theorem not_getsLines_whole : ¬ GetsLines true [whole] := by
  rw [getsLines_seen]
  decide

end Bionic.Sysconf
