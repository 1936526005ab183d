import Mathlib
import Bionic.Iterate
import Bionic.UserNames
import Bionic.WordBits

/-! # The linker's own formatter (`linker/linker_printf.c`)

`kdoprnt` reads the format through one pointer.  The loop over plain text stops at the NUL that ends the format, but the
`switch` behind a `%` has no case for it: of a format that ends inside a conversion it prints the NUL, and goes on with the
characters behind it.  What is printed is counted in an `int`, so the value returned is the number of characters just
when that is below 2^31 (`counts_iff`).

* **Words.** `int`, `long` and pointers are words of 32 bits, so `LFLAG` chooses between two types that are the same.
* **Arguments.** An argument is a word or a string.  `va_arg` takes the next one, and fails where it is of the other type.
* **Output.** The calls of `putc_hook` are recorded apart from `cnt`, each where the source makes it. -/

namespace Bionic.LinkerPrintf

open Iterate WordBits

abbrev Word := BitVec 32

/-- A string in memory: its characters before the NUL that ends it. -/
structure CString where
  chars : List Char
  noNul : '\x00' ∉ chars

/-! ### The source -/

def LFLAG : Word := 1#32 <<< 0
def MFLAG : Word := 1#32 <<< 1
def ZFLAG : Word := 1#32 <<< 2
def DFLAG : Word := 1#32 <<< 3

def GET_DVAL (x : Word) : Word := x >>> 16
def SET_DVAL (x v : Word) : Word := v <<< 16 ||| x &&& 0xffff

/-- What is printed so far, and `cnt`. -/
structure Out where
  printed : List Char
  cnt : Word

/-- `(*putc_hook)(c, fd)` -/
def Out.putc (o : Out) (c : Char) : Out := { o with printed := o.printed ++ [c] }

/-- `cnt++` -/
def Out.count (o : Out) : Out := { o with cnt := o.cnt + 1 }

/-- `"0123456789abcdef"[i]` -/
def digitAt (i : ℕ) : Char := "0123456789abcdef".toList.getD i '\x00'

/-- The passes of `while (len < digits)`, each with `c`. -/
def padLoop (c : Char) : ℕ → Out → Out
  | 0, o => o
  | n + 1, o => padLoop c n (o.putc c).count

/-- `while ((ch = *p++))`, and `while (p > buf)` of `kprintn`, which prints what is stored last first. -/
def putsLoop : List Char → Out → Out
  | [], o => o
  | c :: s, o => putsLoop s (o.putc c).count

/-- The first loop of `kprintn` with so much room in `buf`: what `buf` holds, the last character stored first, or `none`
where it is overrun. -/
def digitLoop (base : ℕ) : ℕ → ℕ → List Char → Option (List Char)
  | 0, _, _ => none
  | room + 1, ul, buf =>
    let buf := digitAt (ul % base) :: buf
    let ul := ul / base
    if ul ≠ 0 then digitLoop base room ul buf else some buf

/-- The characters `s` between the two loops that fill up their field; `kprintn` and `case 's'` are alike in this. -/
def putField (pad : Char) (s : List Char) (flags : Word) (o : Out) : Out :=
  let digits := (GET_DVAL flags).toNat
  let len := s.length
  let o := if flags &&& MFLAG = 0 then padLoop pad (digits - len) o else o
  let o := putsLoop s o
  if flags &&& MFLAG ≠ 0 then padLoop ' ' (digits - len) o else o

/-- `kprintn`, with its own `cnt`. -/
def kprintn (printed : List Char) (ul : Word) (base : ℕ) (flags : Word) : Option Out := do
  let buf ← digitLoop base 64 ul.toNat []
  return putField (if flags &&& ZFLAG ≠ 0 then '0' else ' ') buf flags ⟨printed, 0⟩

/-- `cnt += kprintn(putc_hook, fd, ul, base, flags)` -/
def Out.addn (o : Out) (ul : Word) (base : ℕ) (flags : Word) : Option Out := do
  let r ← kprintn o.printed ul base flags
  return ⟨r.printed, o.cnt + r.cnt⟩

inductive Arg where
  | word (v : Word)
  | text (s : CString)

/-- `va_arg` of an integer or a pointer that is not followed. -/
def vaWord : List Arg → Option (Word × List Arg)
  | .word v :: ap => some (v, ap)
  | _ => none

/-- `va_arg(ap, char *)` of a string. -/
def vaText : List Arg → Option (CString × List Arg)
  | .text s :: ap => some (s, ap)
  | _ => none

/-- The passes of `while (l >= 0)` in `case 'X'`; `l` is four times the number of passes that follow. -/
def hexLoop (ul : Word) : ℕ → Out → Out
  | 0, o => o
  | n + 1, o => hexLoop ul n (o.putc (digitAt ((ul >>> (4 * n)) &&& 0xf).toNat)).count

/-- `case 'd'` behind its `va_arg`. -/
def putSigned (o : Out) (ul : Word) (flags : Word) : Option Out :=
  if ul.toInt < 0 then (o.putc '-').count.addn (-ul) 10 flags else o.addn ul 10 flags

/-- The cases of the `switch` that end a conversion: the output behind it and the arguments left, or `none` where there is
no argument of the type asked for or `buf` is overrun. -/
def convert (ch : Char) (flags : Word) (o : Out) (ap : List Arg) : Option (Out × List Arg) :=
  match ch with
  | 'c' => do
    let (v, ap) ← vaWord ap
    return ((o.putc (Char.ofNat (v &&& 0x7f).toNat)).count, ap)
  | 's' => do
    let (p, ap) ← vaText ap
    return (putField ' ' p.chars flags o, ap)
  | 'd' => do
    let (ul, ap) ← vaWord ap
    return (← putSigned o ul flags, ap)
  | 'o' => do
    let (ul, ap) ← vaWord ap
    return (← o.addn ul 8 flags, ap)
  | 'u' => do
    let (ul, ap) ← vaWord ap
    return (← o.addn ul 10 flags, ap)
  | 'p' => do
    -- `cnt += 2`, and the case goes on with that of 'x'
    let o := ((o.putc '0').putc 'x').count.count
    let flags := flags ||| LFLAG
    let (ul, ap) ← vaWord ap
    return (← o.addn ul 16 flags, ap)
  | 'x' => do
    let (ul, ap) ← vaWord ap
    return (← o.addn ul 16 flags, ap)
  | 'X' => do
    let (ul, ap) ← vaWord ap
    return (hexLoop ul 8 o, ap)
  | ch =>
    let o := (o.putc '%').count
    let o := if flags &&& LFLAG ≠ 0 then (o.putc 'l').count else o
    some ((o.putc ch).count, ap)

/-- `case '0'...'9'` -/
def addDigit (ch : Char) (flags : Word) : Word :=
  let flags := if ch = '0' ∧ flags &&& DFLAG = 0 then flags ||| ZFLAG else flags
  let flags := flags ||| DFLAG
  let digits := GET_DVAL flags
  let digits := digits * 10
  let digits := digits + BitVec.ofNat 32 (ch.toNat - '0'.toNat)
  SET_DVAL flags digits

/-- A format, and what is in memory behind the NUL that ends it. -/
structure Format extends CString where
  behind : ℕ → Char

/-- The character with this index. -/
def Format.charAt (F : Format) (i : ℕ) : Char :=
  if i < F.chars.length then F.chars.getD i '\x00'
  else if i = F.chars.length then '\x00'
  else F.behind (i - F.chars.length - 1)

structure State where
  /-- The index of the character at `fmt`, which the next step reads. -/
  pos : ℕ
  /-- `none` in the loop over plain text, and the flags at `reswitch`. -/
  flags : Option Word
  out : Out
  ap : List Arg

/-- The value returned, or `none` where a conversion fails, and what has been printed. -/
structure Result where
  ret : Option Word
  printed : List Char

/-- `kdoprnt` up to the next character of the format. -/
def step (F : Format) (s : State) : State ⊕ Result :=
  let ch := F.charAt s.pos
  match s.flags with
  | none =>
    if ch ≠ '%' then
      if ch = '\x00' then .inr ⟨some s.out.cnt, s.out.printed⟩
      else .inl { s with pos := s.pos + 1, out := (s.out.putc ch).count }
    else .inl { s with pos := s.pos + 1, flags := some 0 }
  | some flags =>
    if ch = 'l' then .inl { s with pos := s.pos + 1, flags := some (flags ||| LFLAG) }
    else if ch = '-' then .inl { s with pos := s.pos + 1, flags := some (flags ||| MFLAG) }
    else if ch.isDigit then .inl { s with pos := s.pos + 1, flags := some (addDigit ch flags) }
    else
      match convert ch flags s.out s.ap with
      | none => .inr ⟨none, s.out.printed⟩
      | some (out, ap) => .inl ⟨s.pos + 1, none, out, ap⟩

/-- Where `kdoprnt` begins. -/
def start (ap : List Arg) : State := ⟨0, none, ⟨[], 0⟩, ap⟩

/-- `kdoprnt` returns with this result. -/
def Kdoprnt (F : Format) (ap : List Arg) (r : Result) : Prop := Returns (step F) (start ap) r

/-! ### What it should print -/

inductive Ty where
  | word
  | text
deriving DecidableEq

def Arg.ty : Arg → Ty
  | .word _ => .word
  | .text _ => .text

/-- What a conversion stands for. -/
inductive Kind where
  | character
  | string
  | signed
  | unsigned (base : ℕ)
  | pointer
  | eightDigits
  /-- The conversion is printed as it is, without its width. -/
  | unknown

/-- The kind of a conversion, by its last character. -/
def kind : Char → Kind
  | 'c' => .character
  | 's' => .string
  | 'd' => .signed
  | 'o' => .unsigned 8
  | 'u' => .unsigned 10
  | 'x' => .unsigned 16
  | 'p' => .pointer
  | 'X' => .eightDigits
  | _ => .unknown

/-- The argument that a conversion asks for. -/
def Kind.asks : Kind → List Ty
  | .string => [.text]
  | .unknown => []
  | _ => [.word]

/-- The characters between the `%` and the last character of a conversion. -/
def isFlag (c : Char) : Bool := c = 'l' || c = '-' || c.isDigit

section Fields

variable (fs : List Char)

def digitsOf : List Char := fs.filter Char.isDigit

def width : ℕ := Nat.ofDigitChars 10 (digitsOf fs) 0 % 2 ^ 16

/-- A text in a field. -/
def padded (pad : Char) (s : List Char) : List Char :=
  let fill := width fs - s.length
  if '-' ∈ fs then s ++ List.replicate fill ' ' else List.replicate fill pad ++ s

def number (base n : ℕ) : List Char :=
  padded fs (if (digitsOf fs).head? = some '0' then '0' else ' ') (Nat.toDigits base n)

/-- What a conversion prints, and the arguments behind the one that it takes. -/
def Kind.print (letter : Char) : Kind → List Arg → List Char × List Arg
  | .character, .word v :: args => ([Char.ofNat (v.toNat % 128)], args)
  | .string, .text s :: args => (padded fs ' ' s.chars, args)
  | .signed, .word v :: args => ((if v.toInt < 0 then ['-'] else []) ++ number fs 10 v.toInt.natAbs, args)
  | .unsigned base, .word v :: args => (number fs base v.toNat, args)
  | .pointer, .word v :: args => (['0', 'x'] ++ number fs 16 v.toNat, args)
  | .eightDigits, .word v :: args => ((List.range 8).reverse.map fun i => Nat.digitChar (v.toNat / 16 ^ i % 16), args)
  | .unknown, args => (['%'] ++ (if 'l' ∈ fs then ['l'] else []) ++ [letter], args)
  | _, args => ([], args)

end Fields

inductive Directive where
  | plain (c : Char)
  | conversion (fs : List Char) (letter : Char)

/-- The directives of the rest of a format, inside a conversion that has these flags so far or outside of one.  Beside them
are the flags of a conversion that the format ends in. -/
def parse : Option (List Char) → List Char → List Directive × Option (List Char)
  | fs, [] => ([], fs)
  | none, c :: s =>
    if c = '%' then parse (some []) s
    else
      let r := parse none s
      (.plain c :: r.1, r.2)
  | some fs, c :: s =>
    if isFlag c then parse (some (fs ++ [c])) s
    else
      let r := parse none s
      (.conversion fs c :: r.1, r.2)

/-- How a directive is written in a format. -/
def Directive.chars : Directive → List Char
  | .plain c => [c]
  | .conversion fs letter => '%' :: fs ++ [letter]

/-- How a conversion begins in a format. -/
def opened : Option (List Char) → List Char
  | none => []
  | some fs => '%' :: fs

def Directive.asks : Directive → List Ty
  | .plain _ => []
  | .conversion _ letter => (kind letter).asks

/-- The text that directives describe, with the arguments for them. -/
def render : List Directive → List Arg → List Char
  | [], _ => []
  | .plain c :: ds, args => c :: render ds args
  | .conversion fs letter :: ds, args =>
    let r := (kind letter).print fs letter args
    r.1 ++ render ds r.2

def Format.directives (F : Format) : List Directive := (parse none F.chars).1

/-- The format does not end inside a conversion. -/
def Format.Complete (F : Format) : Prop := (parse none F.chars).2 = none

/-- A format with arguments of the types that it asks for; there may be more of them. -/
structure Call where
  format : Format
  args : List Arg
  matching : format.directives.flatMap Directive.asks <+: args.map Arg.ty

/-- The text that the format and the arguments describe. -/
def Call.text (C : Call) : List Char := render C.format.directives C.args

/-- No step reads behind the NUL that ends the format, and the value returned is the number of characters printed. -/
def Counts (C : Call) : Prop :=
  (∀ s, Leads (step C.format) (start C.args) s → s.pos ≤ C.format.chars.length) ∧
  ∃ r v, Kdoprnt C.format C.args r ∧ r.ret = some v ∧ v.toInt = r.printed.length

/-- The directives, with the conversion that the format ends in, are the whole format. -/
theorem chars_parse (mode : Option (List Char)) (s : List Char) :
    (parse mode s).1.flatMap Directive.chars ++ opened (parse mode s).2 = opened mode ++ s := by
  induction mode, s using parse.induct with
  | case1 mode => rw [parse, List.flatMap_nil, List.nil_append, List.append_nil]
  | case2 s ih => exact ih
  | case3 c s hc ih =>
    rw [parse, if_neg hc, List.flatMap_cons, List.append_assoc, ih]
    rfl
  | case4 fs c s hc ih =>
    rw [parse, if_pos hc, ih]
    simp [opened]
  | case5 fs c s hc ih =>
    rw [parse, if_neg hc, List.flatMap_cons, List.append_assoc, ih]
    simp [opened, Directive.chars]

/-! ### The flags -/

section Flags

variable {flags : Word} {fs : List Char} {ch : Char} {i : ℕ}

theorem getLsbD_SET_DVAL (flags v : Word) (hi : i < 16) : (SET_DVAL flags v).getLsbD i = flags.getLsbD i := by
  have hmask : (0xffff : Word).getLsbD i = true := by
    interval_cases i <;> rfl
  rw [SET_DVAL, BitVec.getLsbD_or, BitVec.getLsbD_shiftLeft, BitVec.getLsbD_and, hmask]
  simp [hi]

theorem toNat_GET_DVAL (flags : Word) : (GET_DVAL flags).toNat = flags.toNat / 2 ^ 16 := by
  rw [GET_DVAL, BitVec.toNat_ushiftRight, Nat.shiftRight_eq_div_pow]

theorem toNat_GET_SET_DVAL (flags v : Word) : (GET_DVAL (SET_DVAL flags v)).toNat = v.toNat % 2 ^ 16 := by
  have hlow : (flags &&& 0xffff).toNat = flags.toNat % 2 ^ 16 := toNat_and_lowMask flags 0xffff 16 rfl
  have hv : (v <<< 16).toNat = v.toNat % 2 ^ 16 * 2 ^ 16 := by
    rw [BitVec.toNat_shiftLeft, Nat.shiftLeft_eq]
    omega
  rw [toNat_GET_DVAL, SET_DVAL, toNat_or_of_lt 16 (by omega) (by omega), hv, hlow]
  omega

theorem GET_DVAL_or (flags : Word) (hi : i < 16) : GET_DVAL (flags ||| 1#32 <<< i) = GET_DVAL flags := by
  have hbit : (1#32 <<< i) >>> 16 = 0#32 := by
    interval_cases i <;> rfl
  rw [GET_DVAL, GET_DVAL, BitVec.ushiftRight_or_distrib, hbit, BitVec.or_zero]

/-- What the word says about the flags read so far. -/
structure Decodes (flags : Word) (fs : List Char) : Prop where
  long : flags.getLsbD 0 = decide ('l' ∈ fs)
  left : flags.getLsbD 1 = decide ('-' ∈ fs)
  zero : flags.getLsbD 2 = decide ((digitsOf fs).head? = some '0')
  digit : flags.getLsbD 3 = decide (digitsOf fs ≠ [])
  width : (GET_DVAL flags).toNat = width fs

theorem decodes_nil : Decodes 0 [] := ⟨rfl, rfl, rfl, rfl, rfl⟩

theorem digitsOf_append_of_isDigit (fs : List Char) (h : ch.isDigit = true) :
    digitsOf (fs ++ [ch]) = digitsOf fs ++ [ch] := by
  simp [digitsOf, h]

theorem digitsOf_append_of_not_isDigit (fs : List Char) (h : ch.isDigit = false) :
    digitsOf (fs ++ [ch]) = digitsOf fs := by
  simp [digitsOf, h]

theorem flag_eq_zero_iff (flags : Word) (hi : i < 32) : flags &&& 1#32 <<< i = 0 ↔ flags.getLsbD i = false := by
  rw [← Bool.not_eq_true, ← and_bit_ne_zero flags hi, not_ne_iff]
  rfl

theorem Decodes.long_iff (h : Decodes flags fs) : flags &&& LFLAG ≠ 0 ↔ 'l' ∈ fs := by
  rw [LFLAG, ne_eq, flag_eq_zero_iff flags (by omega), h.long, decide_eq_false_iff_not, not_not]

theorem Decodes.left_iff (h : Decodes flags fs) : flags &&& MFLAG ≠ 0 ↔ '-' ∈ fs := by
  rw [MFLAG, ne_eq, flag_eq_zero_iff flags (by omega), h.left, decide_eq_false_iff_not, not_not]

theorem Decodes.zero_iff (h : Decodes flags fs) : flags &&& ZFLAG ≠ 0 ↔ (digitsOf fs).head? = some '0' := by
  rw [ZFLAG, ne_eq, flag_eq_zero_iff flags (by omega), h.zero, decide_eq_false_iff_not, not_not]

theorem Decodes.digit_iff (h : Decodes flags fs) : flags &&& DFLAG = 0 ↔ digitsOf fs = [] := by
  rw [DFLAG, flag_eq_zero_iff flags (by omega), h.digit, decide_eq_false_iff_not, not_not]

/-- The two flags that are not digits. -/
theorem Decodes.append_flag (h : Decodes flags fs) (hc : ch.isDigit = false) (hi : i < 2) (hl : i = 0 ↔ 'l' = ch)
    (hm : i = 1 ↔ '-' = ch) : Decodes (flags ||| 1#32 <<< i) (fs ++ [ch]) := by
  have hdigits := digitsOf_append_of_not_isDigit fs hc
  have hbit : ∀ j, (flags ||| 1#32 <<< i).getLsbD j = (flags.getLsbD j || decide (i = j)) :=
    fun j => getLsbD_or_bit flags (by omega)
  constructor
  · rw [hbit, h.long]
    simp [hl]
  · rw [hbit, h.left]
    simp [hm]
  · have h2 : decide (i = 2) = false := decide_eq_false (by omega)
    rw [hbit, h.zero, hdigits, h2, Bool.or_false]
  · have h3 : decide (i = 3) = false := decide_eq_false (by omega)
    rw [hbit, h.digit, hdigits, h3, Bool.or_false]
  · rw [GET_DVAL_or flags (by omega), h.width, LinkerPrintf.width, LinkerPrintf.width, hdigits]

theorem Decodes.append_l (h : Decodes flags fs) : Decodes (flags ||| LFLAG) (fs ++ ['l']) :=
  h.append_flag rfl (by omega) (by simp) (by simp)

theorem Decodes.append_minus (h : Decodes flags fs) : Decodes (flags ||| MFLAG) (fs ++ ['-']) :=
  h.append_flag rfl (by omega) (by simp) (by simp)

theorem getLsbD_addDigit (ch : Char) (flags : Word) (hi : i < 16) : (addDigit ch flags).getLsbD i =
    (flags.getLsbD i || (decide (2 = i) && decide (ch = '0' ∧ flags &&& DFLAG = 0)) || decide (3 = i)) := by
  rw [addDigit, getLsbD_SET_DVAL _ _ hi, DFLAG, getLsbD_or_bit _ (by omega), ← DFLAG]
  split_ifs with h
  · rw [ZFLAG, getLsbD_or_bit _ (by omega), decide_eq_true h, Bool.and_true]
  · rw [decide_eq_false h, Bool.and_false, Bool.or_false]

theorem toNat_GET_DVAL_addDigit (flags : Word) (hc : ch.isDigit = true) :
    (GET_DVAL (addDigit ch flags)).toNat = (10 * (GET_DVAL flags).toNat + (ch.toNat - '0'.toNat)) % 2 ^ 16 := by
  have hsame : GET_DVAL ((if ch = '0' ∧ flags &&& DFLAG = 0 then flags ||| ZFLAG else flags) ||| DFLAG) =
      GET_DVAL flags := by
    rw [DFLAG, GET_DVAL_or _ (by omega), ← DFLAG]
    split_ifs
    · rw [ZFLAG, GET_DVAL_or _ (by omega)]
    · rfl
  have hlt : ch.toNat - '0'.toNat < 10 := (UserNames.digitValue_of_isDigit hc).2
  have hten : (10 : Word).toNat = 10 := rfl
  rw [addDigit, toNat_GET_SET_DVAL, hsame, BitVec.toNat_add, BitVec.toNat_mul, BitVec.toNat_ofNat, hten]
  omega

theorem Decodes.append_digit (h : Decodes flags fs) (hc : ch.isDigit = true) :
    Decodes (addDigit ch flags) (fs ++ [ch]) := by
  have hdigits := digitsOf_append_of_isDigit fs hc
  have hl : 'l' ≠ ch := by
    rintro rfl
    cases hc
  have hm : '-' ≠ ch := by
    rintro rfl
    cases hc
  have hzero : (digitsOf fs ++ [ch]).head? = some '0' ↔
      (digitsOf fs).head? = some '0' ∨ ch = '0' ∧ digitsOf fs = [] := by
    cases digitsOf fs with
    | nil => simp
    | cons c l => simp
  constructor
  · rw [getLsbD_addDigit ch flags (by omega), h.long]
    simp [hl]
  · rw [getLsbD_addDigit ch flags (by omega), h.left]
    simp [hm]
  · rw [getLsbD_addDigit ch flags (by omega), h.zero, hdigits, decide_eq_decide.mpr hzero, Bool.decide_or]
    simp only [h.digit_iff]
    simp
  · rw [getLsbD_addDigit ch flags (by omega), hdigits]
    simp
  · rw [toNat_GET_DVAL_addDigit flags hc, h.width, LinkerPrintf.width, LinkerPrintf.width, hdigits,
      Nat.ofDigitChars_append, Nat.ofDigitChars_cons, Nat.ofDigitChars_nil]
    omega

end Flags

/-! ### The output -/

/-- The output behind these characters, each of them counted. -/
def Out.append (o : Out) (l : List Char) : Out := ⟨o.printed ++ l, o.cnt + BitVec.ofNat 32 l.length⟩

section Output

variable {flags : Word} {fs : List Char} {base n : ℕ}

theorem append_nil (o : Out) : o.append [] = o := by simp [Out.append]

theorem append_append (o : Out) (l m : List Char) : (o.append l).append m = o.append (l ++ m) := by
  simp [Out.append, BitVec.ofNat_add, BitVec.add_assoc]

theorem putc_count (o : Out) (c : Char) : (o.putc c).count = o.append [c] := rfl

theorem padLoop_eq (c : Char) (n : ℕ) (o : Out) : padLoop c n o = o.append (List.replicate n c) := by
  induction n generalizing o with
  | zero => exact (append_nil o).symm
  | succ n ih => rw [padLoop, ih, putc_count, append_append, List.replicate_succ, List.singleton_append]

theorem putsLoop_eq (s : List Char) (o : Out) : putsLoop s o = o.append s := by
  induction s generalizing o with
  | nil => exact (append_nil o).symm
  | cons c s ih => rw [putsLoop, ih, putc_count, append_append, List.singleton_append]

theorem digitAt_eq {i : ℕ} (h : i < 16) : digitAt i = Nat.digitChar i := by
  interval_cases i <;> decide

/-- A number of as many bits as `buf` has room for characters fits in. -/
theorem digitLoop_eq {room : ℕ} (hb : 1 < base) (hb' : base ≤ 16) (hn : n < 2 ^ (room + 1)) (buf : List Char) :
    digitLoop base (room + 1) n buf = some (Nat.toDigits base n ++ buf) := by
  induction room generalizing n buf with
  | zero =>
    have hlt : n < base := by omega
    rw [digitLoop, Nat.div_eq_of_lt hlt, Nat.mod_eq_of_lt hlt, digitAt_eq (by omega), Nat.toDigits_of_lt_base hlt]
    rfl
  | succ room ih =>
    have hmod : n % base < 16 := (Nat.mod_lt n (by omega)).trans_le hb'
    rw [digitLoop, digitAt_eq hmod]
    by_cases hlt : n < base
    · rw [Nat.div_eq_of_lt hlt, Nat.mod_eq_of_lt hlt, Nat.toDigits_of_lt_base hlt]
      rfl
    · have hle : base ≤ n := Nat.not_lt.mp hlt
      have hdiv : n / base ≠ 0 := (Nat.div_pos hle (by omega)).ne'
      have hsmall : n / base < 2 ^ (room + 1) := by
        rw [Nat.div_lt_iff_lt_mul (by omega)]
        calc n < 2 ^ (room + 1) * 2 := by rw [← Nat.pow_succ]; exact hn
          _ ≤ 2 ^ (room + 1) * base := Nat.mul_le_mul_left _ hb
      rw [if_pos hdiv, ih hsmall, Nat.toDigits_of_base_le hb hle, List.append_assoc, List.singleton_append]

theorem putField_eq (h : Decodes flags fs) (pad : Char) (s : List Char) (o : Out) :
    putField pad s flags o = o.append (padded fs pad s) := by
  rw [putField, h.width, padded]
  by_cases hm : '-' ∈ fs
  · have hset := h.left_iff.mpr hm
    rw [if_neg hset, if_pos hset, if_pos hm, putsLoop_eq, padLoop_eq, append_append]
  · have hclear := not_ne_iff.mp (mt h.left_iff.mp hm)
    rw [if_pos hclear, if_neg (not_not.mpr hclear), if_neg hm, padLoop_eq, putsLoop_eq, append_append]

theorem addn_eq (h : Decodes flags fs) (hb : 1 < base) (hb' : base ≤ 16) (o : Out) (ul : Word) :
    o.addn ul base flags = some (o.append (number fs base ul.toNat)) := by
  have hul : ul.toNat < 2 ^ (63 + 1) := ul.isLt.trans (by decide)
  rw [Out.addn, kprintn, digitLoop_eq hb hb' hul, List.append_nil]
  simp only [Option.bind_eq_bind, Option.bind_some, putField_eq h, h.zero_iff]
  simp [Out.append, number]

theorem hexLoop_eq (v : Word) (n : ℕ) (o : Out) :
    hexLoop v n o = o.append ((List.range n).reverse.map fun i => Nat.digitChar (v.toNat / 16 ^ i % 16)) := by
  induction n generalizing o with
  | zero => exact (append_nil o).symm
  | succ n ih =>
    have hdigit : ((v >>> (4 * n)) &&& 0xf).toNat = v.toNat / 16 ^ n % 16 := by
      rw [toNat_and_lowMask _ 0xf 4 rfl, BitVec.toNat_ushiftRight, Nat.shiftRight_eq_div_pow, Nat.pow_mul]
      rfl
    rw [hexLoop, hdigit, digitAt_eq (Nat.mod_lt _ (by omega)), ih, putc_count, append_append, List.range_succ,
      List.reverse_append]
    rfl

theorem putSigned_eq (h : Decodes flags fs) (o : Out) (v : Word) : putSigned o v flags =
    some (o.append ((if v.toInt < 0 then ['-'] else []) ++ number fs 10 v.toInt.natAbs)) := by
  rw [putSigned]
  have habs := BitVec.toInt_eq_toNat_cond v
  split_ifs with hneg
  · have hnat : (-v).toNat = v.toInt.natAbs := by
      rw [BitVec.toNat_neg]
      omega
    rw [addn_eq h (by omega) (by omega), hnat, putc_count, append_append]
  · have hnat : v.toNat = v.toInt.natAbs := by omega
    rw [addn_eq h (by omega) (by omega), hnat, List.nil_append]

end Output

/-! ### Conversions -/

section Conversions

variable {flags : Word} {fs : List Char} {args : List Arg} {m : List Ty}

theorem exists_arg {ty : Ty} (h : ty :: m <+: args.map Arg.ty) :
    ∃ a rest, args = a :: rest ∧ a.ty = ty ∧ m <+: rest.map Arg.ty := by
  cases args with
  | nil => simp at h
  | cons a rest =>
    rw [List.map_cons, List.cons_prefix_cons] at h
    exact ⟨a, rest, rfl, h.1.symm, h.2⟩

/-- The characters that end a conversion which takes an argument; that of 's' is a string. -/
def letters : List Char := ['s', 'c', 'd', 'o', 'u', 'p', 'x', 'X']

theorem kind_of_notMem {letter : Char} (h : letter ∉ letters) : kind letter = .unknown := by
  simp only [letters, List.mem_cons, List.not_mem_nil, or_false, not_or] at h
  unfold kind
  split <;> simp_all

theorem convert_unknown {letter : Char} (h : letter ∉ letters) (hf : Decodes flags fs) (o : Out) (ap : List Arg) :
    convert letter flags o ap = some (o.append (['%'] ++ (if 'l' ∈ fs then ['l'] else []) ++ [letter]), ap) := by
  simp only [letters, List.mem_cons, List.not_mem_nil, or_false, not_or] at h
  unfold convert
  split
  case h_9 =>
    simp only [hf.long_iff, putc_count]
    split_ifs <;> simp only [append_append, List.append_assoc, List.append_nil]
  all_goals simp_all

theorem number_append_l (fs : List Char) (base n : ℕ) : number (fs ++ ['l']) base n = number fs base n := by
  have hdigits : digitsOf (fs ++ ['l']) = digitsOf fs := digitsOf_append_of_not_isDigit fs rfl
  simp [number, padded, width, hdigits]

theorem putc_0x (o : Out) : ((o.putc '0').putc 'x').count.count = o.append ['0', 'x'] := by
  simp [Out.putc, Out.count, Out.append, BitVec.add_assoc]

theorem print_word {letter : Char} (hl : letter ∈ letters.tail) (fs : List Char) (v : Word) (ap : List Arg) :
    (kind letter).asks = [.word] ∧ ((kind letter).print fs letter (.word v :: ap)).2 = ap := by
  simp only [letters, List.tail_cons, List.mem_cons, List.not_mem_nil, or_false] at hl
  rcases hl with rfl | rfl | rfl | rfl | rfl | rfl | rfl <;> exact ⟨rfl, rfl⟩

theorem convert_word {letter : Char} (hl : letter ∈ letters.tail) (hf : Decodes flags fs) (o : Out) (v : Word)
    (ap : List Arg) :
    convert letter flags o (.word v :: ap) = some (o.append ((kind letter).print fs letter (.word v :: ap)).1, ap) := by
  simp only [letters, List.tail_cons, List.mem_cons, List.not_mem_nil, or_false] at hl
  rcases hl with rfl | rfl | rfl | rfl | rfl | rfl | rfl
  · have hlow : (v &&& 0x7f).toNat = v.toNat % 128 := toNat_and_lowMask v 0x7f 7 rfl
    simp only [convert, vaWord, Option.bind_eq_bind, Option.bind_some, hlow]
    rfl
  · simp only [convert, vaWord, putSigned_eq hf]
    rfl
  · simp only [convert, vaWord, addn_eq hf (by omega : 1 < 8) (by omega : 8 ≤ 16)]
    rfl
  · simp only [convert, vaWord, addn_eq hf (by omega : 1 < 10) (by omega : 10 ≤ 16)]
    rfl
  · simp only [convert, vaWord, putc_0x, addn_eq hf.append_l (by omega : 1 < 16) (by omega : 16 ≤ 16), append_append,
      number_append_l]
    rfl
  · simp only [convert, vaWord, addn_eq hf (by omega : 1 < 16) (by omega : 16 ≤ 16)]
    rfl
  · simp only [convert, vaWord, hexLoop_eq]
    rfl

/-- A conversion with the argument that it asks for prints its text and goes on with the arguments behind that one. -/
theorem convert_eq (letter : Char) (hf : Decodes flags fs) (h : (kind letter).asks ++ m <+: args.map Arg.ty) (o : Out) :
    convert letter flags o args =
      some (o.append ((kind letter).print fs letter args).1, ((kind letter).print fs letter args).2) ∧
    m <+: ((kind letter).print fs letter args).2.map Arg.ty := by
  by_cases hl : letter ∈ letters
  · rcases List.mem_cons.mp hl with rfl | hl
    · obtain ⟨a, rest, rfl, hty, hrest⟩ := exists_arg h
      cases a with
      | word v => cases hty
      | text s => exact ⟨congrArg (fun o => some (o, rest)) (putField_eq hf ' ' s.chars o), hrest⟩
    · rw [(print_word hl fs 0 []).1] at h
      obtain ⟨a, rest, rfl, hty, hrest⟩ := exists_arg h
      cases a with
      | word v =>
        rw [(print_word hl fs v rest).2]
        exact ⟨convert_word hl hf o v rest, hrest⟩
      | text s => cases hty
  · rw [kind_of_notMem hl] at h ⊢
    exact ⟨convert_unknown hl hf o args, h⟩

end Conversions

/-! ### The run over a format -/

section Run

variable {F : Format} {pos : ℕ} {flags : Option Word} {w : Word} {o : Out} {args : List Arg} {mode : Option (List Char)}
  {fs pre s : List Char} {c : Char} {t u : State}

theorem charAt_append (h : F.chars = pre ++ c :: s) : F.charAt pre.length = c := by
  rw [Format.charAt, h, if_pos (by simp)]
  simp

theorem charAt_end (F : Format) : F.charAt F.chars.length = '\x00' := by simp [Format.charAt]

theorem ne_nul (h : F.chars = pre ++ c :: s) : c ≠ '\x00' := by
  rintro rfl
  exact F.noNul (by simp [h])

theorem step_percent (h : F.charAt pos = '%') (o : Out) (args : List Arg) :
    step F ⟨pos, none, o, args⟩ = .inl ⟨pos + 1, some 0, o, args⟩ := by
  simp [step, h]

theorem step_plain (h : F.charAt pos = c) (hc : c ≠ '%') (hn : c ≠ '\x00') (o : Out) (args : List Arg) :
    step F ⟨pos, none, o, args⟩ = .inl ⟨pos + 1, none, o.append [c], args⟩ := by
  simp only [step, h]
  rw [if_pos hc, if_neg hn, putc_count]

theorem step_end (h : F.charAt pos = '\x00') (o : Out) (args : List Arg) :
    step F ⟨pos, none, o, args⟩ = .inr ⟨some o.cnt, o.printed⟩ := by
  simp [step, h]

theorem step_flag (h : F.charAt pos = c) (hc : isFlag c = true) (hf : Decodes w fs) (o : Out) (args : List Arg) :
    ∃ w', Decodes w' (fs ++ [c]) ∧ step F ⟨pos, some w, o, args⟩ = .inl ⟨pos + 1, some w', o, args⟩ := by
  simp only [step, h]
  by_cases hl : c = 'l'
  · subst hl
    exact ⟨_, hf.append_l, if_pos rfl⟩
  · rw [if_neg hl]
    by_cases hm : c = '-'
    · subst hm
      exact ⟨_, hf.append_minus, if_pos rfl⟩
    · have hd : c.isDigit = true := by simpa [isFlag, hl, hm] using hc
      rw [if_neg hm, if_pos hd]
      exact ⟨_, hf.append_digit hd, rfl⟩

theorem step_convert {o' : Out} {args' : List Arg} (h : F.charAt pos = c) (hc : isFlag c = false)
    (hconv : convert c w o args = some (o', args')) :
    step F ⟨pos, some w, o, args⟩ = .inl ⟨pos + 1, none, o', args'⟩ := by
  simp only [isFlag, Bool.or_eq_false_iff, decide_eq_false_iff_not] at hc
  obtain ⟨⟨hl, hm⟩, hd⟩ := hc
  simp only [step, h, hconv]
  rw [if_neg hl, if_neg hm, if_neg (by rw [hd]; exact Bool.false_ne_true)]

/-- The loop reads a format up to the NUL that ends it, and prints the text of its directives. -/
theorem leads_parse (hF : F.chars = pre ++ s) (hf : Option.Rel Decodes flags mode)
    (hm : (parse mode s).1.flatMap Directive.asks <+: args.map Arg.ty) (o : Out) :
    ∃ flags' args', Option.Rel Decodes flags' (parse mode s).2 ∧
      Leads (step F) ⟨pre.length, flags, o, args⟩
        ⟨F.chars.length, flags', o.append (render (parse mode s).1 args), args'⟩ := by
  induction mode, s using parse.induct generalizing pre flags args o with
  | case1 mode =>
    rw [List.append_nil] at hF
    rw [parse, ← hF, render, append_nil]
    exact ⟨flags, args, hf, .refl _⟩
  | case2 s ih =>
    cases hf
    have hstep := step_percent (charAt_append hF) o args
    rw [List.append_cons] at hF
    obtain ⟨flags', args', hf', hlead⟩ := ih hF (.some decodes_nil) hm o
    rw [List.length_append, List.length_singleton] at hlead
    exact ⟨flags', args', hf', .next hstep hlead⟩
  | case3 c s hc ih =>
    cases hf
    have hstep := step_plain (charAt_append hF) hc (ne_nul hF) o args
    rw [List.append_cons] at hF
    rw [parse, if_neg hc] at hm ⊢
    obtain ⟨flags', args', hf', hlead⟩ := ih hF .none hm (o.append [c])
    rw [List.length_append, List.length_singleton, append_append] at hlead
    exact ⟨flags', args', hf', .next hstep hlead⟩
  | case4 fs c s hc ih =>
    cases hf with
    | some hw =>
      obtain ⟨w', hw', hstep⟩ := step_flag (charAt_append hF) hc hw o args
      rw [List.append_cons] at hF
      rw [parse, if_pos hc] at hm ⊢
      obtain ⟨flags', args', hf', hlead⟩ := ih hF (.some hw') hm o
      rw [List.length_append, List.length_singleton] at hlead
      exact ⟨flags', args', hf', .next hstep hlead⟩
  | case5 fs c s hc ih =>
    cases hf with
    | some hw =>
      rw [parse, if_neg hc] at hm ⊢
      rw [List.flatMap_cons, Directive.asks] at hm
      obtain ⟨hconv, hrest⟩ := convert_eq c hw hm o
      have hstep := step_convert (charAt_append hF) (Bool.eq_false_iff.mpr hc) hconv
      rw [List.append_cons] at hF
      obtain ⟨flags', args', hf', hlead⟩ := ih hF .none hrest _
      rw [List.length_append, List.length_singleton, append_append] at hlead
      exact ⟨flags', args', hf', .next hstep hlead⟩

/-- Every step that goes on has read one character. -/
theorem pos_of_step (h : step F t = .inl u) : u.pos = t.pos + 1 := by
  obtain ⟨pos, flags, o, ap⟩ := t
  cases flags with
  | none =>
    simp only [step] at h
    split_ifs at h <;> cases h <;> rfl
  | some w =>
    simp only [step] at h
    cases hconv : convert (F.charAt pos) w o ap with
    | none =>
      simp only [hconv] at h
      split_ifs at h <;> cases h <;> rfl
    | some r =>
      simp only [hconv] at h
      split_ifs at h <;> cases h <;> rfl

theorem pos_le_of_leads (h : Leads (step F) t u) : t.pos ≤ u.pos := by
  induction h with
  | refl => exact le_rfl
  | tail _ hstep ih =>
    rw [pos_of_step hstep]
    exact ih.trans (Nat.le_succ _)

end Run

theorem toInt_ofNat_eq_iff (n : ℕ) : (BitVec.ofNat 32 n).toInt = n ↔ n < 2 ^ 31 := by
  have hcond := BitVec.toInt_eq_toNat_cond (BitVec.ofNat 32 n)
  have hnat : (BitVec.ofNat 32 n).toNat = n % 2 ^ 32 := BitVec.toNat_ofNat n 32
  omega

/-- A call comes to the NUL that ends its format, inside a conversion if the format ends inside one. -/
theorem leads_start (C : Call) : ∃ flags args, Option.Rel Decodes flags (parse none C.format.chars).2 ∧
    Leads (step C.format) (start C.args)
      ⟨C.format.chars.length, flags, ⟨C.text, BitVec.ofNat 32 C.text.length⟩, args⟩ := by
  have hchars : C.format.chars = [] ++ C.format.chars := rfl
  obtain ⟨flags, args, hf, hlead⟩ := leads_parse hchars .none C.matching ⟨[], 0⟩
  have hout : Out.append ⟨[], 0⟩ C.text = ⟨C.text, BitVec.ofNat 32 C.text.length⟩ := by simp [Out.append]
  exact ⟨flags, args, hf, hout ▸ hlead⟩

/-- A format that ends inside a conversion is read behind its end: the conversion takes the NUL as its last character. -/
theorem not_counts (C : Call) (h : ¬ C.format.Complete) : ¬ Counts C := by
  rintro ⟨hread, -⟩
  obtain ⟨flags, args, hf, hlead⟩ := leads_start C
  obtain ⟨fs, hfs⟩ := Option.ne_none_iff_exists'.mp h
  rw [hfs] at hf
  cases hf with
  | some hw =>
    have hnul : '\x00' ∉ letters := by decide
    have hconv := convert_unknown hnul hw ⟨C.text, BitVec.ofNat 32 C.text.length⟩ args
    have hbehind := hread _ (hlead.tail (step_convert (charAt_end C.format) rfl hconv))
    exact absurd hbehind (Nat.not_succ_le_self _)

/-- Of a format that does not end inside a conversion, all that is read is inside, and what is printed is its text. -/
theorem complete_run (C : Call) (h : C.format.Complete) :
    (∀ s, Leads (step C.format) (start C.args) s → s.pos ≤ C.format.chars.length) ∧
    ∀ r, Kdoprnt C.format C.args r ↔ r = ⟨some (BitVec.ofNat 32 C.text.length), C.text⟩ := by
  obtain ⟨flags, args, hf, hlead⟩ := leads_start C
  rw [h] at hf
  cases hf
  have hend := step_end (charAt_end C.format) ⟨C.text, BitVec.ofNat 32 C.text.length⟩ args
  constructor
  · intro s hs
    exact pos_le_of_leads (hlead.to_end hend hs)
  · intro r
    exact hlead.returns_iff.trans (returns_done_iff hend)

/-- The formatter reads nothing behind the NUL that ends the format and returns the number of characters that it prints, if
and only if the format does not end inside a conversion and the text that it describes has less than 2^31 characters. -/
theorem counts_iff (C : Call) : Counts C ↔ C.format.Complete ∧ C.text.length < 2 ^ 31 := by
  by_cases hcomplete : C.format.Complete
  · obtain ⟨hread, hreturns⟩ := complete_run C hcomplete
    rw [Counts, ← toInt_ofNat_eq_iff]
    constructor
    · rintro ⟨-, r, v, hr, hv, hlen⟩
      obtain rfl := (hreturns r).mp hr
      obtain rfl := Option.some.inj hv
      exact ⟨hcomplete, hlen⟩
    · rintro ⟨-, hlen⟩
      exact ⟨hread, _, _, (hreturns _).mpr rfl, rfl, hlen⟩
  · exact ⟨fun h => absurd h (not_counts C hcomplete), fun h => absurd h.1 hcomplete⟩

/-- The format "100%" without arguments. -/
def hundredPercent (behind : ℕ → Char) : Call where
  format := ⟨⟨['1', '0', '0', '%'], by decide⟩, behind⟩
  args := []
  matching := List.nil_prefix

/-- The conversion takes the NUL as its last character, and the text is read on behind it. -/
theorem not_counts_hundredPercent : ¬ Counts (hundredPercent fun _ => '\x00') := by
  refine not_counts _ ?_
  intro h
  cases h

end Bionic.LinkerPrintf
