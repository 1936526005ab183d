import Mathlib.Data.List.Basic
import Mathlib.Data.List.TakeWhile
import Mathlib.Tactic.Common

/-! # The tokens of a header (`libc/kernel/tools/cpp.py`)

`CppTokenizer` splits the lines of a header into tokens, and each token keeps the text that it was made of.  The
cursor is the text that is left, with a line feed for the end of each line; the end of the last line reads as a NUL.
The positions of the tokens are left out.

The text is lost where it is a comment behind `//`, and where a comment does not end.  What is a comment depends on
the literals in front of it.  The tokenizer lets a backslash hide a quote everywhere in a string, but only at the first
place of a character literal, so it sees comments that C does not see (`lossless_iff`, `not_lossless_quote`). -/

namespace Bionic.CppTokenizer

/-! ### Tokens -/

/-- The ids of tokens.  All but six of them are the text of the token. -/
inductive TokId
  | eof
  | ln
  | space
  | number
  | string
  | ident
  | defined
  | text (t : List Char)
deriving DecidableEq, Repr

def tokEOF : Char := '\x00'

def tokLN : Char := '\n'

def TokId.str : TokId → List Char
  | eof => [tokEOF]
  | ln => [tokLN]
  | space => [' ']
  | number => "<number>".toList
  | string => "<string>".toList
  | ident => "<ident>".toList
  | defined => "defined".toList
  | text t => t

structure Token where
  id : TokId
  value : List Char
deriving DecidableEq, Repr

/-- `Token.set` with one argument. -/
def Token.ofId (id : TokId) : Token := ⟨id, id.str⟩

/-- `Token.__str__` -/
def Token.str (t : Token) : List Char :=
  match t.id with
  | .ident => t.value
  | .number => t.value
  | .string => t.value
  | .eof => "<EOF>".toList
  | .space => if t.value = ['\\'] then ['\\', '\n'] else t.value
  | id => id.str

/-! ### Reading -/

def peekChar (s : List Char) : Char := s.headD tokEOF

def nextChar : List Char → Char × List Char
  | [] => (tokEOF, [])
  | c :: s => (c, s)

/-- `peekNChar`: the next `n` characters, on the same line. -/
def peekNChar (n : ℕ) (s : List Char) : Option (List Char) :=
  let l := s.take n
  if l.length < n ∨ tokLN ∈ l then none else some l

/-- Decided by going through `num`. -/
local instance decidableAllIn (num digits : List Char) : Decidable (∀ d ∈ num, d ∈ digits) := List.decidableBAll (· ∈ digits) num

/-- The digits behind an escape, if all of them are there. -/
def escapeDigits (n : ℕ) (digits : List Char) (c : Char) (s : List Char) : List Char × List Char :=
  match peekNChar n s with
  | none => ([c], s)
  | some num => if ∀ d ∈ num, d ∈ digits then (c :: num, s.drop n) else ([c], s)

def octalDigits : List Char := ['0', '1', '2', '3', '4', '5', '6', '7']

/-- The digits of the source, which has no `9`. -/
def hexDigits : List Char :=
  ['0', '1', '2', '3', '4', '5', '6', '7', '8', 'a', 'b', 'c', 'd', 'e', 'f', 'A', 'B', 'C', 'D', 'E', 'F']

/-- `getEscape` -/
def getEscape (s : List Char) : List Char × List Char :=
  let (c, s) := nextChar s
  if c = '0' then escapeDigits 3 octalDigits c s
  else if c = 'x' ∨ c = 'X' then escapeDigits 2 hexDigits c s
  else if c = 'u' ∨ c = 'U' then escapeDigits 4 hexDigits c s
  else ([c], s)

/-- `c.isspace()` -/
def isSpace (c : Char) : Bool := c ∈ [' ', '\t', '\n', '\r', '\x0b', '\x0c']

/-- `c.isalnum() or c == "_"` -/
def isWord (c : Char) : Bool := c.isAlphanum || c = '_'

/-- Behind `//`. -/
def skipLine : List Char → List Char
  | [] => []
  | c :: s => if c = tokEOF ∨ c = tokLN then s else skipLine s

/-- The loop behind the start of a comment: whether the comment ends, its text up to the last `*`, and what is left. -/
def commentLoop : Option Char → List Char → Bool × List Char × List Char
  | _, [] => (false, [], [])
  | prev, c :: s =>
      if c = tokEOF then (false, [], s)
      else if c = '/' ∧ prev = some '*' then (true, [], s)
      else
        let (ends, v, s) := commentLoop (some c) s
        (ends, c :: v, s)

/-- The loop behind the first character of a character literal. -/
def charLoop : List Char → List Char × List Char
  | [] => ([], [])
  | c :: s =>
      if c = tokEOF then ([], s)
      else if c = '\'' then ([c], s)
      else
        let (v, s) := charLoop s
        (c :: v, s)

/-- The loop of a string literal. -/
def stringLoop : Bool → List Char → List Char × List Char
  | _, [] => ([], [])
  | quote, c :: s =>
      if c = tokEOF then ([], s)
      else if quote = false ∧ c = '"' then ([c], s)
      else
        let (v, s) := stringLoop (quote = false ∧ c = '\\') s
        (c :: v, s)

def cppLongSymbols : List (List Char) :=
  ["##", "&&", "||", "<<", ">>", "...", "==", "!=", "<=", ">=", "->", "++", "--"].map String.toList

/-- The branches of `nextRealToken` from the special symbols on. -/
def symbol (c : Char) (s : List Char) : Token × List Char :=
  match cppLongSymbols.find? fun sk => sk.isPrefixOf (c :: s) with
  | some sk => (.ofId (.text sk), s.drop (sk.length - 1))
  | none => (.ofId (.text [c]), s)

/-- The branches of `nextRealToken` that begin with a slash. -/
def slash (s : List Char) : Token × List Char :=
  match s with
  | '/' :: s => (.ofId .ln, skipLine s)
  | '*' :: s =>
      let (ends, v, s) := commentLoop none s
      if ends then (⟨.space, '/' :: '*' :: (v ++ ['/'])⟩, s) else (⟨.eof, '/' :: '*' :: v⟩, s)
  | s => symbol '/' s

/-- The branches that begin with a backslash. -/
def backslash (s : List Char) : Token × List Char :=
  if peekChar s = tokLN then (⟨.space, ['\\']⟩, s.drop 1)
  else
    let (e, s) := getEscape s
    (.ofId (.text ('\\' :: e)), s)

/-- A character literal. -/
def charLiteral (s : List Char) : Token × List Char :=
  let (c₂, s) := nextChar s
  let (e, s) := if c₂ = '\\' then getEscape s else ([], s)
  let (v, s) := charLoop s
  (⟨.string, '\'' :: c₂ :: (e ++ v)⟩, s)

/-- A word that begins with a letter. -/
def identifier (c : Char) (s : List Char) : Token × List Char :=
  let v := c :: s.takeWhile isWord
  (if v = "defined".toList then .ofId .defined else ⟨.ident, v⟩, s.dropWhile isWord)

/-- `nextRealToken` -/
def nextRealToken : List Char → Token × List Char
  | [] => (.ofId .eof, [])
  | c :: s =>
      if c = tokEOF then (.ofId .eof, s)
      else if c = tokLN then (.ofId .ln, s)
      else if c = '/' then slash s
      else if isSpace c then
        let p (c : Char) : Bool := c ≠ tokLN && isSpace c
        (⟨.space, c :: s.takeWhile p⟩, s.dropWhile p)
      else if c = '\\' then backslash s
      else if c = '\'' then charLiteral s
      else if c = '"' then
        let (v, s) := stringLoop false s
        (⟨.string, c :: v⟩, s)
      else if c.isDigit then (⟨.number, c :: s.takeWhile isWord⟩, s.dropWhile isWord)
      else if isWord c then identifier c s
      else symbol c s

/-- The loop of `toTokenList`.  None if it has not ended after so many tokens. -/
def tokenLoop : ℕ → List Char → Option (List Token)
  | 0, _ => none
  | fuel + 1, s =>
      let (t, s) := nextRealToken s
      if t.id = .eof then some [] else (tokenLoop fuel s).map (t :: ·)

/-- What a `CppLinesTokenizer` reads. -/
def lineText (lines : List (List Char)) : List Char := lines.flatMap fun line => line ++ [tokLN]

/-- The tokens of the lines, up to the end. -/
def toTokenList (lines : List (List Char)) : Option (List Token) :=
  tokenLoop ((lineText lines).length + 1) (lineText lines)

/-- All tokens together have the text of the lines. -/
def Lossless (lines : List (List Char)) : Prop :=
  ∃ tokens, toTokenList lines = some tokens ∧ tokens.flatMap Token.str = lineText lines

/-! ### Comments -/

/-- Where in a text a character stands. -/
inductive Mode
  | code
  /-- Behind a slash that may start a comment. -/
  | slash
  /-- Behind a backslash. -/
  | escape
  /-- At the first place of a character literal. -/
  | char
  | charEscape
  | chars
  | string
  | stringEscape
  | comment
  /-- Behind an asterisk that may end a comment. -/
  | star
deriving DecidableEq, Repr

def Mode.nextCode (c : Char) : Mode :=
  if c = '/' then slash else if c = '\\' then escape else if c = '\'' then char else if c = '"' then string else code

/-- The rules of the tokenizer.  None if a comment starts with `//`. -/
def Mode.next (m : Mode) (c : Char) : Option Mode :=
  match m with
  | code => some (nextCode c)
  | slash => if c = '/' then none else if c = '*' then some comment else some (nextCode c)
  | escape => some code
  | char => some (if c = '\\' then charEscape else chars)
  | charEscape => some chars
  | chars => some (if c = '\'' then code else chars)
  | string => some (if c = '"' then code else if c = '\\' then stringEscape else string)
  | stringEscape => some string
  | comment => some (if c = '*' then star else comment)
  | star => some (if c = '/' then code else if c = '*' then star else comment)

/-- The rules of C: a backslash hides a quote in both kinds of literals, and nowhere else. -/
def Mode.nextC (m : Mode) (c : Char) : Option Mode :=
  match m with
  | code => if c = '\\' then some code else code.next c
  | slash => if c = '\\' then some code else slash.next c
  | char => some (if c = '\'' then code else if c = '\\' then charEscape else chars)
  | chars => some (if c = '\'' then code else if c = '\\' then charEscape else chars)
  | m => m.next c

/-- A comment has not ended. -/
def Mode.inComment (m : Mode) : Bool := m = comment || m = star

/-- The modes from a character on. -/
def run (next : Mode → Char → Option Mode) : Mode → List Char → Option Mode
  | m, [] => some m
  | m, c :: s => (next m c).bind fun m => run next m s

/-- By the rules there is no comment with `//`, and none that does not end. -/
def clean (next : Mode → Char → Option Mode) (s : List Char) : Bool :=
  match run next .code s with
  | none => false
  | some m => !m.inComment

/-! ### One token -/

section

variable {s r v w : List Char} {m m' : Mode} {c : Char}

theorem run_append (next : Mode → Char → Option Mode) (m : Mode) (v s : List Char) :
    run next m (v ++ s) = (run next m v).bind fun m => run next m s := by
  induction v generalizing m with
  | nil => rfl
  | cons c v ih =>
      rw [List.cons_append, run, run]
      cases next m c with
      | none => rfl
      | some m' => exact ih m'

/-- A text leads from a mode to the code behind it, or the text that is left is empty and no comment is open. -/
def Leads (m : Mode) (v r : List Char) : Prop :=
  run Mode.next m v = some .code ∨ r = [] ∧ ∃ m', run Mode.next m v = some m' ∧ m'.inComment = false

theorem Leads.clean_eq (h : Leads .code v r) : clean Mode.next (v ++ r) = clean Mode.next r := by
  rw [clean, clean, run_append]
  obtain code | ⟨rfl, m, open_, no⟩ := h
  · rw [code]
    rfl
  · rw [open_]
    show (!m.inComment) = true
    rw [no]
    rfl

/-- A character that neither starts nor hides anything. -/
def Plain (c : Char) : Prop := c ≠ '/' ∧ c ≠ '\\' ∧ c ≠ '\'' ∧ c ≠ '"'

instance (c : Char) : Decidable (Plain c) := inferInstanceAs (Decidable (c ≠ '/' ∧ c ≠ '\\' ∧ c ≠ '\'' ∧ c ≠ '"'))

theorem Plain.nextCode (h : Plain c) : Mode.nextCode c = .code := by
  rw [Mode.nextCode, if_neg h.1, if_neg h.2.1, if_neg h.2.2.1, if_neg h.2.2.2]

theorem run_plain (h : ∀ c ∈ v, Plain c) : run Mode.next .code v = some .code := by
  induction v with
  | nil => rfl
  | cons c v ih =>
      obtain ⟨plain, rest⟩ := List.forall_mem_cons.1 h
      rw [run, Mode.next, plain.nextCode]
      exact ih rest

theorem plain_of_isWord (h : isWord c) : Plain c := by
  refine ⟨?_, ?_, ?_, ?_⟩ <;> rintro rfl <;> exact absurd h (by decide)

theorem plain_of_isSpace (h : isSpace c) : Plain c := by
  refine ⟨?_, ?_, ?_, ?_⟩ <;> rintro rfl <;> exact absurd h (by decide)

theorem plain_of_isDigit (h : c.isDigit) : Plain c := by
  refine ⟨?_, ?_, ?_, ?_⟩ <;> rintro rfl <;> exact absurd h (by decide)

/-- Digits that belong to an escape do not end a character literal either. -/
theorem run_digits (h : ∀ c ∈ v, Plain c) : run Mode.next .chars v = some .chars := by
  induction v with
  | nil => rfl
  | cons c v ih =>
      obtain ⟨plain, rest⟩ := List.forall_mem_cons.1 h
      rw [run, Mode.next, if_neg plain.2.2.1]
      exact ih rest

/-- An escape is a character and digits. -/
theorem escapeDigits_spec {n : ℕ} {digits : List Char} (plain : ∀ d ∈ digits, Plain d) (c : Char) (s : List Char) :
    ∃ num r, escapeDigits n digits c s = (c :: num, r) ∧ s = num ++ r ∧ ∀ d ∈ num, Plain d := by
  unfold escapeDigits peekNChar
  dsimp only
  split
  next => exact ⟨[], s, rfl, rfl, fun _ h => nomatch h⟩
  next num peek =>
    split at peek
    next => cases peek
    next =>
      cases peek
      split
      next all => exact ⟨_, _, rfl, (List.take_append_drop n s).symm, fun d hd => plain d (all d hd)⟩
      next => exact ⟨[], s, rfl, rfl, fun _ h => nomatch h⟩

theorem plain_octalDigits : ∀ d ∈ octalDigits, Plain d := by simp [octalDigits, Plain]

theorem plain_hexDigits : ∀ d ∈ hexDigits, Plain d := by simp [hexDigits, Plain]

theorem getEscape_spec (c : Char) (s : List Char) :
    ∃ num r, getEscape (c :: s) = (c :: num, r) ∧ s = num ++ r ∧ ∀ d ∈ num, Plain d := by
  unfold getEscape nextChar
  dsimp only
  split
  next => exact escapeDigits_spec plain_octalDigits c s
  next =>
    split
    next => exact escapeDigits_spec plain_hexDigits c s
    next =>
      split
      next => exact escapeDigits_spec plain_hexDigits c s
      next => exact ⟨[], s, rfl, rfl, fun _ h => nomatch h⟩

theorem charLoop_spec (nul : tokEOF ∉ s) :
    s = (charLoop s).1 ++ (charLoop s).2 ∧ Leads .chars (charLoop s).1 (charLoop s).2 := by
  induction s with
  | nil => exact ⟨rfl, .inr ⟨rfl, _, rfl, rfl⟩⟩
  | cons c s ih =>
      obtain ⟨hc, rest⟩ := List.ne_and_not_mem_of_not_mem_cons nul
      rw [charLoop, if_neg hc.symm]
      by_cases quote : c = '\''
      · rw [if_pos quote]
        exact ⟨rfl, .inl (by rw [quote]; rfl)⟩
      · rw [if_neg quote]
        obtain ⟨split, leads⟩ := ih rest
        refine ⟨congrArg (c :: ·) split, ?_⟩
        have step : ∀ v, run Mode.next .chars (c :: v) = run Mode.next .chars v := by
          intro v
          rw [run, Mode.next, if_neg quote]
          rfl
        simpa only [Leads, step] using leads

theorem stringLoop_spec (quote : Bool) (nul : tokEOF ∉ s) :
    s = (stringLoop quote s).1 ++ (stringLoop quote s).2 ∧
      Leads (if quote then .stringEscape else .string) (stringLoop quote s).1 (stringLoop quote s).2 := by
  induction s generalizing quote with
  | nil => exact ⟨rfl, .inr ⟨rfl, _, rfl, by cases quote <;> rfl⟩⟩
  | cons c s ih =>
      obtain ⟨hc, rest⟩ := List.ne_and_not_mem_of_not_mem_cons nul
      rw [stringLoop, if_neg hc.symm]
      by_cases ends : quote = false ∧ c = '"'
      · rw [if_pos ends, ends.1, ends.2]
        exact ⟨rfl, .inl rfl⟩
      · rw [if_neg ends]
        obtain ⟨split, leads⟩ := ih (decide (quote = false ∧ c = '\\')) rest
        refine ⟨congrArg (c :: ·) split, ?_⟩
        have step : ∀ v, run Mode.next (if quote then .stringEscape else .string) (c :: v) =
            run Mode.next (if decide (quote = false ∧ c = '\\') then .stringEscape else .string) v := by
          intro v
          cases quote with
          | true => rfl
          | false =>
              have other : c ≠ '"' := fun h => ends ⟨rfl, h⟩
              rw [run]
              simp only [Bool.false_eq_true, if_false, Mode.next, if_neg other, true_and, decide_eq_true_eq]
              rfl
        simpa only [Leads, step] using leads

/-- The mode at a place in a comment. -/
def inside (prev : Option Char) : Mode := if prev = some '*' then .star else .comment

theorem commentLoop_spec (prev : Option Char) (nul : tokEOF ∉ s) :
    let (ends, v, r) := commentLoop prev s
    if ends then s = v ++ '/' :: r ∧ run Mode.next (inside prev) (v ++ ['/']) = some .code
    else ∃ m, run Mode.next (inside prev) s = some m ∧ m.inComment = true := by
  induction s generalizing prev with
  | nil =>
      refine ⟨inside prev, rfl, ?_⟩
      unfold inside
      split <;> rfl
  | cons c s ih =>
      obtain ⟨hc, rest⟩ := List.ne_and_not_mem_of_not_mem_cons nul
      rw [commentLoop, if_neg hc.symm]
      by_cases ends : c = '/' ∧ prev = some '*'
      · rw [if_pos ends, ends.1, ends.2]
        exact ⟨rfl, rfl⟩
      · rw [if_neg ends]
        have step : (inside prev).next c = some (inside (some c)) := by
          unfold inside
          by_cases star : prev = some '*'
          · have other : c ≠ '/' := fun h => ends ⟨h, star⟩
            simp only [if_pos star, Mode.next, if_neg other, Option.some.injEq]
          · simp only [if_neg star, Mode.next, Option.some.injEq]
        have ih := ih (some c) rest
        generalize commentLoop (some c) s = result at ih ⊢
        obtain ⟨b, v, r⟩ := result
        cases b with
        | true =>
            obtain ⟨split, code⟩ := ih
            exact ⟨congrArg (c :: ·) split, by rw [List.cons_append, run, step]; exact code⟩
        | false =>
            obtain ⟨m, open_, no⟩ := ih
            exact ⟨m, by rw [run, step]; exact open_, no⟩

/-- The text that is left of lines, each with its line feed. -/
def Closed (s : List Char) : Prop := s = [] ∨ ∃ l, s = l ++ [tokLN]

theorem Closed.right (h : Closed (v ++ r)) : Closed r := by
  rcases List.eq_nil_or_concat r with rfl | ⟨l, c, rfl⟩
  · exact .inl rfl
  · obtain none | ⟨l', last⟩ := h
    · exact absurd none (by simp)
    · rw [List.concat_eq_append, ← List.append_assoc] at last
      rw [List.concat_eq_append, (List.append_inj' last rfl).2]
      exact .inr ⟨l, rfl⟩

/-- Something is behind a character that is no line feed. -/
theorem Closed.next (h : Closed (c :: s)) (hc : c ≠ tokLN) : ∃ d s', s = d :: s' := by
  obtain none | ⟨l, last⟩ := h
  · cases none
  · cases l with
    | nil =>
        cases last
        exact absurd rfl hc
    | cons d l =>
        obtain ⟨-, rfl⟩ := List.cons.inj last
        exact List.exists_cons_of_ne_nil (List.append_ne_nil_of_right_ne_nil _ (List.cons_ne_nil _ _))

/-- What `nextRealToken` does to a text that is not empty: the text of the token is taken from it, a comment behind `//`
is dropped, or a comment runs to the end. -/
inductive Step (s : List Char) : Token → List Char → Prop
  | keeps {t : Token} {r : List Char} (id : t.id ≠ .eof) (str : t.str ≠ []) (split : s = t.str ++ r)
      (same : clean Mode.next s = clean Mode.next r) : Step s t r
  | lineComment {v r : List Char} (split : s = '/' :: v ++ r) (no : clean Mode.next s = false) : Step s (.ofId .ln) r
  | openComment {t : Token} {r : List Char} (id : t.id = .eof) (no : clean Mode.next s = false) : Step s t r

theorem Step.of_leads {t : Token} (id : t.id ≠ .eof) (str : t.str ≠ []) (split : s = t.str ++ r)
    (leads : Leads .code t.str r) : Step s t r :=
  .keeps id str split (by rw [split]; exact leads.clean_eq)

theorem plain_cppLongSymbols : ∀ sk ∈ cppLongSymbols, sk ≠ [] ∧ ∀ c ∈ sk, Plain c := by
  simp [cppLongSymbols, Plain]

theorem symbol_step (plain : Plain c) (s : List Char) : Step (c :: s) (symbol c s).1 (symbol c s).2 := by
  unfold symbol
  split
  next sk found =>
    obtain ⟨ne_nil, all⟩ := plain_cppLongSymbols sk (List.mem_of_find?_eq_some found)
    have front := List.find?_some found
    obtain ⟨rest, split⟩ := List.isPrefixOf_iff_prefix.1 front
    obtain ⟨d, sk, rfl⟩ := List.exists_cons_of_ne_nil ne_nil
    obtain ⟨rfl, rfl⟩ := List.cons.inj split
    refine .of_leads nofun ne_nil ?_ (.inl (run_plain all))
    show d :: (sk ++ rest) = (d :: sk) ++ (sk ++ rest).drop sk.length
    rw [List.drop_left, List.cons_append]
  next =>
    have all : ∀ d ∈ [c], Plain d := by
      intro d hd
      rw [List.mem_singleton.1 hd]
      exact plain
    exact .of_leads nofun (List.cons_ne_nil _ _) rfl (.inl (run_plain all))

theorem skipLine_split (s : List Char) : ∃ v, s = v ++ skipLine s := by
  induction s with
  | nil => exact ⟨[], rfl⟩
  | cons c s ih =>
      obtain ⟨v, split⟩ := ih
      rw [skipLine]
      split
      next => exact ⟨[c], rfl⟩
      next => exact ⟨c :: v, congrArg (c :: ·) split⟩

theorem symbol_slash (s : List Char) : symbol '/' s = (.ofId (.text ['/']), s) := rfl

theorem slash_step (nul : tokEOF ∉ s) (closed : Closed ('/' :: s)) : Step ('/' :: s) (slash s).1 (slash s).2 := by
  obtain ⟨d, s, rfl⟩ := closed.next (by decide)
  have nul' := (List.ne_and_not_mem_of_not_mem_cons nul).2
  unfold slash
  split
  next s' heq =>
    obtain ⟨rfl, rfl⟩ := List.cons.inj heq
    obtain ⟨v, split⟩ := skipLine_split s
    exact .lineComment (v := '/' :: v) (congrArg ('/' :: '/' :: ·) split) rfl
  next s' heq =>
    obtain ⟨rfl, rfl⟩ := List.cons.inj heq
    have comment := commentLoop_spec none nul'
    generalize commentLoop none s = result at comment ⊢
    obtain ⟨ends, v, r⟩ := result
    cases ends with
    | true =>
        obtain ⟨split, code⟩ := comment
        refine .of_leads nofun nofun ?_ (.inl code)
        rw [split]
        show _ = '/' :: '*' :: ((v ++ ['/']) ++ r)
        rw [List.append_assoc]
        rfl
    | false =>
        obtain ⟨m, open_, no⟩ := comment
        refine .openComment rfl ?_
        have behind : run Mode.next .code ('/' :: '*' :: s) = some m := open_
        rw [clean, behind]
        show (!m.inComment) = false
        rw [no]
        rfl
  next not_slash not_star =>
    have slash_ne : d ≠ '/' := fun h => not_slash s (by rw [h])
    have star_ne : d ≠ '*' := fun h => not_star s (by rw [h])
    have next : Mode.slash.next d = Mode.code.next d := by
      show (if d = '/' then none else if d = '*' then some .comment else some (Mode.nextCode d)) = _
      rw [if_neg slash_ne, if_neg star_ne]
      rfl
    have same : run Mode.next .code ('/' :: d :: s) = run Mode.next .code (d :: s) := by
      show (Mode.slash.next d).bind (fun m => run Mode.next m s) = (Mode.code.next d).bind fun m => run Mode.next m s
      rw [next]
    rw [symbol_slash]
    exact .keeps nofun nofun rfl (by rw [clean, clean, same])

theorem backslash_step (closed : Closed ('\\' :: s)) : Step ('\\' :: s) (backslash s).1 (backslash s).2 := by
  obtain ⟨d, s, rfl⟩ := closed.next (by decide)
  unfold backslash
  split
  next feed =>
    obtain rfl : d = tokLN := feed
    exact .of_leads nofun nofun rfl (.inl rfl)
  next =>
    obtain ⟨num, r, escape, rfl, plain⟩ := getEscape_spec d s
    rw [escape]
    exact .of_leads nofun nofun rfl (.inl (show run Mode.next .code num = some .code from run_plain plain))

theorem charLiteral_step (nul : tokEOF ∉ s) (closed : Closed ('\'' :: s)) :
    Step ('\'' :: s) (charLiteral s).1 (charLiteral s).2 := by
  obtain ⟨c₂, s, rfl⟩ := closed.next (by decide)
  have nul' := (List.ne_and_not_mem_of_not_mem_cons nul).2
  unfold charLiteral nextChar
  dsimp only
  by_cases escaped : c₂ = '\\'
  · subst escaped
    obtain ⟨d, s, rfl⟩ := (Closed.right (v := ['\'']) closed).next (by decide)
    have nul'' := (List.ne_and_not_mem_of_not_mem_cons nul').2
    rw [if_pos rfl]
    obtain ⟨num, r, escape, rfl, plain⟩ := getEscape_spec d s
    rw [escape]
    dsimp only
    obtain ⟨split, leads⟩ := charLoop_spec (fun h => nul'' (List.mem_append_right _ h))
    refine .of_leads nofun nofun ?_ ?_
    · show _ = '\'' :: '\\' :: (((d :: num) ++ (charLoop r).1) ++ (charLoop r).2)
      rw [List.append_assoc, ← split]
      rfl
    · have step : ∀ v, run Mode.next .code ('\'' :: '\\' :: ((d :: num) ++ v)) = run Mode.next .chars v := by
        intro v
        show run Mode.next .chars (num ++ v) = _
        rw [run_append, run_digits plain]
        rfl
      simpa only [Leads, Token.str, step] using leads
  · rw [if_neg escaped]
    obtain ⟨split, leads⟩ := charLoop_spec nul'
    refine .of_leads nofun nofun ?_ ?_
    · show _ = '\'' :: c₂ :: ((charLoop s).1 ++ (charLoop s).2)
      rw [← split]
    · have step : ∀ v, run Mode.next .code ('\'' :: c₂ :: ([] ++ v)) = run Mode.next .chars v := by
        intro v
        show run Mode.next .char (c₂ :: v) = _
        rw [run, Mode.next, if_neg escaped]
        rfl
      simpa only [Leads, Token.str, step] using leads

/-- A token that is made of characters of one kind. -/
theorem takeWhile_step {p : Char → Bool} {t : Token} (id : t.id ≠ .eof) (str : t.str = c :: s.takeWhile p)
    (first : Plain c) (plain : ∀ d, p d → Plain d) : Step (c :: s) t (s.dropWhile p) := by
  have all : ∀ d ∈ c :: s.takeWhile p, Plain d := by
    refine List.forall_mem_cons.2 ⟨first, fun d hd => plain d (List.mem_takeWhile_imp hd)⟩
  refine .of_leads id (by rw [str]; exact List.cons_ne_nil _ _) ?_ (.inl (by rw [str]; exact run_plain all))
  rw [str, List.cons_append, List.takeWhile_append_dropWhile]

theorem identifier_step (word : isWord c) (s : List Char) : Step (c :: s) (identifier c s).1 (identifier c s).2 := by
  unfold identifier
  dsimp only
  split
  next defined => exact takeWhile_step nofun defined.symm (plain_of_isWord word) fun _ => plain_of_isWord
  next => exact takeWhile_step nofun rfl (plain_of_isWord word) fun _ => plain_of_isWord

theorem nextRealToken_step (nul : tokEOF ∉ c :: s) (closed : Closed (c :: s)) :
    Step (c :: s) (nextRealToken (c :: s)).1 (nextRealToken (c :: s)).2 := by
  obtain ⟨hc, rest⟩ := List.ne_and_not_mem_of_not_mem_cons nul
  rw [nextRealToken, if_neg hc.symm]
  split
  next feed =>
    rw [feed]
    exact .of_leads nofun nofun rfl (.inl rfl)
  split
  next _ is_slash =>
    subst is_slash
    exact slash_step rest closed
  split
  next _ not_slash space =>
    have other : c ≠ '\\' := (plain_of_isSpace space).2.1
    refine takeWhile_step nofun ?_ (plain_of_isSpace space) fun d hd => plain_of_isSpace ?_
    · exact if_neg fun h => other (List.cons.inj h).1
    · exact (Bool.and_eq_true_iff.1 hd).2
  split
  next is_backslash =>
    subst is_backslash
    exact backslash_step closed
  split
  next is_quote =>
    subst is_quote
    exact charLiteral_step rest closed
  split
  next is_quote =>
    subst is_quote
    obtain ⟨split, leads⟩ := stringLoop_spec false rest
    exact .of_leads nofun nofun (congrArg ('"' :: ·) split) leads
  split
  next digit => exact takeWhile_step nofun rfl (plain_of_isDigit digit) fun _ => plain_of_isWord
  split
  next word => exact identifier_step word s
  next not_slash _ not_backslash not_char not_string _ _ =>
    exact symbol_step ⟨not_slash, not_backslash, not_char, not_string⟩ s

/-! ### All tokens -/

/-- The loop ends, and its tokens have the text that was read if and only if there is no comment in the way. -/
theorem tokenLoop_spec {fuel : ℕ} (enough : s.length < fuel) (nul : tokEOF ∉ s) (closed : Closed s) :
    ∃ tokens, tokenLoop fuel s = some tokens ∧ (tokens.flatMap Token.str = s ↔ clean Mode.next s = true) := by
  induction fuel generalizing s with
  | zero => exact absurd enough (Nat.not_lt_zero _)
  | succ fuel ih =>
      cases s with
      | nil => exact ⟨[], rfl, iff_of_true rfl rfl⟩
      | cons c s =>
          have step := nextRealToken_step nul closed
          rw [tokenLoop]
          generalize nextRealToken (c :: s) = result at step ⊢
          obtain ⟨t, r⟩ := result
          dsimp only at step ⊢
          rw [List.length_cons] at enough
          cases step with
          | keeps id str split same =>
              have shorter : r.length < (c :: s).length := by
                rw [split, List.length_append]
                have := List.length_pos_iff.2 str
                omega
              rw [List.length_cons] at shorter
              have nul' : tokEOF ∉ r := fun h => nul (by rw [split]; exact List.mem_append_right _ h)
              obtain ⟨tokens, loop, text⟩ := ih (by omega) nul' (Closed.right (split ▸ closed))
              refine ⟨t :: tokens, by rw [if_neg id, loop]; rfl, ?_⟩
              rw [same, ← text, List.flatMap_cons, split, List.append_cancel_left_eq]
          | lineComment split no =>
              next v =>
              have shorter : r.length ≤ s.length := by
                rw [(List.cons.inj split).2, List.append_eq, List.length_append]
                omega
              have nul' : tokEOF ∉ r := fun h => nul (by rw [split]; exact List.mem_append_right _ h)
              obtain ⟨tokens, loop, -⟩ := ih (by omega) nul' (Closed.right (split ▸ closed))
              refine ⟨.ofId .ln :: tokens, by rw [if_neg nofun, loop]; rfl, iff_of_false ?_ (by rw [no]; nofun)⟩
              rw [split, List.flatMap_cons]
              exact fun h => absurd (List.cons.inj h).1 (by decide)
          | openComment id no =>
              exact ⟨[], if_pos id, iff_of_false (List.cons_ne_nil _ _).symm (by rw [no]; nofun)⟩

end

theorem closed_lineText (lines : List (List Char)) : Closed (lineText lines) := by
  rcases List.eq_nil_or_concat lines with rfl | ⟨lines, line, rfl⟩
  · exact .inl rfl
  · refine .inr ⟨lineText lines ++ line, ?_⟩
    simp [lineText]

theorem nul_lineText {lines : List (List Char)} (nul : ∀ line ∈ lines, tokEOF ∉ line) : tokEOF ∉ lineText lines := by
  intro mem
  obtain ⟨line, hline, mem⟩ := List.mem_flatMap.1 mem
  obtain text | feed := List.mem_append.1 mem
  · exact nul line hline text
  · exact absurd (List.mem_singleton.1 feed) (by decide)

/-- The tokens of lines without a NUL keep the text of the lines if and only if the tokenizer sees no comment with `//`
and no comment that does not end. -/
theorem lossless_iff {lines : List (List Char)} (nul : ∀ line ∈ lines, tokEOF ∉ line) :
    Lossless lines ↔ clean Mode.next (lineText lines) = true := by
  obtain ⟨tokens, loop, text⟩ := tokenLoop_spec (Nat.lt_succ_self _) (nul_lineText nul) (closed_lineText lines)
  rw [← text]
  refine ⟨?_, fun h => ⟨tokens, loop, h⟩⟩
  rintro ⟨tokens', loop', h⟩
  cases loop.symm.trans loop'
  exact h

/-- A quote that is hidden in a string, in front of two slashes. -/
theorem lossless_iff_string :
    let lines := ["\"\\\"//\"".toList]
    (∀ line ∈ lines, tokEOF ∉ line) ∧ Lossless lines := by
  intro lines
  have nul : ∀ line ∈ lines, tokEOF ∉ line := by decide
  exact ⟨nul, (lossless_iff nul).2 (by decide)⟩

/-- The same in a character literal.  By the rules of C there is no comment. -/
theorem not_lossless_quote :
    let lines := ["'a\\'//'".toList]
    (∀ line ∈ lines, tokEOF ∉ line) ∧ clean Mode.nextC (lineText lines) = true ∧
      toTokenList lines = some [⟨.string, "'a\\'".toList⟩, .ofId .ln] ∧ ¬ Lossless lines := by
  intro lines
  have tokens : toTokenList lines = some [⟨.string, "'a\\'".toList⟩, .ofId .ln] := by decide
  refine ⟨by decide, by decide, tokens, ?_⟩
  rintro ⟨tokens', loop, text⟩
  cases tokens.symm.trans loop
  exact absurd text (by decide)

end Bionic.CppTokenizer
