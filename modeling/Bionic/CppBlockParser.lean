import Bionic.CppTokenizer
import Bionic.StateExcept

/-! # The blocks of a header (`libc/kernel/tools/cpp.py`)

`BlockParser.getBlocks` splits the tokens of a header into text blocks and directive blocks.  A line whose first token,
but for spaces, is `#` is a directive, and all other lines are text.

Lines with a directive but no name behind the `#` are ignored, and so is every other `#`: `getBlocks_eq` gives the
blocks line by line.  All text is kept, and each directive gets its block, if and only if no line of text has a `#` in
it and no directive has another token in place of its name (`keeps_iff`). -/

namespace Bionic.CppBlockParser

open CppTokenizer (TokId)
open StateExcept (bind_eq_ok)

/-- A token, with its place. -/
structure Token extends CppTokenizer.Token where
  lineno : ℕ
  colno : ℕ
deriving DecidableEq, Repr

/-- `tok.set(id)` on a new token. -/
def Token.new (id : TokId) : Token := ⟨.ofId id, 0, 0⟩

def hash : TokId := .text ['#']

/-- A block.  Text blocks have no directive. -/
structure Block (ε : Type) where
  tokens : List Token
  directive : Option (List Char)
  lineno : ℕ
  expr : Option ε
deriving DecidableEq, Repr

/-- What `Block.__init__` raises. -/
inductive Raise
  | indexError
  | invalidExpression
deriving DecidableEq, Repr

variable {ε : Type}

/-! ### `Block.__init__` -/

/-- The tokens and the directive of a block, for `#ifdef` and `#ifndef` those of an `#if`. -/
def asIf (tokens : List Token) (directive : Option (List Char)) : List Token × Option (List Char) :=
  if directive = some "ifdef".toList then (.new .defined :: tokens, some "if".toList)
  else if directive = some "ifndef".toList then
    (.new (.text ['!']) :: .new .defined :: tokens, some "if".toList)
  else (tokens, directive)

/-- `isIf` -/
def isIf (directive : Option (List Char)) : Bool :=
  directive ∈ ["if".toList, "ifdef".toList, "ifndef".toList, "elif".toList].map some

/-- The line of a block. -/
def blockLine (tokens : List Token) (lineno : ℕ) : Except Raise ℕ :=
  if lineno > 0 then .ok lineno
  else
    match tokens with
    | [] => .error .indexError
    | t :: _ => .ok t.lineno

/-- `Block`, where `cppExpr` reads a condition, and may fail. -/
def Block.init (cppExpr : List Token → Option ε) (tokens : List Token) (directive : Option (List Char)) (lineno : ℕ) :
    Except Raise (Block ε) := do
  let (tokens, directive) := asIf tokens directive
  let lineno ← blockLine tokens lineno
  if isIf directive then
    match cppExpr tokens with
    | none => throw .invalidExpression
    | some e => return ⟨tokens, directive, lineno, some e⟩
  else return ⟨tokens, directive, lineno, none⟩

/-! ### `getBlocks` -/

/-- Where the parser is: in a line, at its start, or behind spaces at its start. -/
inductive State
  | source
  | afterLN
  | afterSpace
deriving DecidableEq, Repr

def isSpace (t : Token) : Bool := t.id = .space

/-- `tokLN` or `tokEOF` -/
def endsLine (t : Token) : Bool := t.id = .ln || t.id = .eof

/-- What is left behind the line. -/
def afterLine (toks : List Token) : List Token := (toks.dropWhile fun t => !endsLine t).drop 1

/-- The tokens in front of the end of the line. -/
def untilLine (toks : List Token) : List Token := toks.takeWhile fun t => !endsLine t

theorem afterLine_length_le (toks : List Token) : (afterLine toks).length ≤ toks.length := by
  rw [afterLine, List.length_drop]
  have := (List.dropWhile_sublist (l := toks) fun t => !endsLine t).length_le
  omega

theorem dropWhile_length_le (p : Token → Bool) (toks : List Token) : (toks.dropWhile p).length ≤ toks.length :=
  (List.dropWhile_sublist p).length_le

section Code

variable (cppExpr : List Token → Option ε)

/-- A text block is added. -/
def addText (text : List Token) (blocks : List (Block ε)) : Except Raise (List (Block ε)) := do
  if text.length > 0 then
    let block ← Block.init cppExpr text none 0
    return blocks ++ [block]
  else return blocks

/-- The loop of `getBlocks`. -/
def loop (toks : List Token) (state : State) (lastLN : ℕ) (current : List Token) (blocks : List (Block ε)) :
    Except Raise (List (Block ε)) :=
  match toks with
  | [] => addText cppExpr current blocks
  | tok :: toks =>
      if tok.id = .eof then addText cppExpr current blocks
      else if tok.id = .ln then loop toks .afterLN (current ++ [tok]).length (current ++ [tok]) blocks
      else if tok.id = .space then
        loop toks (if state = .afterLN then .afterSpace else state) lastLN (current ++ [tok]) blocks
      else if tok.id = hash then
        if state ≠ .source then do
          let blocks ← addText cppExpr (current.take lastLN) blocks
          match _h : toks.dropWhile isSpace with
          | [] => loop [] state 0 [] blocks
          | name :: toks' =>
              if name.id ≠ .ident then
                if endsLine name then loop toks' state 0 [] blocks else loop (afterLine toks') state 0 [] blocks
              else
                let args := toks'.dropWhile isSpace
                let block ← Block.init cppExpr (untilLine args) (some name.value) name.lineno
                loop (afterLine args) .afterLN 0 [] (blocks ++ [block])
        else loop toks state lastLN current blocks
      else loop toks .source lastLN (current ++ [tok]) blocks
termination_by toks.length
decreasing_by
  · exact Nat.lt_succ_self _
  · exact Nat.lt_succ_self _
  · exact Nat.succ_pos _
  all_goals try exact Nat.lt_succ_self _
  all_goals
    have rest := dropWhile_length_le isSpace toks
    rw [_h, List.length_cons] at rest
    have skipped := afterLine_length_le toks'
    have behind := afterLine_length_le (toks'.dropWhile isSpace)
    have spaces := dropWhile_length_le isSpace toks'
    simp only [List.length_cons]
    omega

def getBlocks (toks : List Token) : Except Raise (List (Block ε)) := loop cppExpr toks .afterLN 0 [] []

end Code

/-! ### Lines -/

/-- The lines of a header, each with its `tokLN`, which the last one may lack. -/
def lines : List Token → List (List Token)
  | [] => []
  | t :: toks =>
      if t.id = .ln then [t] :: lines toks
      else
        match lines toks with
        | [] => [[t]]
        | line :: rest => (t :: line) :: rest

/-- What a line is. -/
inductive Kind
  | text
  /-- A directive with nothing or with a number behind the `#`. -/
  | ignored
  | directive (name : Token) (tokens : List Token)
  /-- A directive with something else. -/
  | unnamed
deriving DecidableEq, Repr

/-- The kind of a directive, from what is behind its `#`. -/
def directiveKind (toks : List Token) : Kind :=
  match toks.dropWhile isSpace with
  | [] => .ignored
  | name :: args =>
      if name.id = .ident then .directive name (untilLine (args.dropWhile isSpace))
      else if name.id = .ln ∨ name.id = .number then .ignored
      else .unnamed

def kind (line : List Token) : Kind :=
  match line.dropWhile isSpace with
  | [] => .text
  | t :: rest => if t.id = hash then directiveKind rest else .text

/-- What blocks show: tokens of text, and directives. -/
inductive Item (ε : Type)
  | text (t : Token)
  | directive (b : Block ε)
deriving DecidableEq, Repr

def Block.items (b : Block ε) : List (Item ε) :=
  match b.directive with
  | none => b.tokens.map .text
  | some _ => [.directive b]

/-- What the blocks should show of a line. -/
def Shows (cppExpr : List Token → Option ε) (line : List Token) (items : List (Item ε)) : Prop :=
  match kind line with
  | .text => items = line.map .text
  | .ignored => items = []
  | .directive name tokens =>
      ∃ b, Block.init cppExpr tokens (some name.value) name.lineno = .ok b ∧ items = [.directive b]
  | .unnamed => ∃ b : Block ε, b.directive ≠ none ∧ items = [.directive b]

/-- There are blocks, and they show all lines, in order. -/
def Keeps (cppExpr : List Token → Option ε) (toks : List Token) : Prop :=
  ∃ blocks, getBlocks cppExpr toks = .ok blocks ∧
    ∃ items, List.Forall₂ (Shows cppExpr) (lines toks) items ∧ blocks.flatMap Block.items = items.flatten

/-- A line of text without a `#`, or a directive that has no name to be lost, and a condition that can be read. -/
def Fine (cppExpr : List Token → Option ε) (line : List Token) : Prop :=
  match kind line with
  | .text => ∀ t ∈ line, t.id ≠ hash
  | .ignored => True
  | .directive name tokens => ∃ b, Block.init cppExpr tokens (some name.value) name.lineno = .ok b
  | .unnamed => False

/-! ### The blocks of a line -/

section

variable {cppExpr : List Token → Option ε} {toks line rest current : List Token} {blocks : List (Block ε)} {t : Token}
  {state : State}

/-- The tokens of a line of text that get into a block. -/
def kept (line : List Token) : List Token := line.filter fun t => t.id ≠ hash

/-- `getBlocks` from the start of a line on, where `current` are the lines of text in front of it. -/
def byLine (cppExpr : List Token → Option ε) : List (List Token) → List Token → List (Block ε) →
    Except Raise (List (Block ε))
  | [], current, blocks => addText cppExpr current blocks
  | line :: rest, current, blocks =>
      match kind line with
      | .text => byLine cppExpr rest (current ++ kept line) blocks
      | .directive name tokens => do
          let blocks ← addText cppExpr current blocks
          let block ← Block.init cppExpr tokens (some name.value) name.lineno
          byLine cppExpr rest [] (blocks ++ [block])
      | _ => do
          let blocks ← addText cppExpr current blocks
          byLine cppExpr rest [] blocks

/-! #### Tokens of a line -/

/-- The tokens of a line, but for its end. -/
def Body (body : List Token) : Prop := ∀ t ∈ body, t.id ≠ .ln ∧ t.id ≠ .eof

/-- The end of a line, and what follows. -/
def Ends (ends rest : List Token) : Prop := (∃ t, t.id = .ln ∧ ends = [t]) ∨ ends = [] ∧ rest = []

variable {body ends : List Token}

theorem Body.not_endsLine (h : Body body) : ∀ t ∈ body, (!endsLine t) = true := by
  intro t ht
  simp [endsLine, h t ht]

theorem Body.append_left {a b : List Token} (h : Body (a ++ b)) : Body a := fun t ht => h t (List.mem_append_left _ ht)

theorem Body.append_right {a b : List Token} (h : Body (a ++ b)) : Body b :=
  fun t ht => h t (List.mem_append_right _ ht)

theorem Body.tail (h : Body (t :: body)) : Body body := fun t ht => h t (List.mem_cons_of_mem _ ht)

theorem Body.dropWhile (h : Body body) : Body (body.dropWhile isSpace) :=
  fun t ht => h t (List.dropWhile_sublist _ |>.mem ht)

theorem Ends.not_isSpace (h : Ends ends rest) : (ends ++ rest).dropWhile isSpace = ends ++ rest := by
  obtain ⟨t, ln, rfl⟩ | ⟨rfl, rfl⟩ := h
  · have no : isSpace t = false := by simp [isSpace, ln]
    exact List.dropWhile_cons_of_neg (by simp [no])
  · rfl

theorem Ends.dropWhile (h : Ends ends rest) (body : List Token) :
    (body ++ (ends ++ rest)).dropWhile isSpace = body.dropWhile isSpace ++ (ends ++ rest) := by
  rw [List.dropWhile_append]
  split
  next all =>
    rw [h.not_isSpace, List.isEmpty_iff.1 all]
    rfl
  next => rfl

theorem Ends.untilLine (h : Ends ends rest) (hbody : Body body) :
    CppBlockParser.untilLine (body ++ (ends ++ rest)) = body := by
  rw [CppBlockParser.untilLine, List.takeWhile_append_of_pos hbody.not_endsLine]
  obtain ⟨t, ln, rfl⟩ | ⟨rfl, rfl⟩ := h
  · have ends : endsLine t = true := by simp [endsLine, ln]
    rw [List.singleton_append, List.takeWhile_cons_of_neg (by simp [ends]), List.append_nil]
  · exact List.append_nil _

theorem Ends.afterLine (h : Ends ends rest) (hbody : Body body) :
    CppBlockParser.afterLine (body ++ (ends ++ rest)) = rest := by
  rw [CppBlockParser.afterLine, List.dropWhile_append_of_pos hbody.not_endsLine]
  obtain ⟨t, ln, rfl⟩ | ⟨rfl, rfl⟩ := h
  · have ends : endsLine t = true := by simp [endsLine, ln]
    rw [List.singleton_append, List.dropWhile_cons_of_neg (by simp [ends])]
    rfl
  · rfl

theorem Ends.alone (h : Ends ends rest) : Ends ends [] := by
  obtain ln | ⟨rfl, -⟩ := h
  · exact .inl ln
  · exact .inr ⟨rfl, rfl⟩

theorem Ends.dropWhile_alone (h : Ends ends rest) (body : List Token) :
    (body ++ ends).dropWhile isSpace = body.dropWhile isSpace ++ ends := by
  have line := h.alone.dropWhile body
  rwa [List.append_nil] at line

theorem Ends.untilLine_alone (h : Ends ends rest) (hbody : Body body) :
    CppBlockParser.untilLine (body ++ ends) = body := by
  have line := h.alone.untilLine hbody
  rwa [List.append_nil] at line

theorem Ends.lines (h : Ends ends rest) (hbody : Body body) (ne : body ++ ends ≠ []) :
    CppBlockParser.lines (body ++ (ends ++ rest)) = (body ++ ends) :: CppBlockParser.lines rest := by
  induction body with
  | nil =>
      obtain ⟨t, ln, rfl⟩ | ⟨rfl, rfl⟩ := h
      · exact if_pos ln
      · exact absurd rfl ne
  | cons t body ih =>
      rw [List.cons_append, CppBlockParser.lines, if_neg (hbody t List.mem_cons_self).1]
      by_cases last : body ++ ends = []
      · obtain ⟨rfl, rfl⟩ := List.append_eq_nil_iff.1 last
        obtain ⟨t', -, no⟩ | ⟨-, rfl⟩ := h
        · cases no
        · rfl
      · rw [ih hbody.tail last]
        rfl

/-- Each text but the empty one starts with a line. -/
theorem exists_line (noEof : ∀ t ∈ toks, t.id ≠ .eof) (ne : toks ≠ []) :
    ∃ body ends rest, toks = body ++ (ends ++ rest) ∧ Body body ∧ Ends ends rest ∧ body ++ ends ≠ [] := by
  have split := (List.takeWhile_append_dropWhile (p := fun t : Token => t.id ≠ .ln) (l := toks)).symm
  have hbody : Body (toks.takeWhile fun t => t.id ≠ .ln) := by
    intro t ht
    refine ⟨?_, noEof t (List.takeWhile_sublist _ |>.mem ht)⟩
    simpa using List.mem_takeWhile_imp ht
  cases tail : toks.dropWhile fun t => t.id ≠ .ln with
  | nil =>
      rw [tail, List.append_nil] at split
      exact ⟨toks, [], [], (by simp), split ▸ hbody, .inr ⟨rfl, rfl⟩, by simpa using ne⟩
  | cons t rest =>
      rw [tail] at split
      have ln : t.id = .ln := by
        have first := List.head_dropWhile_not (l := toks) (fun t : Token => decide (t.id ≠ .ln)) (by rw [tail]; simp)
        simpa only [tail, List.head_cons, decide_eq_false_iff_not, not_not] using first
      exact ⟨_, [t], rest, split, hbody, .inl ⟨t, ln, rfl⟩, by simp⟩

/-! #### The loop in a line -/

theorem loop_ln (ln : t.id = .ln) (lastLN : ℕ) :
    loop cppExpr (t :: rest) state lastLN current blocks =
      loop cppExpr rest .afterLN (current ++ [t]).length (current ++ [t]) blocks := by
  rw [loop, if_neg (by rw [ln]; nofun), if_pos ln]

theorem loop_space (space : isSpace t = true) (lastLN : ℕ) :
    loop cppExpr (t :: rest) state lastLN current blocks =
      loop cppExpr rest (if state = .afterLN then .afterSpace else state) lastLN (current ++ [t]) blocks := by
  have id : t.id = .space := of_decide_eq_true space
  rw [loop, if_neg (by rw [id]; nofun), if_neg (by rw [id]; nofun), if_pos id]

theorem loop_other (ln : t.id ≠ .ln) (eof : t.id ≠ .eof) (space : ¬ isSpace t = true) (other : t.id ≠ hash)
    (lastLN : ℕ) :
    loop cppExpr (t :: rest) state lastLN current blocks =
      loop cppExpr rest .source lastLN (current ++ [t]) blocks := by
  have id : t.id ≠ .space := fun h => space (decide_eq_true h)
  rw [loop, if_neg eof, if_neg ln, if_neg id, if_neg other]

theorem loop_hash (id : t.id = hash) (lastLN : ℕ) :
    loop cppExpr (t :: rest) .source lastLN current blocks = loop cppExpr rest .source lastLN current blocks := by
  rw [loop, if_neg (by rw [id]; nofun), if_neg (by rw [id]; nofun), if_neg (by rw [id]; nofun), if_pos id,
    if_neg (fun h => h rfl)]

/-- Spaces at the start of a line. -/
theorem loop_spaces (rest current : List Token) (blocks : List (Block ε)) {spaces : List Token}
    (all : ∀ t ∈ spaces, isSpace t = true) (start : state ≠ .source) (lastLN : ℕ) :
    ∃ state', state' ≠ .source ∧ loop cppExpr (spaces ++ rest) state lastLN current blocks =
      loop cppExpr rest state' lastLN (current ++ spaces) blocks := by
  induction spaces generalizing state current with
  | nil => exact ⟨state, start, by rw [List.append_nil]; rfl⟩
  | cons t spaces ih =>
      obtain ⟨space, all⟩ := List.forall_mem_cons.1 all
      have start' : (if state = .afterLN then State.afterSpace else state) ≠ .source := by
        split
        next => nofun
        next => exact start
      obtain ⟨state', hstate', eq⟩ := ih (current ++ [t]) all start'
      refine ⟨state', hstate', ?_⟩
      rw [List.cons_append, loop_space space, eq, List.append_assoc]
      rfl

/-- Behind the first token of a line of text. -/
theorem loop_source (hbody : Body body) (lastLN : ℕ) :
    loop cppExpr (body ++ rest) .source lastLN current blocks =
      loop cppExpr rest .source lastLN (current ++ kept body) blocks := by
  induction body generalizing current with
  | nil => rw [kept, List.filter_nil, List.append_nil]; rfl
  | cons t body ih =>
      have hrest : Body body := hbody.tail
      obtain ⟨ln, eof⟩ := hbody t List.mem_cons_self
      rw [List.cons_append]
      by_cases id : t.id = hash
      · rw [loop_hash id, ih hrest, kept, kept, List.filter_cons_of_neg (by simp [id])]
      · have keep : current ++ kept (t :: body) = current ++ [t] ++ kept body := by
          rw [kept, List.filter_cons_of_pos (by simp [id]), List.append_assoc]
          rfl
        rw [keep, ← ih hrest]
        by_cases space : isSpace t = true
        · rw [loop_space space, if_neg (by nofun)]
        · rw [loop_other ln eof space id]

/-- The end of a line of text. -/
theorem loop_ends (h : Ends ends rest) (lastLN : ℕ)
    (ih : ∀ current : List Token, loop cppExpr rest .afterLN current.length current blocks =
      byLine cppExpr (lines rest) current blocks) :
    loop cppExpr (ends ++ rest) state lastLN current blocks = byLine cppExpr (lines rest) (current ++ ends) blocks := by
  obtain ⟨t, ln, rfl⟩ | ⟨rfl, rfl⟩ := h
  · rw [List.singleton_append, loop_ln ln, ih]
  · rw [List.append_nil, List.append_nil, loop]
    rfl

/-- `getBlocks` behind the `#` of a directive and the spaces there. -/
def afterHash (cppExpr : List Token → Option ε) (state : State) (blocks : List (Block ε)) :
    List Token → Except Raise (List (Block ε))
  | [] => loop cppExpr [] state 0 [] blocks
  | name :: toks =>
      if name.id ≠ .ident then
        if endsLine name then loop cppExpr toks state 0 [] blocks else loop cppExpr (afterLine toks) state 0 [] blocks
      else do
        let args := toks.dropWhile isSpace
        let block ← Block.init cppExpr (untilLine args) (some name.value) name.lineno
        loop cppExpr (afterLine args) .afterLN 0 [] (blocks ++ [block])

theorem loop_directive (id : t.id = hash) (start : state ≠ .source) (spaces : List Token) :
    loop cppExpr (t :: toks) state current.length (current ++ spaces) blocks =
      (do let blocks ← addText cppExpr current blocks
          afterHash cppExpr state blocks (toks.dropWhile isSpace)) := by
  rw [loop, if_neg (by rw [id]; nofun), if_neg (by rw [id]; nofun), if_neg (by rw [id]; nofun), if_pos id,
    if_pos start, List.take_left]
  refine bind_congr fun blocks => ?_
  split
  next empty =>
    rw [empty]
    rfl
  next name toks' found =>
    rw [found]
    rfl

theorem kind_hash {more : List Token} (h : Ends ends rest) (first : body.dropWhile isSpace = t :: more)
    (id : t.id = hash) : kind (body ++ ends) = directiveKind (more ++ ends) := by
  rw [kind, h.dropWhile_alone, first]
  exact if_pos id

/-- The end of a line does not tell its kind. -/
theorem directiveKind_eq (h : Ends ends rest) (hbody : Body body) :
    directiveKind (body ++ ends) =
      match body.dropWhile isSpace with
      | [] => .ignored
      | name :: args =>
          if name.id = .ident then .directive name (args.dropWhile isSpace)
          else if name.id = .number then .ignored
          else .unnamed := by
  rw [directiveKind, h.dropWhile_alone]
  cases found : body.dropWhile isSpace with
  | nil =>
      obtain ⟨t', ln, rfl⟩ | ⟨rfl, -⟩ := h
      · show (if t'.id = .ident then _ else _) = Kind.ignored
        rw [if_neg (by rw [ln]; nofun), if_pos (.inl ln)]
      · rfl
  | cons name args =>
      have hname : Body (name :: args) := found ▸ hbody.dropWhile
      have tokens : untilLine ((args ++ ends).dropWhile isSpace) = args.dropWhile isSpace := by
        rw [h.dropWhile_alone, h.untilLine_alone hname.tail.dropWhile]
      show (if name.id = .ident then Kind.directive name (untilLine ((args ++ ends).dropWhile isSpace)) else _) = _
      rw [tokens]
      simp only [(hname name List.mem_cons_self).1, false_or]

/-- The kind of a line that does not. -/
theorem kind_text (h : Ends ends rest) (first : ∀ t ∈ (body.dropWhile isSpace).head?, t.id ≠ hash) :
    kind (body ++ ends) = .text := by
  rw [kind, h.dropWhile_alone]
  cases found : body.dropWhile isSpace with
  | nil =>
      obtain ⟨t', ln, rfl⟩ | ⟨rfl, -⟩ := h
      · exact if_neg (by rw [ln]; nofun)
      · rfl
  | cons t more =>
      rw [found] at first
      exact if_neg (first t rfl)

/-- What the loop does with a directive line, behind the `#`. -/
theorem afterHash_eq (h : Ends ends rest) (hbody : Body body) (start : state ≠ .source)
    (next : ∀ state : State, state ≠ .source → ∀ blocks : List (Block ε),
      loop cppExpr rest state 0 [] blocks = byLine cppExpr (lines rest) [] blocks) :
    afterHash cppExpr state blocks ((body ++ (ends ++ rest)).dropWhile isSpace) =
      match directiveKind (body ++ ends) with
      | .directive name tokens => do
          let block ← Block.init cppExpr tokens (some name.value) name.lineno
          byLine cppExpr (lines rest) [] (blocks ++ [block])
      | _ => byLine cppExpr (lines rest) [] blocks := by
  rw [h.dropWhile, directiveKind_eq h hbody]
  cases found : body.dropWhile isSpace with
  | nil =>
      obtain ⟨t', ln, rfl⟩ | ⟨rfl, rfl⟩ := h
      · have ends : endsLine t' = true := by simp [endsLine, ln]
        rw [List.nil_append, List.singleton_append, afterHash, if_pos (by rw [ln]; nofun), if_pos ends]
        exact next _ start blocks
      · exact next _ start blocks
  | cons name args =>
      have hname : Body (name :: args) := found ▸ hbody.dropWhile
      have hrest : Body args := hname.tail
      have hargs : Body (args.dropWhile isSpace) := hrest.dropWhile
      have inLine : ¬ endsLine name = true := by
        simp [endsLine, hname name List.mem_cons_self]
      rw [List.cons_append, afterHash]
      by_cases ident : name.id = .ident
      · rw [if_neg (not_not.2 ident)]
        dsimp only
        rw [if_pos ident, h.dropWhile, h.untilLine hargs, h.afterLine hargs]
        exact bind_congr fun block => next .afterLN (by nofun) _
      · rw [if_pos ident, if_neg inLine, h.afterLine hrest, next _ start]
        dsimp only
        rw [if_neg ident]
        split
        next _ _ impossible => split at impossible <;> cases impossible
        next => rfl

theorem directiveKind_ne_text (toks : List Token) : directiveKind toks ≠ .text := by
  unfold directiveKind
  split
  next => nofun
  next =>
    split
    next => nofun
    next => split <;> nofun

theorem kept_append (a b : List Token) : kept (a ++ b) = kept a ++ kept b := List.filter_append ..

theorem kept_spaces {spaces : List Token} (all : ∀ t ∈ spaces, isSpace t = true) : kept spaces = spaces := by
  refine List.filter_eq_self.2 fun t ht => ?_
  have space : t.id = .space := of_decide_eq_true (all t ht)
  rw [space]
  rfl

theorem Ends.kept (h : Ends ends rest) : CppBlockParser.kept ends = ends := by
  obtain ⟨t, ln, rfl⟩ | ⟨rfl, -⟩ := h
  · exact List.filter_cons_of_pos (by rw [ln]; rfl)
  · rfl

/-- `getBlocks` works line by line. -/
theorem loop_eq (current : List Token) (noEof : ∀ t ∈ toks, t.id ≠ .eof) (start : state ≠ .source) :
    loop cppExpr toks state current.length current blocks = byLine cppExpr (lines toks) current blocks := by
  induction hn : toks.length using Nat.strong_induction_on generalizing toks state current blocks with
  | _ n ih =>
      by_cases empty : toks = []
      · subst empty
        rw [loop]
        rfl
      obtain ⟨body, ends, rest, rfl, hbody, h, ne⟩ := exists_line noEof empty
      have shorter : rest.length < n := by
        have := List.length_pos_iff.2 ne
        simp only [List.length_append] at this hn
        omega
      have noEof' : ∀ t ∈ rest, t.id ≠ .eof := fun t ht =>
        noEof t (List.mem_append_right _ (List.mem_append_right _ ht))
      have next {state : State} (start : state ≠ .source) (current : List Token) (blocks : List (Block ε)) :
          loop cppExpr rest state current.length current blocks = byLine cppExpr (lines rest) current blocks :=
        ih _ shorter _ noEof' start rfl
      have split := (List.takeWhile_append_dropWhile (p := isSpace) (l := body)).symm
      have all : ∀ t ∈ body.takeWhile isSpace, isSpace t = true := fun t ht => List.mem_takeWhile_imp ht
      generalize body.takeWhile isSpace = spaces at split all
      obtain ⟨state', start', skip⟩ : ∃ state', state' ≠ State.source ∧ _ = loop cppExpr _ state' _ _ _ :=
        loop_spaces (body.dropWhile isSpace ++ (ends ++ rest)) current blocks all start current.length
      rw [← List.append_assoc, ← split] at skip
      rw [h.lines hbody ne, byLine, skip]
      cases first : body.dropWhile isSpace with
      | nil =>
          rw [first, List.append_nil] at split
          have text : kind (body ++ ends) = .text := kind_text h (by rw [first]; nofun)
          rw [List.nil_append, loop_ends h _ fun current => next (by nofun) current blocks, text, kept_append, h.kept,
            split, kept_spaces all, List.append_assoc]
      | cons t more =>
          rw [first] at split
          have hmore : Body (t :: more) := by
            rw [split] at hbody
            exact hbody.append_right
          have hrest : Body more := hmore.tail
          rw [List.cons_append]
          by_cases id : t.id = hash
          · rw [loop_directive id start', kind_hash h first id]
            simp only [afterHash_eq h hrest start' fun state start => next start []]
            cases kindEq : directiveKind (more ++ ends) with
            | text => exact absurd kindEq (directiveKind_ne_text _)
            | ignored => rfl
            | directive name tokens => rfl
            | unnamed => rfl
          · obtain ⟨ln, eof⟩ := hmore t List.mem_cons_self
            have space : ¬ isSpace t = true := by
              have head := List.head_dropWhile_not (l := body) isSpace (by rw [first]; simp)
              simpa only [first, List.head_cons, Bool.not_eq_true] using head
            have text : kind (body ++ ends) = .text := kind_text h (by rw [first]; rintro t ⟨⟩; exact id)
            have keep : kept (t :: more) = t :: kept more := List.filter_cons_of_pos (by simp [id])
            rw [loop_other ln eof space id, loop_source hrest,
              loop_ends h _ fun current => next (by nofun) current blocks, text, kept_append, h.kept, split, kept_append, kept_spaces all, keep]
            simp only [List.append_assoc, List.cons_append, List.nil_append]

/-! ### What the blocks show -/

/-- What the blocks do show of a line. -/
def Gets (cppExpr : List Token → Option ε) (line : List Token) (items : List (Item ε)) : Prop :=
  match kind line with
  | .text => items = (kept line).map .text
  | .directive name tokens =>
      ∃ b, Block.init cppExpr tokens (some name.value) name.lineno = .ok b ∧ items = [.directive b]
  | _ => items = []

theorem addText_eq (cppExpr : List Token → Option ε) (text : List Token) (blocks : List (Block ε)) :
    ∃ blocks', addText cppExpr text blocks = .ok blocks' ∧
      blocks'.flatMap Block.items = blocks.flatMap Block.items ++ text.map .text := by
  cases text with
  | nil => exact ⟨blocks, rfl, (List.append_nil _).symm⟩
  | cons t text =>
      refine ⟨blocks ++ [⟨t :: text, none, t.lineno, none⟩], rfl, ?_⟩
      rw [List.flatMap_append, List.flatMap_singleton]
      rfl

theorem init_items {tokens : List Token} {d : List Char} {lineno : ℕ} {b : Block ε}
    (h : Block.init cppExpr tokens (some d) lineno = .ok b) : b.items = [.directive b] := by
  have named : (asIf tokens (some d)).2 ≠ none := by
    unfold asIf
    split
    next => nofun
    next => split <;> nofun
  have same : b.directive = (asIf tokens (some d)).2 := by
    unfold Block.init at h
    generalize asIf tokens (some d) = p at h ⊢
    obtain ⟨n, -, h⟩ := bind_eq_ok.1 h
    split at h
    next =>
      split at h
      next => cases h
      next =>
        cases h
        rfl
    next =>
      cases h
      rfl
  obtain ⟨d', hd'⟩ := Option.ne_none_iff_exists'.1 named
  rw [Block.items, same, hd']

/-- The blocks show what they get of each line, in order. -/
theorem byLine_items {ls : List (List Token)} {blocks' : List (Block ε)}
    (h : byLine cppExpr ls current blocks = .ok blocks') :
    ∃ items, List.Forall₂ (Gets cppExpr) ls items ∧
      blocks'.flatMap Block.items = blocks.flatMap Block.items ++ current.map .text ++ items.flatten := by
  induction ls generalizing current blocks with
  | nil =>
      obtain ⟨blocks₁, added, show₁⟩ := addText_eq cppExpr current blocks
      cases added.symm.trans h
      exact ⟨[], .nil, by rw [show₁, List.flatten_nil, List.append_nil]⟩
  | cons line ls ih =>
      obtain ⟨blocks₁, added, show₁⟩ := addText_eq cppExpr current blocks
      rw [byLine, added] at h
      have skipped (nothing : Gets cppExpr line []) (h : byLine cppExpr ls [] blocks₁ = .ok blocks') :
          ∃ items, List.Forall₂ (Gets cppExpr) (line :: ls) items ∧
            blocks'.flatMap Block.items = blocks.flatMap Block.items ++ current.map .text ++ items.flatten := by
        obtain ⟨items, all, shows⟩ := ih h
        refine ⟨[] :: items, .cons nothing all, ?_⟩
        rw [shows, show₁, List.flatten_cons, List.map_nil, List.append_nil, List.nil_append]
      cases kindEq : kind line with
      | text =>
          rw [kindEq] at h
          obtain ⟨items, all, shows⟩ := ih h
          refine ⟨(kept line).map .text :: items, .cons ?_ all, ?_⟩
          · rw [Gets, kindEq]
          · rw [shows, List.map_append, List.flatten_cons, List.append_assoc, List.append_assoc, List.append_assoc]
      | ignored =>
          rw [kindEq] at h
          exact skipped (by rw [Gets, kindEq]) h
      | unnamed =>
          rw [kindEq] at h
          exact skipped (by rw [Gets, kindEq]) h
      | directive name tokens =>
          rw [kindEq] at h
          obtain ⟨b, init, h⟩ := bind_eq_ok.1 (show (Block.init cppExpr tokens (some name.value) name.lineno >>=
            fun block => byLine cppExpr ls [] (blocks₁ ++ [block])) = .ok blocks' from h)
          obtain ⟨items, all, shows⟩ := ih h
          refine ⟨[.directive b] :: items, .cons ?_ all, ?_⟩
          · rw [Gets, kindEq]
            exact ⟨b, init, rfl⟩
          · rw [shows, List.flatMap_append, List.flatMap_singleton, init_items init, show₁, List.flatten_cons,
              List.map_nil, List.append_nil, List.append_assoc]

theorem byLine_ok (current : List Token) (blocks : List (Block ε)) {ls : List (List Token)}
    (fine : ∀ line ∈ ls, Fine cppExpr line) :
    ∃ blocks', byLine cppExpr ls current blocks = .ok blocks' := by
  induction ls generalizing current blocks with
  | nil =>
      obtain ⟨blocks₁, added, -⟩ := addText_eq cppExpr current blocks
      exact ⟨blocks₁, added⟩
  | cons line ls ih =>
      obtain ⟨first, rest⟩ := List.forall_mem_cons.1 fine
      obtain ⟨blocks₁, added, -⟩ := addText_eq cppExpr current blocks
      rw [byLine, added]
      unfold Fine at first
      cases kindEq : kind line with
      | text => exact ih _ _ rest
      | ignored => exact ih _ _ rest
      | unnamed => exact ih _ _ rest
      | directive name tokens =>
          rw [kindEq] at first
          obtain ⟨b, init⟩ := first
          obtain ⟨blocks', run⟩ := ih [] (blocks₁ ++ [b]) rest
          exact ⟨blocks', bind_eq_ok.2 ⟨blocks₁, rfl, bind_eq_ok.2 ⟨b, init, run⟩⟩⟩

theorem Fine.shows {items : List (Item ε)} (fine : Fine cppExpr line) (gets : Gets cppExpr line items) :
    Shows cppExpr line items := by
  unfold Fine at fine
  unfold Gets at gets
  unfold Shows
  cases kindEq : kind line with
  | text =>
      rw [kindEq] at fine gets
      have all : kept line = line := List.filter_eq_self.2 fun t ht => decide_eq_true (fine t ht)
      exact gets.trans (by rw [all])
  | ignored =>
      rw [kindEq] at gets
      exact gets
  | directive name tokens =>
      rw [kindEq] at gets
      exact gets
  | unnamed =>
      rw [kindEq] at fine
      exact fine.elim

theorem shows_all {ls : List (List Token)} {items : List (List (Item ε))} (fine : ∀ line ∈ ls, Fine cppExpr line)
    (gets : List.Forall₂ (Gets cppExpr) ls items) : List.Forall₂ (Shows cppExpr) ls items := by
  induction gets with
  | nil => exact .nil
  | cons first _ ih =>
      obtain ⟨fine, rest⟩ := List.forall_mem_cons.1 fine
      exact .cons (fine.shows first) (ih rest)

/-- The blocks get no more of a line than they should show, and less if the line is not fine. -/
theorem length_gets {items items' : List (Item ε)} (shows : Shows cppExpr line items)
    (gets : Gets cppExpr line items') :
    items'.length ≤ items.length ∧ (items.length ≤ items'.length → Fine cppExpr line) := by
  unfold Shows at shows
  unfold Gets at gets
  unfold Fine
  cases kindEq : kind line with
  | text =>
      rw [kindEq] at shows gets
      dsimp only at shows gets ⊢
      rw [shows, gets, List.length_map, List.length_map]
      refine ⟨List.length_filter_le _ _, fun le t ht => ?_⟩
      have all := List.length_filter_eq_length_iff.1 (Nat.le_antisymm (List.length_filter_le _ _) le)
      exact of_decide_eq_true (all t ht)
  | ignored =>
      rw [kindEq] at shows gets
      dsimp only at shows gets ⊢
      rw [shows, gets]
      exact ⟨Nat.le_refl _, fun _ => trivial⟩
  | directive name tokens =>
      rw [kindEq] at shows gets
      obtain ⟨b, init, rfl⟩ := shows
      obtain ⟨b', init', rfl⟩ := gets
      exact ⟨Nat.le_refl _, fun _ => ⟨b, init⟩⟩
  | unnamed =>
      rw [kindEq] at shows gets
      obtain ⟨b, -, rfl⟩ := shows
      dsimp only at gets ⊢
      rw [gets]
      exact ⟨Nat.zero_le _, fun le => absurd le (by simp)⟩

theorem length_all {ls : List (List Token)} {items items' : List (List (Item ε))}
    (shows : List.Forall₂ (Shows cppExpr) ls items) (gets : List.Forall₂ (Gets cppExpr) ls items') :
    items'.flatten.length ≤ items.flatten.length ∧
      (items.flatten.length ≤ items'.flatten.length → ∀ line ∈ ls, Fine cppExpr line) := by
  induction shows generalizing items' with
  | nil =>
      cases gets
      exact ⟨Nat.le_refl _, fun _ _ h => nomatch h⟩
  | cons first _ ih =>
      cases gets with
      | cons first' rest' =>
          obtain ⟨le, fine⟩ := length_gets first first'
          obtain ⟨le', fine'⟩ := ih rest'
          simp only [List.flatten_cons, List.length_append]
          refine ⟨by omega, fun ge => List.forall_mem_cons.2 ⟨fine (by omega), fine' (by omega)⟩⟩

theorem getBlocks_eq (noEof : ∀ t ∈ toks, t.id ≠ .eof) :
    getBlocks cppExpr toks = byLine cppExpr (lines toks) [] [] :=
  loop_eq [] noEof (by nofun)

theorem Keeps.fine (noEof : ∀ t ∈ toks, t.id ≠ .eof) (keeps : Keeps cppExpr toks) :
    ∀ line ∈ lines toks, Fine cppExpr line := by
  obtain ⟨blocks, run, items, shows, same⟩ := keeps
  obtain ⟨items', gets, same'⟩ := byLine_items ((getBlocks_eq noEof).symm.trans run)
  rw [same] at same'
  exact (length_all shows gets).2 (by rw [same']; exact Nat.le_refl _)

end

/-- All text is kept, and each directive yields its block, if and only if all lines are fine. -/
theorem keeps_iff (cppExpr : List Token → Option ε) {toks : List Token} (noEof : ∀ t ∈ toks, t.id ≠ .eof) :
    Keeps cppExpr toks ↔ ∀ line ∈ lines toks, Fine cppExpr line := by
  refine ⟨Keeps.fine noEof, fun fine => ?_⟩
  obtain ⟨blocks, run⟩ := byLine_ok [] [] fine
  obtain ⟨items, gets, same⟩ := byLine_items run
  exact ⟨blocks, (getBlocks_eq noEof).trans run, items, shows_all fine gets, same⟩

def identToken (name : String) : Token := ⟨⟨.ident, name.toList⟩, 1, 0⟩

def idToken (id : TokId) : Token := ⟨.ofId id, 1, 0⟩

/-- Text, a directive behind spaces, and text at the end. -/
theorem keeps_iff_define :
    let toks := [identToken "a", idToken .ln, idToken .space, idToken hash, identToken "define", idToken .space,
      identToken "b", idToken .ln, identToken "c"]
    (∀ t ∈ toks, t.id ≠ .eof) ∧ Keeps (fun _ => none (α := Unit)) toks := by
  intro toks
  have noEof : ∀ t ∈ toks, t.id ≠ .eof := by decide
  refine ⟨noEof, (keeps_iff _ noEof).2 (List.forall_mem_cons.2 ⟨?_, List.forall_mem_cons.2 ⟨?_, List.forall_mem_cons.2
    ⟨?_, fun _ h => nomatch h⟩⟩⟩)⟩
  · show ∀ t ∈ [identToken "a", idToken .ln], t.id ≠ hash
    decide
  · exact ⟨_, rfl⟩
  · show ∀ t ∈ [identToken "c"], t.id ≠ hash
    decide

/-- The line `a # b` loses its `#`. -/
theorem not_keeps_hash :
    let toks := [identToken "a", idToken .space, idToken hash, idToken .space, identToken "b", idToken .ln]
    let text := [identToken "a", idToken .space, idToken .space, identToken "b", idToken .ln]
    getBlocks (fun _ => none (α := Unit)) toks = .ok [⟨text, none, 1, none⟩] ∧
      ¬ Keeps (fun _ => none (α := Unit)) toks := by
  intro toks text
  refine ⟨by decide +kernel, fun keeps => ?_⟩
  have fine := keeps.fine (by decide) _ List.mem_cons_self
  have noHash : ∀ t ∈ toks, t.id ≠ hash := fine
  exact absurd noHash (by decide)

end Bionic.CppBlockParser
