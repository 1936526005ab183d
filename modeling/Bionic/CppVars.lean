import Bionic.CppBlockParser

/-! # Declarations that are removed (`libc/kernel/tools/cpp.py`)

`BlockList.removeVarsAndFuncs` is to keep the type declarations of a header, and to remove variables and functions.  It
looks at the first token of a declaration, and takes the declaration to go on to the next `;` outside of braces.

So a variable or a function whose type is written with `struct`, `union` or `enum` stays, and a type declaration behind
the body of a function goes.  `keepsTypes_of_separated` and `separated_of_keepsTypes` say that nothing else goes wrong,
over blocks that may end anywhere, with directives anywhere between the tokens. -/

namespace Bionic.CppVars

open CppTokenizer (TokId)
open CppBlockParser (Token Block Item)

variable {ε : Type}

/-! ### `removeVarsAndFuncs` -/

inductive State
  /-- In front of a declaration. -/
  | normal
  /-- `typedef` or `struct` encountered. -/
  | types
  /-- A variable or a function encountered, skipping until `;`. -/
  | skip
deriving DecidableEq, Repr

/-- The variables of the loop over the tokens of a block. -/
structure Scan (ε : Type) where
  state : State
  depth : ℕ
  first : ℕ
  blocks2 : List (Block ε)
deriving DecidableEq, Repr

def typeWords : List (List Char) := ["struct", "typedef", "enum", "union", "__extension__"].map String.toList

def staticWords : List (List Char) := ["static", "extern", "__KINLINE"].map String.toList

def lbrace : TokId := .text ['{']

def rbrace : TokId := .text ['}']

def semicolon : TokId := .text [';']

/-- The last identifier in front of the next `(` or `;` of the block, if there is one, is known. -/
def knownStatic (knownStatics : List (List Char)) (rest : List Token) : Bool :=
  let front := rest.takeWhile fun t => t.id ∉ [.text ['('], semicolon]
  let ident := ((front.filter fun t => t.id = .ident).getLast?.map fun t => t.value).getD []
  front.length < rest.length && ident ∈ knownStatics

/-- `Block(tokens)` -/
def textBlock (tokens : List Token) : Block ε := ⟨tokens, none, (tokens.head?.map Token.lineno).getD 0, none⟩

/-- `tokens[first:i]` -/
def slice (tokens : List Token) (first i : ℕ) : List Token := (tokens.drop first).take (i - first)

/-- `tokens[first:i]` becomes a block, if it is not empty. -/
def emit (tokens : List Token) (i : ℕ) (s : Scan ε) : Scan ε :=
  if i > s.first then { s with blocks2 := s.blocks2 ++ [textBlock (slice tokens s.first i)] } else s

/-- The loop over the tokens of a block at token `i`, with `rest` behind it. -/
def scanToken (knownStatics : List (List Char)) (tokens : List Token) (i : ℕ) (tok : Token) (rest : List Token)
    (s : Scan ε) : Scan ε :=
  if s.state = .normal then
    if tok.id ∈ [.ln, .space] then s
    else if tok.value ∈ typeWords then { s with state := .types }
    else if tok.value ∈ staticWords ∧ knownStatic knownStatics rest then { s with state := .types }
    else { emit tokens i s with state := .skip, first := tokens.length }
  else if tok.id = lbrace then { s with depth := s.depth + 1 }
  else if tok.id = rbrace then { s with depth := s.depth - 1 }
  else if s.depth = 0 ∧ tok.id = semicolon then
    { s with state := .normal, first := if s.state = .skip then i + 1 else s.first }
  else s

/-- The loop over the tokens of a block, from token `i` on. -/
def scan (knownStatics : List (List Char)) (tokens : List Token) : ℕ → List Token → Scan ε → Scan ε
  | i, [], s => emit tokens i s
  | i, tok :: rest, s => scan knownStatics tokens (i + 1) rest (scanToken knownStatics tokens i tok rest s)

/-- The loop over the blocks. -/
def scanBlock (knownStatics : List (List Char)) (s : Scan ε) (b : Block ε) : Scan ε :=
  match b.directive with
  | some _ => { s with blocks2 := s.blocks2 ++ [b] }
  | none =>
      scan knownStatics b.tokens 0 b.tokens { s with first := if s.state = .skip then b.tokens.length else 0 }

/-- `removeVarsAndFuncs` -/
def removeVarsAndFuncs (knownStatics : List (List Char)) (blocks : List (Block ε)) : List (Block ε) :=
  (blocks.foldl (scanBlock knownStatics) ⟨.normal, 0, 0, []⟩).blocks2

/-! ### Declarations -/

/-- The depth of braces behind tokens among which there is no `;` outside of braces. -/
def inner : ℕ → List Token → Option ℕ
  | depth, [] => some depth
  | depth, t :: toks =>
      if t.id = lbrace then inner (depth + 1) toks
      else if t.id = rbrace then inner (depth - 1) toks
      else if depth = 0 ∧ t.id = semicolon then none
      else inner depth toks

inductive Kind
  /-- A `struct`, `union`, `enum` or `typedef` declaration. -/
  | type
  /-- A variable, or the prototype of a function. -/
  | object
  /-- A function with its body. -/
  | function
deriving DecidableEq, Repr

/-- The tokens of a declaration behind the first one.  A function has no `;` outside of its body. -/
def Kind.Rest (kind : Kind) (rest : List Token) : Prop :=
  match kind with
  | function => inner 0 rest = some 0 ∧ ∃ body t, rest = body ++ [t] ∧ t.id = rbrace
  | _ => ∃ body t, rest = body ++ [t] ∧ inner 0 body = some 0 ∧ t.id = semicolon

/-- A declaration at the top level. -/
structure Decl where
  kind : Kind
  first : Token
  rest : List Token
  first_id : first.id ∉ [.ln, .space, lbrace, rbrace, semicolon]
  type_word : kind = .type → first.value ∈ typeWords
  rest_ok : kind.Rest rest

/-- A header, but for its directives. -/
inductive Piece
  /-- A space or a line feed between declarations. -/
  | gap (t : Token) (h : t.id ∈ [.ln, .space])
  | decl (d : Decl)

def Piece.tokens : Piece → List Token
  | gap t _ => [t]
  | decl d => d.first :: d.rest

/-- What is to become of a token. -/
inductive Wish
  | keep
  | drop
  | any
deriving DecidableEq, Repr

def Kind.wish : Kind → Wish
  | type => .keep
  | _ => .drop

def Piece.wishes : Piece → List Wish
  | gap _ _ => [.any]
  | decl d => (d.first :: d.rest).map fun _ => d.kind.wish

/-- A choice of items that keeps and drops what it is to, and all directives. -/
inductive Chosen : List (Item ε) → List Wish → List (Item ε) → Prop
  | nil : Chosen [] [] []
  | directive {items ws out} (b : Block ε) : Chosen items ws out →
      Chosen (.directive b :: items) ws (.directive b :: out)
  | kept {items ws out w} (t : Token) : w ≠ .drop → Chosen items ws out →
      Chosen (.text t :: items) (w :: ws) (.text t :: out)
  | dropped {items ws out w} (t : Token) : w ≠ .keep → Chosen items ws out → Chosen (.text t :: items) (w :: ws) out

def itemsOf (blocks : List (Block ε)) : List (Item ε) := blocks.flatMap Block.items

def Item.token? : Item ε → Option Token
  | .text t => some t
  | .directive _ => none

/-- The tokens of the text blocks. -/
def tokensOf (blocks : List (Block ε)) : List Token := (itemsOf blocks).filterMap Item.token?

/-- The type declarations are kept, and the others are removed, where no static function is known. -/
def KeepsTypes (blocks : List (Block ε)) (pieces : List Piece) : Prop :=
  Chosen (itemsOf blocks) (pieces.flatMap Piece.wishes) (itemsOf (removeVarsAndFuncs [] blocks))

/-- No type declaration is behind a function, and variables and functions start with the word of a type only there. -/
def Separated : Bool → List Piece → Prop
  | _, [] => True
  | behind, .gap _ _ :: pieces => Separated behind pieces
  | behind, .decl d :: pieces =>
      match d.kind with
      | .type => behind = false ∧ Separated false pieces
      | .object => (behind = true ∨ d.first.value ∉ typeWords) ∧ Separated false pieces
      | .function => (behind = true ∨ d.first.value ∉ typeWords) ∧ Separated true pieces

/-! ### Token by token -/

/-- Whether a token is kept, and the state and the depth behind it. -/
def step (p : State × ℕ) (t : Token) : Bool × State × ℕ :=
  if p.1 = .normal then
    if t.id ∈ [.ln, .space] then (true, p)
    else if t.value ∈ typeWords then (true, .types, p.2)
    else (false, .skip, p.2)
  else
    (p.1 = .types,
      if t.id = lbrace then (p.1, p.2 + 1)
      else if t.id = rbrace then (p.1, p.2 - 1)
      else if p.2 = 0 ∧ t.id = semicolon then (.normal, p.2)
      else p)

/-- The state behind all tokens. -/
def after (p : State × ℕ) (toks : List Token) : State × ℕ := toks.foldl (fun p t => (step p t).2) p

/-- The items that are kept. -/
def choice : State × ℕ → List (Item ε) → List (Item ε)
  | _, [] => []
  | p, .directive b :: items => .directive b :: choice p items
  | p, .text t :: items => if (step p t).1 then .text t :: choice (step p t).2 items else choice (step p t).2 items

section

variable {tokens rest toks : List Token} {t : Token} {i : ℕ} {s : Scan ε} {p : State × ℕ}

/-- The tokens from `first` on, which are kept but not in a block yet. -/
def pending (tokens : List Token) (i : ℕ) (s : Scan ε) : List Token :=
  if s.state = .skip then [] else slice tokens s.first i

/-- `first` is the start of what is kept, or the end of the block. -/
def Placed (tokens : List Token) (i : ℕ) (s : Scan ε) : Prop :=
  if s.state = .skip then s.first = tokens.length else s.first ≤ i

theorem items_textBlock (toks : List Token) : (textBlock toks : Block ε).items = toks.map .text := rfl

theorem emit_items (le : i ≤ tokens.length) (placed : Placed tokens i s) :
    itemsOf (emit tokens i s).blocks2 = itemsOf s.blocks2 ++ (pending tokens i s).map .text := by
  unfold Placed at placed
  unfold emit pending
  split at placed
  next skip =>
    rw [if_neg (by omega), if_pos skip]
    exact (List.append_nil _).symm
  next skip =>
    rw [if_neg skip]
    split
    next =>
      show (s.blocks2 ++ [textBlock _]).flatMap Block.items = _
      rw [List.flatMap_append, List.flatMap_singleton, items_textBlock]
      rfl
    next none =>
      have empty : slice tokens s.first i = [] := by
        rw [slice, show i - s.first = 0 by omega, List.take_zero]
      rw [empty]
      exact (List.append_nil _).symm

theorem slice_succ {first : ℕ} (le : first ≤ i) (at_i : tokens.drop i = t :: rest) :
    slice tokens first (i + 1) = slice tokens first i ++ [t] := by
  have found : (tokens.drop first)[i - first]? = some t := by
    rw [List.getElem?_drop, show first + (i - first) = i by omega]
    have := congrArg List.head? at_i
    rwa [List.head?_drop] at this
  rw [slice, slice, show i + 1 - first = i - first + 1 by omega, List.take_add_one, found]
  rfl

theorem emit_state (tokens : List Token) (i : ℕ) (s : Scan ε) :
    (emit tokens i s).state = s.state ∧ (emit tokens i s).depth = s.depth := by
  unfold emit
  split <;> exact ⟨rfl, rfl⟩

/-- A token is kept that is behind what is pending. -/
theorem pending_succ {s' : Scan ε} (at_i : tokens.drop i = t :: rest) (state : s.state ≠ .skip)
    (state' : s'.state ≠ .skip) (first : s'.first = s.first) (placed : Placed tokens i s) :
    Placed tokens (i + 1) s' ∧ pending tokens (i + 1) s' = pending tokens i s ++ [t] := by
  rw [Placed, if_neg state] at placed
  rw [Placed, if_neg state', pending, if_neg state', pending, if_neg state, first]
  exact ⟨Nat.le_succ_of_le placed, slice_succ placed at_i⟩

/-- `s'` is behind the token, in the state of `out`, and what is in blocks and pending has got it if `out` says so. -/
structure Behind (tokens : List Token) (i : ℕ) (t : Token) (s s' : Scan ε) (out : Bool × State × ℕ) : Prop where
  placed : Placed tokens (i + 1) s'
  state : (s'.state, s'.depth) = out.2
  items : itemsOf s'.blocks2 ++ (pending tokens (i + 1) s').map .text =
    itemsOf s.blocks2 ++ (pending tokens i s).map .text ++ if out.1 then [.text t] else []

theorem Behind.keep {s' : Scan ε} (at_i : tokens.drop i = t :: rest) (placed : Placed tokens i s)
    (state : s.state ≠ .skip) (state' : s'.state ≠ .skip) (first : s'.first = s.first)
    (blocks2 : s'.blocks2 = s.blocks2) : Behind tokens i t s s' (true, s'.state, s'.depth) := by
  obtain ⟨placed', pending'⟩ := pending_succ at_i state state' first placed
  refine ⟨placed', rfl, ?_⟩
  rw [blocks2, pending', List.map_append, List.append_assoc]
  rfl

theorem Behind.drop {s' : Scan ε} (placed : Placed tokens i s) (state : s.state = .skip) (state' : s'.state = .skip)
    (first : s'.first = s.first) (blocks2 : s'.blocks2 = s.blocks2) :
    Behind tokens i t s s' (false, s'.state, s'.depth) := by
  rw [Placed, if_pos state] at placed
  refine ⟨?_, rfl, ?_⟩
  · rw [Placed, if_pos state', first]
    exact placed
  · rw [pending, if_pos state', pending, if_pos state, blocks2]
    exact (List.append_nil _).symm

section

variable {depth first : ℕ} {blocks2 : List (Block ε)}

theorem scanToken_normal (at_i : tokens.drop i = t :: rest) (le : i ≤ tokens.length)
    (placed : Placed tokens i ⟨.normal, depth, first, blocks2⟩) :
    Behind tokens i t ⟨.normal, depth, first, blocks2⟩ (scanToken [] tokens i t rest ⟨.normal, depth, first, blocks2⟩)
      (step (.normal, depth) t) := by
  have unknown : knownStatic [] rest = false := by
    unfold knownStatic
    simp
  unfold scanToken step
  simp only [if_true]
  by_cases gap : t.id ∈ [.ln, .space]
  · simp only [if_pos gap]
    exact .keep at_i placed nofun nofun rfl rfl
  by_cases word : t.value ∈ typeWords
  · simp only [if_neg gap, if_pos word]
    exact .keep at_i placed nofun nofun rfl rfl
  · simp only [if_neg gap, if_neg word, unknown, Bool.false_eq_true, and_false, if_false]
    obtain ⟨-, depth'⟩ := emit_state tokens i ⟨.normal, depth, first, blocks2⟩
    refine ⟨rfl, congrArg (State.skip, ·) depth', ?_⟩
    rw [pending, if_pos rfl, emit_items le placed]
    rfl

/-- Inside of a type declaration all tokens are kept. -/
theorem scanToken_types (at_i : tokens.drop i = t :: rest) (placed : Placed tokens i ⟨.types, depth, first, blocks2⟩) :
    Behind tokens i t ⟨.types, depth, first, blocks2⟩ (scanToken [] tokens i t rest ⟨.types, depth, first, blocks2⟩)
      (step (.types, depth) t) := by
  unfold scanToken step
  simp only [reduceCtorEq, if_false, decide_true]
  by_cases left : t.id = lbrace
  · simp only [left, if_true]
    exact .keep at_i placed nofun nofun rfl rfl
  by_cases right : t.id = rbrace
  · simp only [right, if_true, if_neg (show ¬ rbrace = lbrace by decide)]
    exact .keep at_i placed nofun nofun rfl rfl
  by_cases ends : depth = 0 ∧ t.id = semicolon
  · simp only [if_neg left, if_neg right, if_pos ends]
    exact .keep at_i placed nofun nofun rfl rfl
  · simp only [if_neg left, if_neg right, if_neg ends]
    exact .keep at_i placed nofun nofun rfl rfl

/-- A declaration that is skipped goes, with its `;`. -/
theorem scanToken_skip (placed : Placed tokens i ⟨.skip, depth, first, blocks2⟩) :
    Behind tokens i t ⟨.skip, depth, first, blocks2⟩ (scanToken [] tokens i t rest ⟨.skip, depth, first, blocks2⟩)
      (step (.skip, depth) t) := by
  unfold scanToken step
  simp only [reduceCtorEq, if_false, decide_false, if_true]
  by_cases left : t.id = lbrace
  · simp only [left, if_true]
    exact .drop placed rfl rfl rfl rfl
  by_cases right : t.id = rbrace
  · simp only [right, if_true, if_neg (show ¬ rbrace = lbrace by decide)]
    exact .drop placed rfl rfl rfl rfl
  by_cases ends : depth = 0 ∧ t.id = semicolon
  · simp only [if_neg left, if_neg right, if_pos ends]
    have empty : slice tokens (i + 1) (i + 1) = [] := by rw [slice, Nat.sub_self, List.take_zero]
    refine ⟨Nat.le_refl _, rfl, ?_⟩
    show itemsOf blocks2 ++ (slice tokens (i + 1) (i + 1)).map .text = itemsOf blocks2 ++ [] ++ []
    rw [empty, List.append_nil]
    rfl
  · simp only [if_neg left, if_neg right, if_neg ends]
    exact .drop placed rfl rfl rfl rfl

end

/-- One token: what is in blocks and pending, and the state. -/
theorem scanToken_spec (at_i : tokens.drop i = t :: rest) (le : i ≤ tokens.length) (placed : Placed tokens i s) :
    Behind tokens i t s (scanToken [] tokens i t rest s) (step (s.state, s.depth) t) := by
  obtain ⟨state, depth, first, blocks2⟩ := s
  cases state with
  | normal => exact scanToken_normal at_i le placed
  | types => exact scanToken_types at_i placed
  | skip => exact scanToken_skip placed

/-- The rest of a block. -/
theorem scan_spec (at_i : tokens.drop i = rest) (placed : Placed tokens i s) (le : i ≤ tokens.length) :
    ((scan [] tokens i rest s).state, (scan [] tokens i rest s).depth) = after (s.state, s.depth) rest ∧
      itemsOf (scan [] tokens i rest s).blocks2 =
        itemsOf s.blocks2 ++ (pending tokens i s).map .text ++ choice (s.state, s.depth) (rest.map .text) := by
  induction rest generalizing i s with
  | nil =>
      obtain ⟨state, depth⟩ := emit_state tokens i s
      rw [scan, state, depth, emit_items le placed]
      exact ⟨rfl, (List.append_nil _).symm⟩
  | cons t rest ih =>
      obtain ⟨placed', state, items⟩ := scanToken_spec at_i le placed
      have next : tokens.drop (i + 1) = rest := by
        rw [← List.drop_drop, at_i]
        rfl
      have lt : i < tokens.length := by
        by_contra beyond
        rw [List.drop_eq_nil_of_le (by omega)] at at_i
        cases at_i
      obtain ⟨state', items'⟩ := ih next placed' lt
      rw [scan, state', items', items, state, List.map_cons, choice]
      refine ⟨rfl, ?_⟩
      split
      next => rw [List.append_assoc]; rfl
      next => rw [List.append_nil]

theorem choice_append (p : State × ℕ) (toks : List Token) (items : List (Item ε)) :
    choice p (toks.map .text ++ items) = choice p (toks.map .text) ++ choice (after p toks) items := by
  induction toks generalizing p with
  | nil => rfl
  | cons t toks ih =>
      rw [List.map_cons, List.cons_append, choice, choice, ih]
      split <;> rfl

theorem foldl_scanBlock (blocks : List (Block ε)) (s : Scan ε) :
    itemsOf (blocks.foldl (scanBlock []) s).blocks2 =
      itemsOf s.blocks2 ++ choice (s.state, s.depth) (itemsOf blocks) := by
  induction blocks generalizing s with
  | nil => exact (List.append_nil _).symm
  | cons b blocks ih =>
      have cons : itemsOf (b :: blocks) = b.items ++ itemsOf blocks := List.flatMap_cons
      rw [List.foldl_cons, ih, cons]
      cases directive : b.directive with
      | some d =>
          have items : b.items = [.directive b] := by rw [Block.items, directive]
          rw [scanBlock, directive, items]
          show (s.blocks2 ++ [b]).flatMap Block.items ++ _ = _
          rw [List.flatMap_append, List.flatMap_singleton, items, List.append_assoc]
          rfl
      | none =>
          have items : b.items = b.tokens.map .text := by rw [Block.items, directive]
          rw [scanBlock, directive, items]
          dsimp only
          set s₀ : Scan ε := { s with first := if s.state = .skip then b.tokens.length else 0 }
          have placed : Placed b.tokens 0 s₀ := by
            unfold Placed
            split
            next skip => exact if_pos skip
            next skip => exact Nat.le_of_eq (if_neg skip)
          obtain ⟨state, scanned⟩ := scan_spec List.drop_zero placed (Nat.zero_le _)
          have nothing : pending b.tokens 0 s₀ = [] := by
            unfold pending
            split
            next => rfl
            next => rw [slice, Nat.zero_sub, List.take_zero]
          rw [state, scanned, nothing, choice_append, List.map_nil, List.append_nil, List.append_assoc]

/-- The items that are kept do not depend on where the blocks end. -/
theorem items_removeVarsAndFuncs (blocks : List (Block ε)) :
    itemsOf (removeVarsAndFuncs [] blocks) = choice (.normal, 0) (itemsOf blocks) :=
  foldl_scanBlock blocks ⟨.normal, 0, 0, []⟩

end

/-! ### Choices -/

def Wish.Allows (w : Wish) (kept : Bool) : Prop := w ≠ if kept then .drop else .keep

/-- What is to become of the tokens is what does become of them. -/
def Agrees : State × ℕ → List Token → List Wish → Prop
  | _, [], [] => True
  | p, t :: toks, w :: ws => w.Allows (step p t).1 ∧ Agrees (step p t).2 toks ws
  | _, _, _ => False

section

variable {items out : List (Item ε)} {ws : List Wish} {w : Wish} {p : State × ℕ} {t : Token} {toks : List Token}

theorem chosen_of_agrees (h : Agrees p (items.filterMap Item.token?) ws) : Chosen items ws (choice p items) := by
  induction items generalizing p ws with
  | nil =>
      cases ws with
      | nil => exact .nil
      | cons => exact h.elim
  | cons item items ih =>
      cases item with
      | directive b => exact .directive b (ih h)
      | text t =>
          cases ws with
          | nil => exact h.elim
          | cons w ws =>
              obtain ⟨allows, rest⟩ := h
              rw [choice]
              unfold Wish.Allows at allows
              split at allows
              next kept =>
                rw [if_pos kept]
                exact .kept t allows (ih rest)
              next kept =>
                rw [if_neg kept]
                exact .dropped t allows (ih rest)

theorem Chosen.mem (h : Chosen items ws out) (mem : .text t ∈ out) : t ∈ items.filterMap Item.token? := by
  induction h with
  | nil => cases mem
  | directive b _ ih =>
      cases mem with
      | tail _ mem => exact ih mem
  | kept t' _ _ ih =>
      cases mem with
      | head => exact List.mem_cons_self
      | tail _ mem => exact List.mem_cons_of_mem _ (ih mem)
  | dropped t' _ _ ih => exact List.mem_cons_of_mem _ (ih mem)

theorem mem_choice (mem : .text t ∈ choice p items) : t ∈ items.filterMap Item.token? := by
  induction items generalizing p with
  | nil => cases mem
  | cons item items ih =>
      cases item with
      | directive b =>
          cases mem with
          | tail _ mem => exact ih mem
      | text t' =>
          rw [choice] at mem
          split at mem
          next =>
            cases mem with
            | head => exact List.mem_cons_self
            | tail _ mem => exact List.mem_cons_of_mem _ (ih mem)
          next => exact List.mem_cons_of_mem _ (ih mem)

/-- Tokens that differ from each other show what has become of them. -/
theorem agrees_of_chosen (nodup : (items.filterMap Item.token?).Nodup) (h : Chosen items ws (choice p items)) :
    Agrees p (items.filterMap Item.token?) ws := by
  induction items generalizing p ws with
  | nil =>
      cases h
      trivial
  | cons item items ih =>
      cases item with
      | directive b =>
          cases h with
          | directive _ h => exact ih nodup h
      | text t =>
          obtain ⟨fresh, nodup⟩ := List.nodup_cons.1 nodup
          rw [choice] at h
          split at h
          next kept =>
            cases h with
            | kept _ allows h =>
                refine ⟨?_, ih nodup h⟩
                rw [Wish.Allows, if_pos kept]
                exact allows
            | dropped _ _ h => exact absurd (h.mem List.mem_cons_self) fresh
          next kept =>
            generalize same : choice (step p t).2 items = out at h
            cases h with
            | kept _ _ h => exact absurd (mem_choice (same ▸ List.mem_cons_self)) fresh
            | dropped _ allows h =>
                refine ⟨?_, ih nodup (same ▸ h)⟩
                rw [Wish.Allows, if_neg kept]
                exact allows

/-! ### Declarations, token by token -/

variable {more : List Token} {state : State} {depth depth' : ℕ}

theorem step_of_ne (h : state ≠ .normal) (depth : ℕ) (t : Token) :
    step (state, depth) t =
      (decide (state = .types),
        if t.id = lbrace then (state, depth + 1)
        else if t.id = rbrace then (state, depth - 1)
        else if depth = 0 ∧ t.id = semicolon then (.normal, depth)
        else (state, depth)) := if_neg h

theorem skip_ne : State.skip ≠ .normal := nofun

theorem types_ne : State.types ≠ .normal := nofun

/-- Tokens in front of the end of a declaration. -/
theorem agrees_inner (h : state ≠ .normal) (w : Wish) (inside : inner depth toks = some depth') :
    Agrees (state, depth) (toks ++ more) (toks.map (fun _ => w) ++ ws) ↔
      (toks = [] ∨ w.Allows (state = .types)) ∧ Agrees (state, depth') more ws := by
  induction toks generalizing depth with
  | nil =>
      cases inside
      exact (and_iff_right (.inl rfl)).symm
  | cons t toks ih =>
      have next : ∀ {d}, inner d toks = some depth' → (step (state, depth) t).2 = (state, d) →
          (Agrees (state, depth) (t :: toks ++ more) ((t :: toks).map (fun _ => w) ++ ws) ↔
            (t :: toks = [] ∨ w.Allows (state = .types)) ∧ Agrees (state, depth') more ws) := by
        intro d inside behind
        have first : (step (state, depth) t).1 = decide (state = .types) := by rw [step_of_ne h]
        show w.Allows (step (state, depth) t).1 ∧
          Agrees (step (state, depth) t).2 (toks ++ more) (toks.map (fun _ => w) ++ ws) ↔ _
        rw [first, behind, ih inside]
        constructor
        · rintro ⟨allows, -, rest⟩
          exact ⟨.inr allows, rest⟩
        · rintro ⟨none | allows, rest⟩
          · cases none
          · exact ⟨allows, .inr allows, rest⟩
      rw [inner] at inside
      split at inside
      next left => exact next inside (by rw [step_of_ne h, if_pos left])
      next left =>
        split at inside
        next right => exact next inside (by rw [step_of_ne h, if_neg left, if_pos right])
        next right =>
          split at inside
          next => cases inside
          next ends => exact next inside (by rw [step_of_ne h, if_neg left, if_neg right, if_neg ends])

/-- The state behind a declaration that was read in a state: only a body does not end it. -/
def Kind.endState (kind : Kind) (state : State) : State := if kind = function then state else .normal

theorem agrees_rest {kind : Kind} (h : state ≠ .normal) (w : Wish) (rest : kind.Rest toks) :
    Agrees (state, 0) (toks ++ more) (toks.map (fun _ => w) ++ ws) ↔
      w.Allows (state = .types) ∧ Agrees (kind.endState state, 0) more ws := by
  have ended (not : kind ≠ .function) : (∃ body t, toks = body ++ [t] ∧ inner 0 body = some 0 ∧ t.id = semicolon) →
      (Agrees (state, 0) (toks ++ more) (toks.map (fun _ => w) ++ ws) ↔
        w.Allows (state = .types) ∧ Agrees (kind.endState state, 0) more ws) := by
    rintro ⟨body, t, rfl, inside, id⟩
    have last : step (state, 0) t = (decide (state = .types), .normal, 0) := by
      rw [step_of_ne h, id]
      rfl
    rw [List.append_assoc, List.map_append, List.append_assoc, agrees_inner h w inside, Kind.endState, if_neg not]
    show _ ∧ (w.Allows (step (state, 0) t).1 ∧ Agrees (step (state, 0) t).2 more ws) ↔ _
    rw [last]
    constructor
    · rintro ⟨-, allows, rest⟩
      exact ⟨allows, rest⟩
    · rintro ⟨allows, rest⟩
      exact ⟨.inr allows, allows, rest⟩
  cases kind with
  | type => exact ended nofun rest
  | object => exact ended nofun rest
  | function =>
      obtain ⟨inside, body, t, rfl, -⟩ := rest
      rw [agrees_inner h w inside]
      exact and_congr_left fun _ => or_iff_right (by simp)

/-- The state in front of a declaration. -/
def start (behind : Bool) : State := if behind then .skip else .normal

theorem step_first (behind : Bool) (d : Decl) :
    step (start behind, 0) d.first =
      if behind = true ∨ d.first.value ∉ typeWords then (false, .skip, 0) else (true, .types, 0) := by
  have ids := d.first_id
  simp only [List.mem_cons, List.not_mem_nil, or_false, not_or] at ids
  obtain ⟨ln, space, left, right, semi⟩ := ids
  cases behind with
  | true =>
      rw [if_pos (.inl rfl), start, if_pos rfl, step_of_ne skip_ne, if_neg left, if_neg right, if_neg fun h => semi h.2]
      rfl
  | false =>
      have gap : d.first.id ∉ [.ln, .space] := by simp [ln, space]
      rw [start, if_neg Bool.false_ne_true, step, if_pos rfl, if_neg gap]
      by_cases word : d.first.value ∈ typeWords
      · rw [if_pos word, if_neg (by simp [word])]
      · rw [if_neg word, if_pos (.inr word)]

theorem step_gap (behind : Bool) (h : t.id ∈ [.ln, .space]) : (step (start behind, 0) t).2 = (start behind, 0) := by
  cases behind with
  | true =>
      have ids : t.id = .ln ∨ t.id = .space := by simpa using h
      have other : t.id ≠ lbrace ∧ t.id ≠ rbrace ∧ t.id ≠ semicolon := by
        rcases ids with id | id <;> rw [id] <;> decide
      rw [start, if_pos rfl, step_of_ne skip_ne, if_neg other.1, if_neg other.2.1, if_neg fun h => other.2.2 h.2]
  | false => rw [start, if_neg Bool.false_ne_true, step, if_pos rfl, if_pos h]

/-- A declaration, of which all tokens are to be kept or all are to be dropped. -/
theorem agrees_decl (behind : Bool) (d : Decl) :
    Agrees (start behind, 0) ((Piece.decl d).tokens ++ more) ((Piece.decl d).wishes ++ ws) ↔
      (if behind = true ∨ d.first.value ∉ typeWords then d.kind.wish = .drop ∧ Agrees (d.kind.endState .skip, 0) more ws
        else d.kind.wish = .keep ∧ Agrees (d.kind.endState .types, 0) more ws) := by
  show d.kind.wish.Allows (step (start behind, 0) d.first).1 ∧
    Agrees (step (start behind, 0) d.first).2 (d.rest ++ more) (d.rest.map (fun _ => d.kind.wish) ++ ws) ↔ _
  have known : d.kind.wish = .keep ∨ d.kind.wish = .drop := by
    cases d.kind
    · exact .inl rfl
    · exact .inr rfl
    · exact .inr rfl
  rw [step_first]
  split
  next =>
    rw [agrees_rest skip_ne d.kind.wish d.rest_ok]
    rcases known with wish | wish <;> rw [wish] <;> simp [Wish.Allows]
  next =>
    rw [agrees_rest types_ne d.kind.wish d.rest_ok]
    rcases known with wish | wish <;> rw [wish] <;> simp [Wish.Allows]

theorem agrees_pieces (behind : Bool) (pieces : List Piece) :
    Agrees (start behind, 0) (pieces.flatMap Piece.tokens) (pieces.flatMap Piece.wishes) ↔ Separated behind pieces := by
  induction pieces generalizing behind with
  | nil => exact iff_of_true trivial trivial
  | cons piece pieces ih =>
      rw [List.flatMap_cons, List.flatMap_cons]
      cases piece with
      | gap t h =>
          show Wish.any.Allows (step (start behind, 0) t).1 ∧ Agrees (step (start behind, 0) t).2
            (pieces.flatMap Piece.tokens) (pieces.flatMap Piece.wishes) ↔ Separated behind pieces
          rw [step_gap behind h, ih]
          exact and_iff_right (by unfold Wish.Allows; split <;> nofun)
      | decl d =>
          rw [agrees_decl, Separated]
          by_cases skipped : behind = true ∨ d.first.value ∉ typeWords
          · rw [if_pos skipped]
            cases kind : d.kind with
            | type =>
                have behind : behind = true := skipped.resolve_right (not_not.2 (d.type_word kind))
                simp [Kind.wish, behind]
            | object => simpa [Kind.wish, Kind.endState, start, skipped] using ih false
            | function => simpa [Kind.wish, Kind.endState, start, skipped] using ih true
          · rw [if_neg skipped]
            cases kind : d.kind with
            | type =>
                have behind : behind = false := Bool.eq_false_iff.2 fun h => skipped (.inl h)
                simpa [Kind.wish, Kind.endState, start, behind] using ih false
            | object => simp [Kind.wish, skipped]
            | function => simp [Kind.wish, skipped]

end

/-! ### The types that are kept -/

section

variable {blocks : List (Block ε)} {pieces : List Piece}

theorem keepsTypes_of_separated (declared : tokensOf blocks = pieces.flatMap Piece.tokens)
    (separated : Separated false pieces) : KeepsTypes blocks pieces := by
  have agrees := (agrees_pieces false pieces).2 separated
  rw [← declared] at agrees
  rw [KeepsTypes, items_removeVarsAndFuncs]
  exact chosen_of_agrees agrees

theorem separated_of_keepsTypes (declared : tokensOf blocks = pieces.flatMap Piece.tokens)
    (nodup : (tokensOf blocks).Nodup) (keeps : KeepsTypes blocks pieces) : Separated false pieces := by
  rw [KeepsTypes, items_removeVarsAndFuncs] at keeps
  have agrees : Agrees (start false, 0) (tokensOf blocks) _ := agrees_of_chosen nodup keeps
  rw [declared] at agrees
  exact (agrees_pieces false pieces).1 agrees

end

/-- The type declarations of a header are kept and the others are removed, if no type declaration is behind a function,
and variables and functions start with the word of a type only there.  For tokens at different places this is also
necessary. -/
theorem keepsTypes_iff (blocks : List (Block ε)) (pieces : List Piece)
    (declared : tokensOf blocks = pieces.flatMap Piece.tokens) :
    (Separated false pieces → KeepsTypes blocks pieces) ∧
      ((tokensOf blocks).Nodup → (KeepsTypes blocks pieces ↔ Separated false pieces)) :=
  ⟨keepsTypes_of_separated declared,
    fun nodup => ⟨separated_of_keepsTypes declared nodup, keepsTypes_of_separated declared⟩⟩

def word (name : String) (colno : ℕ) : Token := ⟨⟨.ident, name.toList⟩, 1, colno⟩

def mark (id : TokId) (colno : ℕ) : Token := ⟨.ofId id, 1, colno⟩

/-- `struct s;` -/
def structDecl : Decl where
  kind := .type
  first := word "struct" 20
  rest := [mark .space 21, word "s" 22, mark semicolon 23]
  first_id := by decide
  type_word := fun _ => by decide
  rest_ok := ⟨[mark .space 21, word "s" 22], mark semicolon 23, rfl, rfl, rfl⟩

/-- `int x;` -/
def variableDecl : Decl where
  kind := .object
  first := word "int" 0
  rest := [mark .space 1, word "x" 2, mark semicolon 3]
  first_id := by decide
  type_word := nofun
  rest_ok := ⟨[mark .space 1, word "x" 2], mark semicolon 3, rfl, rfl, rfl⟩

/-- `void f() {}` -/
def functionDecl : Decl where
  kind := .function
  first := word "void" 0
  rest := [mark .space 1, word "f" 2, mark (.text ['(']) 3, mark (.text [')']) 4, mark .space 5, mark lbrace 6,
    mark rbrace 7]
  first_id := by decide
  type_word := nofun
  rest_ok := ⟨rfl,
    [mark .space 1, word "f" 2, mark (.text ['(']) 3, mark (.text [')']) 4, mark .space 5, mark lbrace 6],
    mark rbrace 7, rfl, rfl⟩

/-- `int x; struct s;`, where the blocks end in the declarations and a directive is between them. -/
theorem keepsTypes_iff_struct :
    let define : Block Unit := ⟨[], some "define".toList, 1, none⟩
    let blocks : List (Block Unit) := [textBlock [word "int" 0, mark .space 1], define,
      textBlock [word "x" 2, mark semicolon 3, mark .ln 4, word "struct" 20], define,
      textBlock [mark .space 21, word "s" 22, mark semicolon 23]]
    KeepsTypes blocks [.decl variableDecl, .gap (mark .ln 4) (by decide), .decl structDecl] := by
  intro define blocks
  have separated : Separated false [.decl variableDecl, .gap (mark .ln 4) (by decide), .decl structDecl] :=
    ⟨.inr (by decide), rfl, trivial⟩
  exact ((keepsTypes_iff blocks _ rfl).2 (by decide)).2 separated

/-- `void f() {} struct s;` loses the type. -/
theorem not_keepsTypes_function :
    let pieces := [Piece.decl functionDecl, .gap (mark .space 8) (by decide), .decl structDecl]
    let blocks : List (Block Unit) := [textBlock (pieces.flatMap Piece.tokens)]
    removeVarsAndFuncs [] blocks = [] ∧ ¬ KeepsTypes blocks pieces := by
  intro pieces blocks
  refine ⟨by decide, fun keeps => ?_⟩
  obtain ⟨-, behind, -⟩ := separated_of_keepsTypes rfl (by decide) keeps
  cases behind

end Bionic.CppVars
