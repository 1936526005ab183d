import Mathlib.Data.Nat.Digits.Lemmas
import Mathlib.Data.Int.Notation
import Mathlib.Data.List.DropRight
import Mathlib.Tactic.Common

/-! # Conditions of a header (`libc/kernel/tools/cpp.py`)

`CppExpr` reads the tokens of a condition into a tree and prints the tree again.  The reader knows no precedences: an
operator gets all that follows it as its right operand.  The printer knows them, and puts parentheses around an operand
whose operator binds less tight.

The expressions that it supports are the `Chain`s: operands with binary operators between them, and spaces anywhere
but behind a sign.  On the tokens of a chain the reader returns its `node` (`cppExpr_chain`). -/

namespace Bionic.CppExpr

/-- `unaries`. -/
inductive Unary
  | not
  | compl
deriving DecidableEq, Repr

/-- `binaries`. -/
inductive Binary
  | add
  | sub
  | lt
  | le
  | ge
  | gt
  | logicAnd
  | logicOr
  | mul
  | div
  | mod
  | binAnd
  | binOr
  | binXor
  | shl
  | shr
  | eq
  | ne
deriving DecidableEq, Repr

/-- `precedences`, which has the order of the C grammar. -/
def Binary.prec : Binary → ℕ
  | logicOr => 1
  | logicAnd => 2
  | binOr => 3
  | binXor => 4
  | binAnd => 5
  | eq => 6
  | ne => 6
  | lt => 7
  | le => 7
  | gt => 7
  | ge => 7
  | shl => 8
  | shr => 8
  | add => 9
  | sub => 9
  | mul => 10
  | div => 10
  | mod => 10

def Unary.prec : Unary → ℕ
  | not => 11
  | compl => 12

/-- The base of a constant in C. -/
def base (hex : Bool) (digits : List ℕ) : ℕ :=
  if hex then 16 else if digits.head? = some 0 then 8 else 10

/-- A `tokNUMBER` that is an integer constant of C, with its digits behind `0x`, and whether its suffix has a `u`. -/
structure Number where
  hex : Bool
  digits : List ℕ
  unsigned : Bool
  ne_nil : digits ≠ []
  lt_base : ∀ d ∈ digits, d < base hex digits
deriving DecidableEq

/-- A token.  `space` is a `tokSPACE`, or a `tokLN`. -/
inductive Tok (ι : Type)
  | space (newline : Bool)
  | lparen
  | rparen
  | comma
  | unary (u : Unary)
  | op (o : Binary)
  | number (n : Number)
  | ident (x : ι)
  | defined
  | string
  | other
deriving DecidableEq

/-- The tree of an expression. -/
inductive Node (ι : Type)
  | int (z : ℤ)
  | hex (z : ℤ)
  | ident (x : ι)
  | defined (x : ι)
  | call (x : ι) (params : List (List (Tok ι)))
  | string
  | unary (u : Unary) (arg : Node ι)
  | binary (o : Binary) (arg₁ arg₂ : Node ι)

variable {ι : Type}

/-! ### The reader -/

def Tok.isSpace : Tok ι → Bool
  | space _ => true
  | _ => false

/-- `skip_spaces`. -/
def skipSpaces (toks : List (Tok ι)) : List (Tok ι) := toks.dropWhile Tok.isSpace

/-- The value that `is_decimal` and `is_hexadecimal` read. -/
def Number.atoi (n : Number) : ℕ := Nat.ofDigits (if n.hex then 16 else 10) n.digits.reverse

/-- `is_integer`, with the sign that `is_number` has seen. -/
def Number.node (negative : Bool) (n : Number) : Node ι :=
  let z : ℤ := if negative then -n.atoi else n.atoi
  if n.hex then .hex z else .int z

/-- `is_number`. -/
def isNumber : List (Tok ι) → Option (Node ι × List (Tok ι))
  | .op .sub :: .number n :: rest => some (n.node true, rest)
  | .op .add :: .number n :: rest => some (n.node false, rest)
  | .number n :: rest => some (n.node false, rest)
  | _ => none

/-- `is_defined`.  Where it raises an exception none of the other functions reads the tokens either. -/
def isDefined : List (Tok ι) → Option (Node ι × List (Tok ι))
  | .defined :: rest =>
      match skipSpaces rest with
      | .lparen :: rest =>
          match skipSpaces rest with
          | .ident x :: rest =>
              match skipSpaces rest with
              | .rparen :: rest => some (.defined x, rest)
              | _ => none
          | _ => none
      | .ident x :: rest => some (.defined x, rest)
      | _ => none
  | _ => none

/-- A parameter of a call, without the `tokSPACE`s around it. -/
def trim (param : List (Tok ι)) : List (Tok ι) :=
  let isTokSpace : Tok ι → Bool := fun
    | .space newline => !newline
    | _ => false
  ((param.dropWhile isTokSpace).reverse.dropWhile isTokSpace).reverse

/-- The loop over the parameters of a call, with the depth and the tokens of the parameter that is read. -/
def callParams : ℕ → List (Tok ι) → List (Tok ι) → Option (List (List (Tok ι)) × List (Tok ι))
  | _, _, [] => none
  | depth, param, .lparen :: rest => callParams (depth + 1) (param ++ [.lparen]) rest
  | depth, param, .comma :: rest =>
      if depth = 1 then (callParams depth [] rest).map fun (params, rest) => (trim param :: params, rest)
      else callParams depth (param ++ [.comma]) rest
  | depth, param, .rparen :: rest =>
      if depth = 1 then some ([trim param], rest) else callParams (depth - 1) (param ++ [.rparen]) rest
  | depth, param, t :: rest => callParams depth (param ++ [t]) rest

/-- `is_call_or_ident`. -/
def isCallOrIdent (toks : List (Tok ι)) : Option (Node ι × List (Tok ι)) :=
  match skipSpaces toks with
  | .ident x :: rest =>
      match skipSpaces rest with
      | .lparen :: rest => (callParams 1 [] rest).map fun (params, rest) => (.call x params, rest)
      | rest => some (.ident x, rest)
  | _ => none

/-- The loop of `is_value` that looks for the right parenthesis: the tokens before it, and those behind it. -/
def matching : ℕ → List (Tok ι) → Option (List (Tok ι) × List (Tok ι))
  | _, [] => none
  | popcount, .lparen :: rest => (matching (popcount + 1) rest).map fun (inner, rest) => (.lparen :: inner, rest)
  | popcount, .rparen :: rest =>
      if popcount = 1 then some ([], rest)
      else (matching (popcount - 1) rest).map fun (inner, rest) => (.rparen :: inner, rest)
  | popcount, t :: rest => (matching popcount rest).map fun (inner, rest) => (t :: inner, rest)

mutual

/-- `is_value`.  The first argument of each of the three functions bounds the calls. -/
def isValue : ℕ → List (Tok ι) → Option (Node ι × List (Tok ι))
  | 0, _ => none
  | _ + 1, .string :: rest => some (.string, rest)
  | fuel + 1, toks =>
      isNumber toks <|> isDefined toks <|> isCallOrIdent toks <|>
        match skipSpaces toks with
        | .lparen :: rest =>
            match matching 1 rest with
            | none => none
            | some (inner, rest) => (isBinary fuel inner).map fun (e, _) => (e, rest)
        | _ => none

/-- `is_unary`. -/
def isUnary : ℕ → List (Tok ι) → Option (Node ι × List (Tok ι))
  | 0, _ => none
  | fuel + 1, toks =>
      match skipSpaces toks with
      | [] => none
      | .unary u :: rest => (isUnary fuel rest).map fun (e, rest) => (.unary u e, rest)
      | toks => isValue fuel toks

/-- `is_binary`, which is `is_expr`. -/
def isBinary : ℕ → List (Tok ι) → Option (Node ι × List (Tok ι))
  | 0, _ => none
  | fuel + 1, toks =>
      match isUnary fuel (skipSpaces toks) with
      | none => none
      | some (e₁, rest) =>
          match skipSpaces rest with
          | [] => some (e₁, rest)
          | .op o :: rest => (isBinary fuel rest).map fun (e₂, rest) => (.binary o e₁ e₂, rest)
          | _ => none

end

/-- The tree of `CppExpr(tokens)`. -/
def cppExpr (toks : List (Tok ι)) : Option (Node ι) := (isBinary (3 * toks.length + 1) toks).map Prod.fst

/-! ### The printer -/

/-- The precedence of the operator of a tree. -/
def Node.prec : Node ι → ℕ
  | unary u _ => u.prec
  | binary o _ _ => o.prec
  | _ => 1000

theorem digits_reverse_lt_base (b n : ℕ) (hb : 1 < b) : ∀ d ∈ (Nat.digits b n).reverse, d < b := by
  intro d hd
  exact Nat.digits_lt_base hb (List.mem_reverse.1 hd)

/-- The first digit of a number but zero. -/
theorem head?_digits_ne_zero (b n : ℕ) : ((Nat.digits b n).reverse).head? ≠ some 0 := by
  intro h
  rw [List.head?_reverse] at h
  by_cases hn : n = 0
  · rw [hn, Nat.digits_zero] at h
    cases h
  · have ne : Nat.digits b n ≠ [] := Nat.digits_ne_nil_iff_ne_zero.2 hn
    rw [List.getLast?_eq_some_getLast ne] at h
    exact Nat.getLast_digit_ne_zero b hn (Option.some.inj h)

/-- `%d`, for a number that is not negative. -/
def Number.decimal (n : ℕ) : Number where
  hex := false
  digits := if n = 0 then [0] else (Nat.digits 10 n).reverse
  unsigned := false
  ne_nil := by
    split
    · exact List.cons_ne_nil 0 []
    · next hn => exact fun h => hn (Nat.digits_eq_nil_iff_eq_zero.1 (List.reverse_eq_nil_iff.1 h))
  lt_base := by
    intro d hd
    split at hd
    · next hn =>
      rw [if_pos hn, List.mem_singleton.1 hd]
      decide
    · next hn =>
      rw [if_neg hn, base, if_neg Bool.false_ne_true, if_neg (head?_digits_ne_zero 10 n)]
      exact digits_reverse_lt_base 10 n (by decide) d hd

/-- `%x`, for a number that is not negative. -/
def Number.hexadecimal (n : ℕ) : Number where
  hex := true
  digits := if n = 0 then [0] else (Nat.digits 16 n).reverse
  unsigned := false
  ne_nil := by
    split
    · exact List.cons_ne_nil 0 []
    · next hn => exact fun h => hn (Nat.digits_eq_nil_iff_eq_zero.1 (List.reverse_eq_nil_iff.1 h))
  lt_base := by
    intro d hd
    split at hd
    · rw [List.mem_singleton.1 hd]
      exact Nat.succ_pos 15
    · exact digits_reverse_lt_base 16 n (by decide) d hd

/-- `source_node`, as tokens.  The text of a negative `hex` has its sign behind `0x`, as in `0x-10`, and is no number;
that of a call, or of a string, is `???`. -/
def Node.sourceNode : Node ι → List (Tok ι)
  | int z => if z < 0 then [.op .sub, .number (.decimal z.natAbs)] else [.number (.decimal z.natAbs)]
  | hex z => if z < 0 then [.other, .op .sub, .other] else [.number (.hexadecimal z.natAbs)]
  | ident x => [.ident x]
  | defined x => [.defined, .lparen, .ident x, .rparen]
  | call _ _ => [.other]
  | string => [.other]
  | unary u arg =>
      if arg.prec < u.prec then .unary .not :: .lparen :: (arg.sourceNode ++ [.rparen])
      else .unary .not :: arg.sourceNode
  | binary o arg₁ arg₂ =>
      (if arg₁.prec < o.prec then .lparen :: (arg₁.sourceNode ++ [.rparen]) else arg₁.sourceNode) ++
        .space false :: .op o :: .space false ::
          (if arg₂.prec < o.prec then .lparen :: (arg₂.sourceNode ++ [.rparen]) else arg₂.sourceNode)

/-! ### The expressions -/

/-- The sign of a constant. -/
inductive Sign
  | none
  | plus
  | minus
deriving DecidableEq, Repr

mutual

/-- An operand, with the spaces in it. -/
inductive Operand (ι : Type)
  | literal (sign : Sign) (n : Number)
  | ident (x : ι)
  | defined (s : List Bool) (x : ι)
  | definedParen (s₁ s₂ : List Bool) (x : ι) (s₃ : List Bool)
  | unary (u : Unary) (s : List Bool) (o : Operand ι)
  | paren (s₁ : List Bool) (c : Chain ι) (s₂ : List Bool)

/-- Operands with binary operators between them. -/
inductive Chain (ι : Type)
  | one (o : Operand ι)
  | cons (o : Operand ι) (s₁ : List Bool) (op : Binary) (s₂ : List Bool) (rest : Chain ι)

end

def spaces (s : List Bool) : List (Tok ι) := s.map .space

def Sign.flatten : Sign → List (Tok ι)
  | none => []
  | plus => [.op .add]
  | minus => [.op .sub]

mutual

/-- The tokens of an operand. -/
def Operand.flatten : Operand ι → List (Tok ι)
  | .literal sign n => sign.flatten ++ [.number n]
  | .ident x => [.ident x]
  | .defined s x => .defined :: (spaces s ++ [.ident x])
  | .definedParen s₁ s₂ x s₃ =>
      .defined :: (spaces s₁ ++ .lparen :: (spaces s₂ ++ .ident x :: (spaces s₃ ++ [.rparen])))
  | .unary u s o => .unary u :: (spaces s ++ o.flatten)
  | .paren s₁ c s₂ => .lparen :: (spaces s₁ ++ (c.flatten ++ (spaces s₂ ++ [.rparen])))

/-- The tokens of a chain. -/
def Chain.flatten : Chain ι → List (Tok ι)
  | .one o => o.flatten
  | .cons o s₁ op s₂ rest => o.flatten ++ (spaces s₁ ++ .op op :: (spaces s₂ ++ rest.flatten))

end

mutual

/-- The tree that the reader makes of an operand. -/
def Operand.node : Operand ι → Node ι
  | .literal sign n => n.node (sign = .minus)
  | .ident x => .ident x
  | .defined _ x => .defined x
  | .definedParen _ _ x _ => .defined x
  | .unary u _ o => .unary u o.node
  | .paren _ c _ => c.node

def Chain.node : Chain ι → Node ι
  | .one o => o.node
  | .cons o _ op _ rest => .binary op o.node rest.node

end

mutual

/-- The calls that the reader makes on an operand, below `is_unary`. -/
def Operand.size : Operand ι → ℕ
  | .unary _ _ o => o.size + 1
  | .paren _ c _ => c.size + 2
  | _ => 2

def Chain.size : Chain ι → ℕ
  | .one o => o.size + 1
  | .cons o _ _ _ rest => o.size + rest.size + 1

end

section Spaces

@[simp]
theorem skipSpaces_spaces (s : List Bool) (l : List (Tok ι)) : skipSpaces (spaces s ++ l) = skipSpaces l := by
  induction s with
  | nil => rfl
  | cons b s ih => exact ih

theorem skipSpaces_idem (l : List (Tok ι)) : skipSpaces (skipSpaces l) = skipSpaces l :=
  List.dropWhile_idempotent Tok.isSpace l

theorem skipSpaces_all (s : List Bool) : skipSpaces (spaces s : List (Tok ι)) = [] := by
  have all := skipSpaces_spaces s ([] : List (Tok ι))
  rwa [List.append_nil] at all

theorem skipSpaces_cons {t : Tok ι} (h : t.isSpace = false) (l : List (Tok ι)) : skipSpaces (t :: l) = t :: l :=
  List.dropWhile_cons_of_neg (by rw [h]; decide)

/-- An operand starts with a token that is no space. -/
theorem exists_flatten (o : Operand ι) : ∃ t rest, o.flatten = t :: rest ∧ t.isSpace = false := by
  cases o with
  | literal sign n => cases sign <;> exact ⟨_, _, rfl, rfl⟩
  | ident x => exact ⟨_, _, rfl, rfl⟩
  | defined s x => exact ⟨_, _, rfl, rfl⟩
  | definedParen s₁ s₂ x s₃ => exact ⟨_, _, rfl, rfl⟩
  | unary u s o => exact ⟨_, _, rfl, rfl⟩
  | paren s₁ c s₂ => exact ⟨_, _, rfl, rfl⟩

@[simp]
theorem skipSpaces_operand (o : Operand ι) (l : List (Tok ι)) : skipSpaces (o.flatten ++ l) = o.flatten ++ l := by
  obtain ⟨t, rest, flat, notSpace⟩ := exists_flatten o
  rw [flat, List.cons_append, skipSpaces_cons notSpace]

@[simp]
theorem skipSpaces_chain (c : Chain ι) (l : List (Tok ι)) : skipSpaces (c.flatten ++ l) = c.flatten ++ l := by
  cases c with
  | one o => exact skipSpaces_operand o l
  | cons o s₁ op s₂ rest => rw [Chain.flatten, List.append_assoc, skipSpaces_operand]

end Spaces

section Matching

theorem matching_spaces (d : ℕ) (s : List Bool) (l : List (Tok ι)) :
    matching d (spaces s ++ l) = (matching d l).map fun (inner, rest) => (spaces s ++ inner, rest) := by
  induction s with
  | nil => cases h : matching d l <;> simp [spaces, h]
  | cons b s ih =>
      have step : matching d (spaces (b :: s) ++ l) =
          (matching d (spaces s ++ l)).map fun (inner, rest) => (.space b :: inner, rest) := rfl
      rw [step, ih, Option.map_map]
      rfl

mutual

/-- The search for the right parenthesis runs over whole operands. -/
theorem matching_operand (o : Operand ι) (d : ℕ) (l : List (Tok ι)) :
    matching (d + 1) (o.flatten ++ l) =
      (matching (d + 1) l).map fun (inner, rest) => (o.flatten ++ inner, rest) := by
  match o with
  | .literal sign n =>
      cases sign <;> simp [Operand.flatten, Sign.flatten, matching, Function.comp_def]
  | .ident x => simp [Operand.flatten, matching]
  | .defined s x => simp [Operand.flatten, matching, matching_spaces, Function.comp_def]
  | .definedParen s₁ s₂ x s₃ => simp [Operand.flatten, matching, matching_spaces, Function.comp_def]
  | .unary u s o => simp [Operand.flatten, matching, matching_spaces, matching_operand o d, Function.comp_def]
  | .paren s₁ c s₂ =>
      simp [Operand.flatten, matching, matching_spaces, matching_chain c (d + 1), Function.comp_def]

theorem matching_chain (c : Chain ι) (d : ℕ) (l : List (Tok ι)) :
    matching (d + 1) (c.flatten ++ l) =
      (matching (d + 1) l).map fun (inner, rest) => (c.flatten ++ inner, rest) := by
  match c with
  | .one o => exact matching_operand o d l
  | .cons o s₁ op s₂ rest =>
      simp [Chain.flatten, matching, matching_spaces, matching_operand o d, matching_chain rest d, Function.comp_def]

end

/-- From behind the left parenthesis to the right one. -/
theorem matching_paren (s₁ : List Bool) (c : Chain ι) (s₂ : List Bool) (l : List (Tok ι)) :
    matching 1 (spaces s₁ ++ (c.flatten ++ (spaces s₂ ++ .rparen :: l))) =
      some (spaces s₁ ++ (c.flatten ++ spaces s₂), l) := by
  simp [matching_spaces, matching_chain c 0, matching]

end Matching

section Reader

mutual

theorem operand_size_le (o : Operand ι) : o.size + 1 ≤ 3 * o.flatten.length := by
  match o with
  | .literal sign n => cases sign <;> simp [Operand.size, Operand.flatten, Sign.flatten]
  | .ident x => simp [Operand.size, Operand.flatten]
  | .defined s x => simp [Operand.size, Operand.flatten]
  | .definedParen s₁ s₂ x s₃ => simp [Operand.size, Operand.flatten]
  | .unary u s o =>
      have := operand_size_le o
      simp [Operand.size, Operand.flatten]
      omega
  | .paren s₁ c s₂ =>
      have := chain_size_le c
      simp [Operand.size, Operand.flatten]
      omega

theorem chain_size_le (c : Chain ι) : c.size ≤ 3 * c.flatten.length := by
  match c with
  | .one o => exact operand_size_le o
  | .cons o s₁ op s₂ rest =>
      have := operand_size_le o
      have := chain_size_le rest
      simp [Chain.size, Chain.flatten]
      omega

end

/-- The tokens that may stand behind an operand. -/
def Ends (l : List (Tok ι)) : Prop := ∀ rest, skipSpaces l ≠ .lparen :: rest

/-- What `is_unary` does on spaces, and on the tokens behind them. -/
theorem isUnary_spaces (fuel : ℕ) (s : List Bool) (l : List (Tok ι)) :
    isUnary fuel (spaces s ++ l) = isUnary fuel l := by
  cases fuel with
  | zero => rfl
  | succ fuel => rw [isUnary, isUnary, skipSpaces_spaces]

theorem isUnary_skipSpaces (fuel : ℕ) (l : List (Tok ι)) : isUnary fuel (skipSpaces l) = isUnary fuel l := by
  cases fuel with
  | zero => rfl
  | succ fuel => rw [isUnary, isUnary, skipSpaces_idem]

theorem isUnary_value {t : Tok ι} (notSpace : t.isSpace = false) (notUnary : ∀ u, t ≠ .unary u) (fuel : ℕ)
    (l : List (Tok ι)) : isUnary (fuel + 1) (t :: l) = isValue fuel (t :: l) := by
  rw [isUnary, skipSpaces_cons notSpace]
  cases t <;> first | rfl | exact absurd rfl (notUnary _)

theorem isValue_cons {t : Tok ι} (notString : t ≠ .string) (fuel : ℕ) (l : List (Tok ι)) :
    isValue (fuel + 1) (t :: l) =
      (isNumber (t :: l) <|> isDefined (t :: l) <|> isCallOrIdent (t :: l) <|>
        match skipSpaces (t :: l) with
        | .lparen :: rest =>
            match matching 1 rest with
            | none => none
            | some (inner, rest) => (isBinary fuel inner).map fun (e, _) => (e, rest)
        | _ => none) := by
  cases t <;> first | rfl | exact absurd rfl notString

theorem isDefined_plain (s : List Bool) (x : ι) (l : List (Tok ι)) :
    isDefined (.defined :: (spaces s ++ .ident x :: l)) = some (.defined x, l) := by
  rw [isDefined, skipSpaces_spaces, skipSpaces_cons rfl]

theorem isDefined_paren (s₁ s₂ : List Bool) (x : ι) (s₃ : List Bool) (l : List (Tok ι)) :
    isDefined (.defined :: (spaces s₁ ++ .lparen :: (spaces s₂ ++ .ident x :: (spaces s₃ ++ .rparen :: l)))) =
      some (.defined x, l) := by
  rw [isDefined, skipSpaces_spaces, skipSpaces_cons rfl]
  dsimp only
  rw [skipSpaces_spaces, skipSpaces_cons rfl]
  dsimp only
  rw [skipSpaces_spaces, skipSpaces_cons rfl]

theorem isCallOrIdent_ident (x : ι) {l : List (Tok ι)} (ends : Ends l) :
    isCallOrIdent (.ident x :: l) = some (.ident x, skipSpaces l) := by
  rw [isCallOrIdent, skipSpaces_cons rfl]
  dsimp only
  split
  · next rest h => exact absurd h (ends rest)
  · rfl

mutual

/-- `is_unary` reads an operand. -/
theorem isUnary_operand (o : Operand ι) {fuel : ℕ} (hfuel : o.size ≤ fuel) {l : List (Tok ι)} (ends : Ends l) :
    ∃ l', isUnary fuel (o.flatten ++ l) = some (o.node, l') ∧ skipSpaces l' = skipSpaces l := by
  match o with
  | .literal sign n =>
      obtain ⟨fuel, rfl⟩ : ∃ k, fuel = k + 2 := Nat.exists_eq_add_of_le' hfuel
      cases sign <;> exact ⟨l, rfl, rfl⟩
  | .ident x =>
      obtain ⟨fuel, rfl⟩ : ∃ k, fuel = k + 2 := Nat.exists_eq_add_of_le' hfuel
      refine ⟨skipSpaces l, ?_, skipSpaces_idem l⟩
      rw [Operand.flatten, List.singleton_append, isUnary_value rfl (by rintro u ⟨⟩),
        isValue_cons (by rintro ⟨⟩), isCallOrIdent_ident x ends]
      rfl
  | .defined s x =>
      obtain ⟨fuel, rfl⟩ : ∃ k, fuel = k + 2 := Nat.exists_eq_add_of_le' hfuel
      refine ⟨l, ?_, rfl⟩
      rw [Operand.flatten, List.cons_append, List.append_assoc, isUnary_value rfl (by rintro u ⟨⟩),
        isValue_cons (by rintro ⟨⟩), List.singleton_append, isDefined_plain]
      rfl
  | .definedParen s₁ s₂ x s₃ =>
      obtain ⟨fuel, rfl⟩ : ∃ k, fuel = k + 2 := Nat.exists_eq_add_of_le' hfuel
      refine ⟨l, ?_, rfl⟩
      have flat : (Operand.definedParen s₁ s₂ x s₃).flatten ++ l =
          .defined :: (spaces s₁ ++ .lparen :: (spaces s₂ ++ .ident x :: (spaces s₃ ++ .rparen :: l))) := by
        simp [Operand.flatten]
      rw [flat, isUnary_value rfl (by rintro u ⟨⟩), isValue_cons (by rintro ⟨⟩), isDefined_paren]
      rfl
  | .unary u s o =>
      obtain ⟨fuel, rfl⟩ : ∃ k, fuel = k + 1 := Nat.exists_eq_add_of_le' (Nat.le_trans (Nat.le_add_left 1 _) hfuel)
      obtain ⟨l', read, skip⟩ := isUnary_operand o (Nat.le_of_succ_le_succ hfuel) ends
      refine ⟨l', ?_, skip⟩
      rw [Operand.flatten, List.cons_append, List.append_assoc, isUnary, skipSpaces_cons rfl]
      dsimp only
      rw [isUnary_spaces, read]
      rfl
  | .paren s₁ c s₂ =>
      obtain ⟨fuel, rfl⟩ : ∃ k, fuel = k + 2 := Nat.exists_eq_add_of_le' (Nat.le_trans (Nat.le_add_left 2 _) hfuel)
      obtain ⟨l', read⟩ := isBinary_chain c (Nat.le_of_add_le_add_right hfuel) s₁ (skipSpaces_all s₂)
      refine ⟨l, ?_, rfl⟩
      have flat : (Operand.paren s₁ c s₂).flatten ++ l =
          .lparen :: (spaces s₁ ++ (c.flatten ++ (spaces s₂ ++ .rparen :: l))) := by
        simp [Operand.flatten]
      rw [flat, isUnary_value rfl (by rintro u ⟨⟩), isValue_cons (by rintro ⟨⟩), skipSpaces_cons rfl]
      dsimp only
      rw [matching_paren]
      dsimp only
      rw [read]
      rfl

/-- `is_binary` reads a chain, if nothing but spaces follows. -/
theorem isBinary_chain (c : Chain ι) {fuel : ℕ} (hfuel : c.size ≤ fuel) (s : List Bool) {l : List (Tok ι)}
    (hl : skipSpaces l = []) : ∃ l', isBinary fuel (spaces s ++ (c.flatten ++ l)) = some (c.node, l') := by
  match c with
  | .one o =>
      obtain ⟨fuel, rfl⟩ : ∃ k, fuel = k + 1 := Nat.exists_eq_add_of_le' (Nat.le_trans (Nat.le_add_left 1 _) hfuel)
      have ends : Ends l := by
        intro rest h
        rw [hl] at h
        cases h
      obtain ⟨l', read, skip⟩ := isUnary_operand o (Nat.le_of_succ_le_succ hfuel) ends
      refine ⟨l', ?_⟩
      rw [isBinary, isUnary_skipSpaces, isUnary_spaces, Chain.flatten, read]
      dsimp only
      rw [skip, hl]
      rfl
  | .cons o s₁ op s₂ rest =>
      obtain ⟨fuel, rfl⟩ : ∃ k, fuel = k + 1 := Nat.exists_eq_add_of_le' (Nat.le_trans (Nat.le_add_left 1 _) hfuel)
      have hsize : o.size + rest.size ≤ fuel := Nat.le_of_succ_le_succ hfuel
      have next : skipSpaces (spaces s₁ ++ .op op :: (spaces s₂ ++ (rest.flatten ++ l))) =
          .op op :: (spaces s₂ ++ (rest.flatten ++ l)) := by
        rw [skipSpaces_spaces, skipSpaces_cons rfl]
      have ends : Ends (spaces s₁ ++ .op op :: (spaces s₂ ++ (rest.flatten ++ l))) := by
        intro rest' h
        rw [next] at h
        cases h
      have ho : o.size ≤ fuel := by omega
      obtain ⟨l', read, skip⟩ := isUnary_operand o ho ends
      have hrest : rest.size ≤ fuel := by omega
      obtain ⟨l'', readRest⟩ := isBinary_chain rest hrest s₂ hl
      refine ⟨l'', ?_⟩
      have flat : (Chain.cons o s₁ op s₂ rest).flatten ++ l =
          o.flatten ++ (spaces s₁ ++ .op op :: (spaces s₂ ++ (rest.flatten ++ l))) := by
        simp [Chain.flatten]
      rw [isBinary, isUnary_skipSpaces, isUnary_spaces, flat, read]
      dsimp only
      rw [skip, next]
      dsimp only
      rw [readRest]
      rfl

end

/-- The reader returns the tree of an expression, with the spaces before and behind it. -/
theorem cppExpr_chain (c : Chain ι) (s s' : List Bool) :
    cppExpr (spaces s ++ (c.flatten ++ spaces s')) = some c.node := by
  have size := chain_size_le c
  have hfuel : c.size ≤ 3 * (spaces s ++ (c.flatten ++ spaces s')).length + 1 := by
    simp only [List.length_append]
    omega
  obtain ⟨l', read⟩ := isBinary_chain c hfuel s (skipSpaces_all s')
  rw [cppExpr, read]
  rfl

end Reader

end Bionic.CppExpr
