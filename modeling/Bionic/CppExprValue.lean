import Bionic.CppExpr
import Bionic.OperatorPrecedence

/-! # The value of a condition that was read and printed

The value of a condition is that of C, whose operators have precedences and group to the left (`cValue`).  A macro
stands for a value, and a name that is no macro for `0`.

What `CppExpr` prints is an expression again (`sourceNode_flatten`), but often another one.  `value_cppExpr` gives the
conditions that keep their value: the precedences of the operators never decrease from left to right, and where the
printer leaves out parentheses, the operators in them may follow the one in front of them (`Chain.Kept`). -/

namespace Bionic.CppExpr

open OperatorPrecedence

variable {ι : Type}

/-! ### Values -/

/-- A value of `#if`, of the type `intmax_t` or `uintmax_t`. -/
structure Value where
  bits : BitVec 64
  unsigned : Bool
deriving DecidableEq

def Value.truth (v : Value) : Bool := v.bits ≠ 0#64

def Value.ofBool (b : Bool) : Value := ⟨if b then 1#64 else 0#64, false⟩

/-- An operator that has the values of both operands.  There is none where C leaves it open, but for the overflow of
`intmax_t`, which wraps around. -/
def Binary.apply (o : Binary) (x y : Value) : Option Value :=
  let unsigned := x.unsigned || y.unsigned
  match o with
  | add => some ⟨x.bits + y.bits, unsigned⟩
  | sub => some ⟨x.bits - y.bits, unsigned⟩
  | mul => some ⟨x.bits * y.bits, unsigned⟩
  | div => if y.bits = 0#64 then none else some ⟨if unsigned then x.bits.udiv y.bits else x.bits.sdiv y.bits, unsigned⟩
  | mod => if y.bits = 0#64 then none else some ⟨if unsigned then x.bits.umod y.bits else x.bits.srem y.bits, unsigned⟩
  | binAnd => some ⟨x.bits &&& y.bits, unsigned⟩
  | binOr => some ⟨x.bits ||| y.bits, unsigned⟩
  | binXor => some ⟨x.bits ^^^ y.bits, unsigned⟩
  | shl => if y.bits.toNat < 64 then some ⟨x.bits <<< y.bits.toNat, x.unsigned⟩ else none
  | shr =>
      if y.bits.toNat < 64 then
        some ⟨if x.unsigned then x.bits >>> y.bits.toNat else x.bits.sshiftRight y.bits.toNat, x.unsigned⟩
      else none
  | lt => some (.ofBool (if unsigned then x.bits.ult y.bits else x.bits.slt y.bits))
  | le => some (.ofBool (if unsigned then x.bits.ule y.bits else x.bits.sle y.bits))
  | gt => some (.ofBool (if unsigned then y.bits.ult x.bits else y.bits.slt x.bits))
  | ge => some (.ofBool (if unsigned then y.bits.ule x.bits else y.bits.sle x.bits))
  | eq => some (.ofBool (x.bits = y.bits))
  | ne => some (.ofBool (x.bits ≠ y.bits))
  | logicAnd => some (.ofBool (x.truth && y.truth))
  | logicOr => some (.ofBool (x.truth || y.truth))

/-- The right operand of `&&` and of `||` is not always evaluated. -/
def Binary.eval (o : Binary) (a b : Option Value) : Option Value :=
  match o with
  | logicAnd => a.bind fun x => if x.truth then b.map fun y => .ofBool y.truth else some (.ofBool false)
  | logicOr => a.bind fun x => if x.truth then some (.ofBool true) else b.map fun y => .ofBool y.truth
  | o => a.bind fun x => b.bind fun y => o.apply x y

def Unary.eval (u : Unary) (a : Option Value) : Option Value :=
  match u with
  | not => a.map fun x => .ofBool (!x.truth)
  | compl => a.map fun x => ⟨~~~x.bits, x.unsigned⟩

def negate (a : Option Value) : Option Value := a.map fun x => ⟨-x.bits, x.unsigned⟩

/-- The number that C reads. -/
def Number.magnitude (n : Number) : ℕ := Nat.ofDigits (base n.hex n.digits) n.digits.reverse

/-- A constant that does not fit into `uintmax_t` has no value. -/
def Number.value (n : Number) : Option Value :=
  if n.magnitude < 2 ^ 64 then some ⟨BitVec.ofNat 64 n.magnitude, n.unsigned || 2 ^ 63 ≤ n.magnitude⟩ else none

/-- The macros that are defined, with their values. -/
abbrev Macros (ι : Type) := ι → Option Value

def Macros.ident (env : Macros ι) (x : ι) : Option Value := some ((env x).getD (.ofBool false))

def Macros.defined (env : Macros ι) (x : ι) : Option Value := some (.ofBool (env x).isSome)

/-! ### Reading in C -/

mutual

/-- An operand, and the tokens behind it. -/
def cOperand (env : Macros ι) : ℕ → List (Tok ι) → Option (Option Value × List (Tok ι))
  | 0, _ => none
  | fuel + 1, toks =>
      match skipSpaces toks with
      | .number n :: rest => some (n.value, rest)
      | .ident x :: rest => some (env.ident x, rest)
      | .defined :: rest =>
          match isDefined (.defined :: rest) with
          | some (.defined x, rest) => some (env.defined x, rest)
          | _ => none
      | .unary u :: rest => (cOperand env fuel rest).map fun (a, rest) => (u.eval a, rest)
      | .op .sub :: rest => (cOperand env fuel rest).map fun (a, rest) => (negate a, rest)
      | .op .add :: rest => cOperand env fuel rest
      | .lparen :: rest =>
          match cChain env fuel rest with
          | none => none
          | some (a, rest) =>
              match skipSpaces rest with
              | .rparen :: rest => some (a, rest)
              | _ => none
      | _ => none

/-- An expression. -/
def cChain (env : Macros ι) : ℕ → List (Tok ι) → Option (Option Value × List (Tok ι))
  | 0, _ => none
  | fuel + 1, toks => (cOperand env fuel toks).bind fun (a, rest) => cRest env fuel [] a rest

/-- The operators behind the operand `a`. -/
def cRest (env : Macros ι) :
    ℕ → List (Option Value × Binary) → Option Value → List (Tok ι) → Option (Option Value × List (Tok ι))
  | 0, _, _, _ => none
  | fuel + 1, st, a, toks =>
      match skipSpaces toks with
      | .op o :: rest =>
          (cOperand env fuel rest).bind fun (b, rest) =>
            cRest env fuel
              (((reduce Binary.prec Binary.eval o.prec st a).2, o) :: (reduce Binary.prec Binary.eval o.prec st a).1)
              b rest
      | _ => some (close Binary.eval st a, toks)

end

/-- The value of a condition.  None if it is no expression. -/
def cValue (env : Macros ι) (toks : List (Tok ι)) : Option Value :=
  match cChain env (3 * toks.length + 1) toks with
  | none => none
  | some (a, rest) =>
      match skipSpaces rest with
      | [] => a
      | _ => none

mutual

/-- The value of an operand. -/
def Operand.value (env : Macros ι) : Operand ι → Option Value
  | .literal .minus n => negate n.value
  | .literal _ n => n.value
  | .ident x => env.ident x
  | .defined _ x => env.defined x
  | .definedParen _ _ x _ => env.defined x
  | .unary u _ o => u.eval (o.value env)
  | .paren _ c _ => climb Binary.prec Binary.eval [] (c.first env) (c.others env)

/-- The value of the first operand of a chain. -/
def Chain.first (env : Macros ι) : Chain ι → Option Value
  | .one o => o.value env
  | .cons o _ _ _ _ => o.value env

/-- The other ones, each with the operator in front of it. -/
def Chain.others (env : Macros ι) : Chain ι → List (Binary × Option Value)
  | .one _ => []
  | .cons _ _ op _ rest => (op, rest.first env) :: rest.others env

end

def Chain.value (env : Macros ι) (c : Chain ι) : Option Value :=
  climb Binary.prec Binary.eval [] (c.first env) (c.others env)

section Reading

variable {env : Macros ι}

/-- The tokens that may stand behind an expression. -/
def Stops (l : List (Tok ι)) : Prop := ∀ o rest, skipSpaces l ≠ .op o :: rest

theorem cOperand_spaces (fuel : ℕ) (s : List Bool) (l : List (Tok ι)) :
    cOperand env fuel (spaces s ++ l) = cOperand env fuel l := by
  cases fuel with
  | zero => rfl
  | succ fuel => rw [cOperand, cOperand, skipSpaces_spaces]

mutual

theorem cOperand_operand (o : Operand ι) {fuel : ℕ} (hfuel : o.size ≤ fuel) (l : List (Tok ι)) :
    cOperand env fuel (o.flatten ++ l) = some (o.value env, l) := by
  match o with
  | .literal sign n =>
      obtain ⟨fuel, rfl⟩ : ∃ k, fuel = k + 2 := Nat.exists_eq_add_of_le' hfuel
      cases sign <;> rfl
  | .ident x =>
      obtain ⟨fuel, rfl⟩ : ∃ k, fuel = k + 2 := Nat.exists_eq_add_of_le' hfuel
      rfl
  | .defined s x =>
      obtain ⟨fuel, rfl⟩ : ∃ k, fuel = k + 2 := Nat.exists_eq_add_of_le' hfuel
      rw [Operand.flatten, List.cons_append, List.append_assoc, List.singleton_append, cOperand, skipSpaces_cons rfl]
      dsimp only
      rw [isDefined_plain]
      rfl
  | .definedParen s₁ s₂ x s₃ =>
      obtain ⟨fuel, rfl⟩ : ∃ k, fuel = k + 2 := Nat.exists_eq_add_of_le' hfuel
      have flat : (Operand.definedParen s₁ s₂ x s₃).flatten ++ l =
          .defined :: (spaces s₁ ++ .lparen :: (spaces s₂ ++ .ident x :: (spaces s₃ ++ .rparen :: l))) := by
        simp [Operand.flatten]
      rw [flat, cOperand, skipSpaces_cons rfl]
      dsimp only
      rw [isDefined_paren]
      rfl
  | .unary u s o =>
      obtain ⟨fuel, rfl⟩ : ∃ k, fuel = k + 1 := Nat.exists_eq_add_of_le' (Nat.le_trans (Nat.le_add_left 1 _) hfuel)
      rw [Operand.flatten, List.cons_append, List.append_assoc, cOperand, skipSpaces_cons rfl]
      dsimp only
      rw [cOperand_spaces, cOperand_operand o (Nat.le_of_succ_le_succ hfuel)]
      rfl
  | .paren s₁ c s₂ =>
      obtain ⟨fuel, rfl⟩ : ∃ k, fuel = k + 2 := Nat.exists_eq_add_of_le' (Nat.le_trans (Nat.le_add_left 2 _) hfuel)
      have flat : (Operand.paren s₁ c s₂).flatten ++ l =
          .lparen :: (spaces s₁ ++ (c.flatten ++ (spaces s₂ ++ .rparen :: l))) := by
        simp [Operand.flatten]
      have next : skipSpaces (spaces s₂ ++ .rparen :: l) = .rparen :: l := by
        rw [skipSpaces_spaces, skipSpaces_cons rfl]
      have stops : Stops (spaces s₂ ++ .rparen :: l) := by
        intro o rest h
        rw [next] at h
        cases h
      have read := cRest_chain c (Nat.le_of_add_le_add_right hfuel) [] s₁ stops
      rw [flat, cOperand, skipSpaces_cons rfl]
      dsimp only
      rw [cChain, read]
      dsimp only
      rw [next]
      rfl

/-- From the first operand of a chain on, behind the operators of a stack. -/
theorem cRest_chain (c : Chain ι) {fuel : ℕ} (hfuel : c.size ≤ fuel) (st : List (Option Value × Binary)) (s : List Bool)
    {l : List (Tok ι)} (stops : Stops l) :
    ((cOperand env fuel (spaces s ++ (c.flatten ++ l))).bind fun (a, rest) => cRest env fuel st a rest) =
      some (climb Binary.prec Binary.eval st (c.first env) (c.others env), l) := by
  match c with
  | .one o =>
      obtain ⟨fuel, rfl⟩ : ∃ k, fuel = k + 1 := Nat.exists_eq_add_of_le' (Nat.le_trans (Nat.le_add_left 1 _) hfuel)
      rw [cOperand_spaces, Chain.flatten, cOperand_operand o (Nat.le_trans (Nat.le_add_right _ 1) hfuel),
        Option.bind_some]
      dsimp only
      rw [cRest]
      split
      · next o' rest h => exact absurd h (stops o' rest)
      · rfl
  | .cons o s₁ op s₂ rest =>
      obtain ⟨fuel, rfl⟩ : ∃ k, fuel = k + 1 := Nat.exists_eq_add_of_le' (Nat.le_trans (Nat.le_add_left 1 _) hfuel)
      have hsize : o.size + rest.size ≤ fuel := Nat.le_of_succ_le_succ hfuel
      have ho : o.size ≤ fuel + 1 := by omega
      have hrest : rest.size ≤ fuel := by omega
      have flat : (Chain.cons o s₁ op s₂ rest).flatten ++ l =
          o.flatten ++ (spaces s₁ ++ .op op :: (spaces s₂ ++ (rest.flatten ++ l))) := by
        simp [Chain.flatten]
      rw [cOperand_spaces, flat, cOperand_operand o ho, Option.bind_some]
      dsimp only
      rw [cRest, skipSpaces_spaces, skipSpaces_cons rfl]
      exact cRest_chain rest hrest _ s₂ stops

end

/-- The value of an expression, with the spaces before and behind it. -/
theorem cValue_chain (c : Chain ι) (s s' : List Bool) :
    cValue env (spaces s ++ (c.flatten ++ spaces s')) = c.value env := by
  have stops : Stops (spaces s' : List (Tok ι)) := by
    intro o rest h
    rw [skipSpaces_all] at h
    cases h
  have size := chain_size_le c
  have hfuel : c.size ≤ 3 * (spaces s ++ (c.flatten ++ spaces s')).length := by
    simp only [List.length_append]
    omega
  rw [cValue, cChain, cRest_chain c hfuel [] s stops]
  dsimp only
  rw [skipSpaces_all]
  rfl

end Reading

/-! ### What is printed -/

/-- The operators of precedence `p` at the top of a tree. -/
def Node.level (p : ℕ) : Node ι → List Binary
  | .binary o arg₁ arg₂ => if o.prec = p then o :: (arg₁.level p ++ arg₂.level p) else []
  | _ => []

/-- `a o (x o' y)` is `(a o x) o' y`, for operators of one precedence. -/
def Binary.associates : Binary → Binary → Bool
  | add, add => true
  | add, sub => true
  | mul, mul => true
  | binAnd, binAnd => true
  | binOr, binOr => true
  | binXor, binXor => true
  | logicAnd, logicAnd => true
  | logicOr, logicOr => true
  | _, _ => false

/-- The tree needs no parentheses as the right operand of `o`. -/
def Bare (o : Binary) (e : Node ι) : Prop :=
  o.prec < e.prec ∨ o.prec = e.prec ∧ ∀ o' ∈ e.level e.prec, o.associates o' = true

/-- The constant keeps its value: it is no octal number with another value in base 10, its suffix does not matter, and
it is no negative hexadecimal number. -/
def Number.Kept (sign : Sign) (n : Number) : Prop :=
  n.atoi = n.magnitude ∧ (n.unsigned = true → 2 ^ 63 ≤ n.magnitude) ∧ (n.hex = true → sign = .minus → n.atoi = 0)

/-- The first operator of a chain. -/
def Chain.operator : Chain ι → Option Binary
  | .one _ => none
  | .cons _ _ op _ _ => some op

mutual

/-- The operand keeps its value. -/
def Operand.Kept : Operand ι → Prop
  | .literal sign n => n.Kept sign
  | .ident _ => True
  | .defined _ _ => True
  | .definedParen _ _ _ _ => True
  | .unary u _ o => u = .not ∧ o.Kept
  | .paren _ c _ => c.Kept none

/-- The chain keeps its value behind an operator: no operator binds less tight than the one in front of it, and an
operand whose parentheses are left out needs none. -/
def Chain.Kept : Option Binary → Chain ι → Prop
  | before, .one o => o.Kept ∧ ∀ b ∈ before, b.prec ≤ o.node.prec → Bare b o.node
  | before, .cons o _ op _ rest =>
      o.Kept ∧ (∀ b ∈ before, op.prec ≤ o.node.prec → Bare b o.node) ∧
        (∀ op' ∈ rest.operator, op.prec ≤ op'.prec) ∧ rest.Kept (some op)

end

def Chain.append : Chain ι → Binary → Chain ι → Chain ι
  | .one o, op, c => .cons o [false] op [false] c
  | .cons o s₁ op' s₂ rest, op, c => .cons o s₁ op' s₂ (rest.append op c)

/-- The chain of the tree `e`, as an operand of an operator of precedence `p`. -/
def Chain.wrap (c : Chain ι) (p : ℕ) (e : Node ι) : Chain ι := if e.prec < p then .one (.paren [] c []) else c

/-- A chain as one operand. -/
def Chain.operand : Chain ι → Operand ι
  | .one o => o
  | c => .paren [] c []

/-- The constant that is printed. -/
def Number.print (sign : Sign) (n : Number) : Operand ι :=
  .literal (if sign = .minus ∧ n.atoi ≠ 0 then .minus else .none) (if n.hex then .hexadecimal n.atoi else .decimal n.atoi)

mutual

/-- The expression that is printed. -/
def Operand.print : Operand ι → Chain ι
  | .literal sign n => .one (n.print sign)
  | .ident x => .one (.ident x)
  | .defined _ x => .one (.definedParen [] [] x [])
  | .definedParen _ _ x _ => .one (.definedParen [] [] x [])
  | .unary u _ o => .one (.unary .not [] (o.print.wrap u.prec o.node).operand)
  | .paren _ c _ => c.print

def Chain.print : Chain ι → Chain ι
  | .one o => o.print
  | .cons o _ op _ rest => (o.print.wrap op.prec o.node).append op (rest.print.wrap op.prec rest.node)

end

section Print

@[simp]
theorem append_flatten (c : Chain ι) (op : Binary) (c' : Chain ι) :
    (c.append op c').flatten = c.flatten ++ .space false :: .op op :: .space false :: c'.flatten := by
  cases c with
  | one o => simp [Chain.append, Chain.flatten, spaces]
  | cons o s₁ op' s₂ rest => simp [Chain.append, Chain.flatten, append_flatten rest]

theorem wrap_flatten (c : Chain ι) (p : ℕ) (e : Node ι) :
    (c.wrap p e).flatten = if e.prec < p then .lparen :: (c.flatten ++ [.rparen]) else c.flatten := by
  rw [Chain.wrap]
  split <;> simp [Chain.flatten, Operand.flatten, spaces]

theorem binary_prec_lt (o : Binary) : o.prec < 11 := by cases o <;> decide

mutual

/-- What has no binary operator at the top is printed as one operand. -/
theorem print_operand (o : Operand ι) (h : 11 ≤ o.node.prec) : ∃ o', o.print = .one o' := by
  match o with
  | .literal sign n => exact ⟨_, rfl⟩
  | .ident x => exact ⟨_, rfl⟩
  | .defined s x => exact ⟨_, rfl⟩
  | .definedParen s₁ s₂ x s₃ => exact ⟨_, rfl⟩
  | .unary u s o => exact ⟨_, rfl⟩
  | .paren s₁ c s₂ => exact print_chain c h

theorem print_chain (c : Chain ι) (h : 11 ≤ c.node.prec) : ∃ o', c.print = .one o' := by
  match c with
  | .one o => exact print_operand o h
  | .cons o s₁ op s₂ rest => exact absurd h (Nat.not_le.2 (binary_prec_lt op))

end

/-- The printer writes a constant that keeps its value. -/
theorem sourceNode_number {sign : Sign} {n : Number} (h : n.Kept sign) :
    (n.node (sign = .minus) : Node ι).sourceNode = (n.print sign : Operand ι).flatten := by
  obtain ⟨_, _, positive⟩ := h
  by_cases minus : sign = .minus
  · cases hhex : n.hex with
    | false =>
        by_cases zero : n.atoi = 0
        · simp [Number.node, Number.print, Node.sourceNode, Operand.flatten, Sign.flatten, hhex, minus, zero]
        · simp [Number.node, Number.print, Node.sourceNode, Operand.flatten, Sign.flatten, hhex, minus, zero]
    | true =>
        have zero := positive hhex minus
        simp [Number.node, Number.print, Node.sourceNode, Operand.flatten, Sign.flatten, hhex, minus, zero]
  · have natAbs : ¬ (n.atoi : ℤ) < 0 := by omega
    cases hhex : n.hex with
    | false =>
        simp [Number.node, Number.print, Node.sourceNode, Operand.flatten, Sign.flatten, hhex, minus, natAbs]
    | true =>
        simp [Number.node, Number.print, Node.sourceNode, Operand.flatten, Sign.flatten, hhex, minus, natAbs]

mutual

/-- The printer writes an expression. -/
theorem sourceNode_operand (o : Operand ι) (h : o.Kept) : o.node.sourceNode = o.print.flatten := by
  match o with
  | .literal sign n => exact sourceNode_number h
  | .ident x => rfl
  | .defined s x => rfl
  | .definedParen s₁ s₂ x s₃ => rfl
  | .unary u s o =>
      obtain ⟨rfl, kept⟩ := h
      have ih := sourceNode_operand o kept
      rw [Operand.node, Node.sourceNode, Operand.print, ih]
      split
      · next lt => simp [Chain.wrap, lt, Chain.operand, Chain.flatten, Operand.flatten, spaces]
      · next ge =>
        obtain ⟨o', print⟩ := print_operand o (Nat.not_lt.1 ge)
        simp [Chain.wrap, ge, print, Chain.operand, Chain.flatten, Operand.flatten, spaces]
  | .paren s₁ c s₂ => exact sourceNode_chain c none h

theorem sourceNode_chain (c : Chain ι) (before : Option Binary) (h : c.Kept before) :
    c.node.sourceNode = c.print.flatten := by
  match c with
  | .one o => exact sourceNode_operand o h.1
  | .cons o s₁ op s₂ rest =>
      rw [Chain.node, Node.sourceNode, Chain.print, append_flatten, wrap_flatten, wrap_flatten,
        sourceNode_operand o h.1, sourceNode_chain rest (some op) h.2.2.2]

end

end Print

/-! ### The value of what is printed -/

section Values

variable {env : Macros ι}

theorem magnitude_decimal (n : ℕ) : (Number.decimal n).magnitude = n := by
  by_cases hn : n = 0
  · rw [hn]
    rfl
  · have tens : base false (Nat.digits 10 n).reverse = 10 := by
      rw [base, if_neg Bool.false_ne_true, if_neg (head?_digits_ne_zero 10 n)]
    simp only [Number.magnitude, Number.decimal, if_neg hn, tens, List.reverse_reverse, Nat.ofDigits_digits]

theorem magnitude_hexadecimal (n : ℕ) : (Number.hexadecimal n).magnitude = n := by
  by_cases hn : n = 0
  · rw [hn]
    rfl
  · simp only [Number.magnitude, Number.hexadecimal, if_neg hn, base, if_true, List.reverse_reverse,
      Nat.ofDigits_digits]

theorem value_number {sign : Sign} {n : Number} (h : n.Kept sign) :
    (n.print sign : Operand ι).value env = (Operand.literal sign n).value env := by
  obtain ⟨same, suffix, _⟩ := h
  have printed : (if n.hex then Number.hexadecimal n.atoi else Number.decimal n.atoi).value = n.value := by
    have plain : ∀ m : Number, m.magnitude = n.magnitude → m.unsigned = false → m.value = n.value := by
      intro m hm unsigned
      rw [Number.value, Number.value, hm, unsigned]
      cases hn : n.unsigned with
      | false => rfl
      | true =>
          rw [decide_eq_true (suffix hn)]
          rfl
    split
    · exact plain _ (by rw [magnitude_hexadecimal, same]) rfl
    · exact plain _ (by rw [magnitude_decimal, same]) rfl
  by_cases minus : sign = .minus
  · by_cases zero : n.atoi = 0
    · have nothing : negate n.value = n.value := by
        rw [Number.value, ← same, zero]
        cases n.unsigned <;> rfl
      simp only [Number.print, minus, zero, ne_eq, not_true_eq_false, and_false, if_false, Operand.value]
      rw [nothing, ← printed, zero]
    · simp only [Number.print, minus, zero, ne_eq, not_false_eq_true, and_self, if_true, Operand.value, printed]
  · simp only [Number.print, minus, false_and, if_false]
    cases sign with
    | none => exact printed
    | plus => exact printed
    | minus => exact absurd rfl minus

theorem Value.truth_ofBool (b : Bool) : (Value.ofBool b).truth = b := by cases b <;> rfl

/-- Two operators that have the values of both operands, and compute their result from the bits of them. -/
theorem associates_bits {o o' : Binary} {f f' : BitVec 64 → BitVec 64 → BitVec 64}
    (ho : ∀ a b, o.eval a b = a.bind fun x => b.bind fun y => some ⟨f x.bits y.bits, x.unsigned || y.unsigned⟩)
    (ho' : ∀ a b, o'.eval a b = a.bind fun x => b.bind fun y => some ⟨f' x.bits y.bits, x.unsigned || y.unsigned⟩)
    (assoc : ∀ a x y, f a (f' x y) = f' (f a x) y) : Associates Binary.eval o o' := by
  intro a x y
  simp only [ho, ho']
  cases a with
  | none => rfl
  | some a =>
      cases x with
      | none => rfl
      | some x =>
          cases y with
          | none => rfl
          | some y => simp only [Option.bind_some, assoc, Bool.or_assoc]

theorem associates_logicAnd : Associates Binary.eval .logicAnd .logicAnd := by
  intro a x y
  cases a with
  | none => rfl
  | some a =>
      cases ha : a.truth with
      | false => simp [Binary.eval, ha, Value.truth_ofBool]
      | true =>
          cases x with
          | none => simp [Binary.eval, ha]
          | some x =>
              cases hx : x.truth with
              | false => simp [Binary.eval, hx, Value.truth_ofBool]
              | true => cases y <;> simp [Binary.eval, ha, hx, Value.truth_ofBool]

theorem associates_logicOr : Associates Binary.eval .logicOr .logicOr := by
  intro a x y
  cases a with
  | none => rfl
  | some a =>
      cases ha : a.truth with
      | true => simp [Binary.eval, ha, Value.truth_ofBool]
      | false =>
          cases x with
          | none => simp [Binary.eval, ha]
          | some x =>
              cases hx : x.truth with
              | true => simp [Binary.eval, hx, Value.truth_ofBool]
              | false => cases y <;> simp [Binary.eval, ha, hx, Value.truth_ofBool]

theorem associates_eval {o o' : Binary} (h : o.associates o' = true) : Associates Binary.eval o o' := by
  match o, o' with
  | .add, .add => exact associates_bits (fun _ _ => rfl) (fun _ _ => rfl) fun a x y => (BitVec.add_assoc a x y).symm
  | .add, .sub =>
      have assoc : ∀ a x y : BitVec 64, a + (x - y) = a + x - y := by
        intro a x y
        rw [BitVec.sub_eq_add_neg, BitVec.sub_eq_add_neg, BitVec.add_assoc]
      exact associates_bits (fun _ _ => rfl) (fun _ _ => rfl) assoc
  | .mul, .mul => exact associates_bits (fun _ _ => rfl) (fun _ _ => rfl) fun a x y => (BitVec.mul_assoc a x y).symm
  | .binAnd, .binAnd =>
      exact associates_bits (fun _ _ => rfl) (fun _ _ => rfl) fun a x y => (BitVec.and_assoc a x y).symm
  | .binOr, .binOr =>
      exact associates_bits (fun _ _ => rfl) (fun _ _ => rfl) fun a x y => (BitVec.or_assoc a x y).symm
  | .binXor, .binXor =>
      exact associates_bits (fun _ _ => rfl) (fun _ _ => rfl) fun a x y => (BitVec.xor_assoc a x y).symm
  | .logicAnd, .logicAnd => exact associates_logicAnd
  | .logicOr, .logicOr => exact associates_logicOr

/-- The operators that are printed outside of parentheses bind at least as tight as that of the tree. -/
def Heads (c : Chain ι) (e : Node ι) (env : Macros ι) : Prop :=
  ∀ x ∈ c.others env, e.prec ≤ x.1.prec ∧ (x.1.prec = e.prec → x.1 ∈ e.level e.prec)

theorem append_first (c : Chain ι) (op : Binary) (c' : Chain ι) : (c.append op c').first env = c.first env := by
  cases c <;> rfl

theorem append_others (c : Chain ι) (op : Binary) (c' : Chain ι) :
    (c.append op c').others env = c.others env ++ (op, c'.first env) :: c'.others env := by
  cases c with
  | one o => rfl
  | cons o s₁ op' s₂ rest =>
      simp only [Chain.append, Chain.others, append_others rest, append_first, List.cons_append]

/-- An operand of an operator of precedence `p`, printed. -/
theorem wrap_heads {c : Chain ι} {e : Node ι} (h : Heads c e env) (p : ℕ) {x : Binary × Option Value}
    (hx : x ∈ (c.wrap p e).others env) : p ≤ x.1.prec ∧ (x.1.prec = p → x.1 ∈ e.level p) := by
  rw [Chain.wrap] at hx
  split at hx
  · cases hx
  · next ge =>
    obtain ⟨le, level⟩ := h x hx
    refine ⟨by omega, fun eq => ?_⟩
    have top : e.prec = p := by omega
    rw [← top]
    exact level (by omega)

mutual

theorem heads_operand (o : Operand ι) : Heads o.print o.node env := by
  match o with
  | .literal sign n => exact fun x hx => nomatch hx
  | .ident x => exact fun x hx => nomatch hx
  | .defined s x => exact fun x hx => nomatch hx
  | .definedParen s₁ s₂ x s₃ => exact fun x hx => nomatch hx
  | .unary u s o => exact fun x hx => nomatch hx
  | .paren s₁ c s₂ => exact heads_chain c

theorem heads_chain (c : Chain ι) : Heads c.print c.node env := by
  match c with
  | .one o => exact heads_operand o
  | .cons o s₁ op s₂ rest =>
      intro x hx
      have level : (Chain.cons o s₁ op s₂ rest).node.level op.prec =
          op :: (o.node.level op.prec ++ rest.node.level op.prec) := if_pos rfl
      rw [Chain.print, append_others, List.mem_append, List.mem_cons] at hx
      show op.prec ≤ x.1.prec ∧ (x.1.prec = op.prec → x.1 ∈ (Chain.cons o s₁ op s₂ rest).node.level op.prec)
      rw [level, List.mem_cons, List.mem_append]
      obtain left | rfl | right := hx
      · obtain ⟨le, mem⟩ := wrap_heads (heads_operand o) op.prec left
        exact ⟨le, fun eq => .inr (.inl (mem eq))⟩
      · exact ⟨Nat.le_refl _, fun _ => .inl rfl⟩
      · obtain ⟨le, mem⟩ := wrap_heads (heads_chain rest) op.prec right
        exact ⟨le, fun eq => .inr (.inr (mem eq))⟩

end

/-- The operators of an operand that needs no parentheses follow the one in front of it. -/
theorem follows_of_bare {b : Binary} {e : Node ι} (bare : Bare b e) {c : Chain ι} (heads : Heads c e env)
    {x : Binary × Option Value} (hx : x ∈ c.others env) : Follows Binary.prec Binary.eval b x.1 := by
  obtain ⟨le, level⟩ := heads x hx
  obtain lt | ⟨eq, assoc⟩ := bare
  · exact .inl (Nat.lt_of_lt_of_le lt le)
  · obtain lt | same := Nat.lt_or_eq_of_le le
    · exact .inl (eq ▸ lt)
    · exact .inr ⟨eq.trans same, associates_eval (assoc x.1 (level same.symm))⟩

/-- Where the right operand of an operator stays in parentheses, it is one operand. -/
theorem kept_alone (env : Macros ι) {op : Binary} {rest : Chain ι} (h : rest.Kept (some op))
    (order : ∀ op' ∈ rest.operator, op.prec ≤ op'.prec) (lt : rest.node.prec < op.prec) :
    rest.Kept none ∧ rest.others env = [] := by
  cases rest with
  | one o => exact ⟨⟨h.1, fun b hb => nomatch hb⟩, rfl⟩
  | cons o s₁ op' s₂ rest => exact absurd lt (Nat.not_lt.2 (order op' rfl))

mutual

/-- An operand that keeps its value. -/
theorem value_print (o : Operand ι) (h : o.Kept) : o.print.value env = o.value env := by
  match o with
  | .literal sign n => exact value_number h
  | .ident x => rfl
  | .defined s x => rfl
  | .definedParen s₁ s₂ x s₃ => rfl
  | .unary u s o =>
      obtain ⟨rfl, kept⟩ := h
      have ih := value_print o kept
      have arg : (o.print.wrap Unary.not.prec o.node).operand.value env = o.value env := by
        rw [← ih, Chain.wrap]
        split
        · rfl
        · next ge =>
          obtain ⟨o', print⟩ := print_operand o (Nat.not_lt.1 ge)
          rw [print]
          rfl
      exact congrArg (Unary.eval .not) arg
  | .paren s₁ c s₂ => exact climb_print c none h (fun b hb => nomatch hb) [] List.Pairwise.nil (fun e he => nomatch he)

/-- A chain that keeps its value behind an operator, from the stack on. -/
theorem climb_print (c : Chain ι) (before : Option Binary) (h : c.Kept before)
    (bare : ∀ b ∈ before, b.prec ≤ c.node.prec) (st : List (Option Value × Binary))
    (increasing : Increasing Binary.prec st) (top : ∀ e ∈ st.head?, before = some e.2) :
    climb Binary.prec Binary.eval st (c.print.first env) (c.print.others env) =
      climb Binary.prec Binary.eval st (c.first env) (c.others env) := by
  match c with
  | .one o =>
      have follows : ∀ x ∈ o.print.others env, ∀ e ∈ st.head?, Follows Binary.prec Binary.eval e.2 x.1 := by
        intro x hx e he
        exact follows_of_bare (h.2 e.2 (top e he) (bare e.2 (top e he))) (heads_operand o) hx
      have last : ∀ y ∈ o.print.others env, ∀ x ∈ ([] : List (Binary × Option Value)).head?, x.1.prec ≤ y.1.prec :=
        fun y hy x hx => nomatch hx
      have paren := climb_paren increasing follows last (o.print.first env)
      rw [List.append_nil] at paren
      rw [Chain.print, paren, Chain.first, Chain.others, ← value_print o h.1]
      rfl
  | .cons o s₁ op s₂ rest =>
      obtain ⟨kept, hbare, order, keptRest⟩ := h
      have left : ∀ y others, climb Binary.prec Binary.eval st ((o.print.wrap op.prec o.node).first env)
            ((o.print.wrap op.prec o.node).others env ++ (op, y) :: others) =
          climb Binary.prec Binary.eval st (o.value env) ((op, y) :: others) := by
        intro y others
        rw [← value_print o kept, Chain.wrap]
        split
        · rfl
        · next ge =>
          refine climb_paren increasing (fun x hx e he => ?_) (fun x hx x' hx' => ?_) (o.print.first env)
          · exact follows_of_bare (hbare e.2 (top e he) (Nat.not_lt.1 ge)) (heads_operand o) hx
          · obtain rfl := Option.some.inj hx'
            exact Nat.le_trans (Nat.not_lt.1 ge) ((heads_operand o) x hx).1
      have right : ∀ st', Increasing Binary.prec st' → (∀ e ∈ st'.head?, some op = some e.2) →
          climb Binary.prec Binary.eval st' ((rest.print.wrap op.prec rest.node).first env)
              ((rest.print.wrap op.prec rest.node).others env) =
            climb Binary.prec Binary.eval st' (rest.first env) (rest.others env) := by
        intro st' increasing' top'
        rw [Chain.wrap]
        split
        · next lt =>
          obtain ⟨keptLast, alone⟩ := kept_alone env keptRest order lt
          have same := climb_print rest none keptLast (fun b hb => nomatch hb) [] List.Pairwise.nil
            (fun e he => nomatch he)
          rw [alone] at same ⊢
          exact congrArg (fun a => climb Binary.prec Binary.eval st' a []) same
        · next ge =>
          have bareRest : ∀ b ∈ some op, b.prec ≤ rest.node.prec := by
            rintro b ⟨⟩
            exact Nat.not_lt.1 ge
          exact climb_print rest (some op) keptRest bareRest st' increasing' top'
      rw [Chain.print, append_first, append_others, left, Chain.first, Chain.others, climb, climb]
      apply right _ (increasing.push op)
      rintro e ⟨⟩
      rfl

end

end Values

/-! ### The round trip -/

/-- A condition that keeps its value is read, and what is printed has its value whatever the macros are. -/
theorem value_cppExpr (c : Chain ι) (kept : c.Kept none) (s s' : List Bool) :
    ∃ e, cppExpr (spaces s ++ (c.flatten ++ spaces s')) = some e ∧
      ∀ env, cValue env e.sourceNode = cValue env (spaces s ++ (c.flatten ++ spaces s')) := by
  refine ⟨c.node, cppExpr_chain c s s', fun env => ?_⟩
  have printed : c.node.sourceNode = spaces [] ++ (c.print.flatten ++ spaces []) := by
    rw [sourceNode_chain c none kept]
    simp [spaces]
  rw [printed, cValue_chain, cValue_chain]
  exact climb_print c none kept (fun b hb => nomatch hb) [] List.Pairwise.nil (fun e he => nomatch he)

/-- `0 - 1 - 2`, where the numbers stand for names. -/
theorem value_cppExpr_sub :
    let c : Chain ℕ := .cons (.ident 0) [false] .sub [false] (.cons (.ident 1) [false] .sub [false] (.one (.ident 2)))
    ∃ e, cppExpr (spaces [] ++ (c.flatten ++ spaces [true])) = some e ∧
      ∀ env, cValue env e.sourceNode = cValue env (spaces [] ++ (c.flatten ++ spaces [true])) := by
  intro c
  have atom : ∀ b ∈ some Binary.sub, Bare b (Node.ident 1 : Node ℕ) ∧ Bare b (Node.ident 2 : Node ℕ) := by
    rintro b ⟨⟩
    exact ⟨.inl (by decide), .inl (by decide)⟩
  have order : ∀ op' ∈ some Binary.sub, Binary.sub.prec ≤ op'.prec := by
    rintro b ⟨⟩
    exact Nat.le_refl _
  have kept : c.Kept none :=
    ⟨trivial, (fun b hb => nomatch hb), order, trivial, (fun b hb _ => (atom b hb).1), (fun b hb => nomatch hb),
      trivial, fun b hb _ => (atom b hb).2⟩
  exact value_cppExpr c kept [] [true]

/-- `0 * 1 + 2` is printed as `0 * (1 + 2)`. -/
theorem value_cppExpr_mul_add :
    let c : Chain ℕ := .cons (.ident 0) [false] .mul [false] (.cons (.ident 1) [false] .add [false] (.one (.ident 2)))
    let env : Macros ℕ := fun x => some ⟨BitVec.ofNat 64 (x + 2), false⟩
    (cppExpr c.flatten).map (fun e => cValue env e.sourceNode) = some (some ⟨14#64, false⟩) ∧
      cValue env c.flatten = some ⟨10#64, false⟩ := by
  decide

end Bionic.CppExpr
