import Bionic.CppExprValue
import Bionic.StateExcept

/-! # Conditions that are optimised (`libc/kernel/tools/cpp.py`)

`CppExpr.optimize_node` replaces `defined` by what is known of a macro, and folds the operators `!`, `&&` and `||`.  All
other trees stay as they are, with what is in them.

A folded tree has the truth value of the original one, not its value: `1 && 2` becomes `2`.  That is enough because only
the three operators are folded, and they ask for no more than the truth of their operands (`optimizeNode_sound`). -/

namespace Bionic.CppOptimize

open CppExpr (Unary Binary Tok Value)
open StateExcept (bind_eq_ok)

abbrev Name := List Char

/-- A tree with the names and texts that `int_node` compares. -/
inductive Tree
  | int (z : ℤ)
  | hex (z : ℤ)
  | ident (name : Name)
  | defined (name : Name)
  | call (name : Name) (params : List (List (Tok Name)))
  | string (value : List Char)
  | unary (u : Unary) (arg : Tree)
  | binary (o : Binary) (arg₁ arg₂ : Tree)

/-- `int` on a text that is no number. -/
structure ValueError where
  literal : List Char
  base : ℕ
deriving DecidableEq, Repr

/-- `e[1]`, where it is a text. -/
def Tree.text : Tree → Option (List Char)
  | ident name => some name
  | defined name => some name
  | string value => some value
  | _ => none

def hexName : List Char := ['h', 'e', 'x']

/-- `int_node`, which takes `e[1]` for the kind of the node, and then for its digits. -/
def intNode : Tree → Except ValueError (Option ℤ)
  | .int z => .ok (some z)
  | e => if e.text = some hexName then .error ⟨hexName, 16⟩ else .ok none

def kCppUndefinedMacro : List Char := "<<<undefined>>>".toList

/-- `"CONFIG_"` -/
def configStart : List Char := ['C', 'O', 'N', 'F', 'I', 'G', '_']

def kernelRemoveConfigMacros : Bool := true

/-- `optimize_node`.  The macros have texts, or `kCppUndefinedMacro`. -/
def optimizeNode (macros : Name → Option (List Char)) : Tree → Except ValueError Tree
  | .defined name =>
      match macros name with
      | some text => .ok (.int (if text = kCppUndefinedMacro then 0 else 1))
      | none =>
          if kernelRemoveConfigMacros ∧ configStart <+: name then .ok (.int 0) else .ok (.defined name)
  | .unary .not v => do
      match ← optimizeNode macros v with
      | .int z => return .int (if z = 0 then 1 else 0)
      | _ => return .unary .not v
  | .binary .logicAnd l r => do
      let l' ← optimizeNode macros l
      let r' ← optimizeNode macros r
      let li ← intNode l'
      let _ ← intNode r'
      match li with
      | some z => return if z = 0 then .int 0 else r'
      | none => return .binary .logicAnd l r
  | .binary .logicOr l r => do
      let l' ← optimizeNode macros l
      let r' ← optimizeNode macros r
      let li ← intNode l'
      let ri ← intNode r'
      match li, ri with
      | some z, _ => return if z = 0 then r' else .int 1
      | none, some z => return if z = 0 then l' else .int 1
      | none, none => return .binary .logicOr l r
  | e => .ok e

/-! ### Truth values -/

/-- The texts of the macros that are defined, and the values of names, of calls and of literals. -/
structure Env where
  text : Name → Option (List Char)
  ident : Name → Option Value
  call : Name → List (List (Tok Name)) → Option Value
  string : List Char → Option Value

/-- A constant that does not fit into 64 bits has no value. -/
def constant (z : ℤ) : Option Value :=
  if z.natAbs < 2 ^ 64 then some ⟨BitVec.ofInt 64 z, 2 ^ 63 ≤ z.natAbs⟩ else none

def Env.eval (env : Env) : Tree → Option Value
  | .int z => constant z
  | .hex z => constant z
  | .ident name => env.ident name
  | .defined name => some (.ofBool (env.text name).isSome)
  | .call name params => env.call name params
  | .string value => env.string value
  | .unary u e => u.eval (env.eval e)
  | .binary o e₁ e₂ => o.eval (env.eval e₁) (env.eval e₂)

def Env.truth (env : Env) (e : Tree) : Option Bool := (env.eval e).map Value.truth

/-- The macros of the dictionary have the texts in it; of the others, those that start with `CONFIG_` are undefined. -/
structure Env.Consistent (env : Env) (macros : Name → Option (List Char)) : Prop where
  listed : ∀ name text, macros name = some text →
    env.text name = if text = kCppUndefinedMacro then none else some text
  config : ∀ name, macros name = none → configStart <+: name → env.text name = none

section

variable {env : Env} {macros : Name → Option (List Char)} {b : Bool}

theorem truth_int {z : ℤ} (h : env.truth (.int z) = some b) : b = decide (z ≠ 0) := by
  obtain ⟨v, value, rfl⟩ := Option.map_eq_some_iff.1 h
  rw [Env.eval, constant] at value
  split at value
  next small =>
    cases value
    have zero : BitVec.ofInt 64 z = 0#64 ↔ z = 0 := by
      rw [← BitVec.toInt_inj, BitVec.toInt_ofInt, BitVec.toInt_zero, ← Int.dvd_iff_bmod_eq_zero]
      omega
    exact decide_eq_decide.2 (not_congr zero)
  next => cases value

theorem truth_not (e : Tree) : env.truth (.unary .not e) = (env.truth e).map (!·) := by
  rw [Env.truth, Env.truth, Env.eval]
  cases env.eval e with
  | none => rfl
  | some v => exact congrArg some (CppExpr.Value.truth_ofBool _)

theorem truth_and (l r : Tree) :
    env.truth (.binary .logicAnd l r) = (env.truth l).bind fun x => if x then env.truth r else some false := by
  rw [Env.truth, Env.truth, Env.truth, Env.eval]
  cases env.eval l with
  | none => rfl
  | some x => cases hx : x.truth <;> cases env.eval r <;> simp [Binary.eval, hx, CppExpr.Value.truth_ofBool]

theorem truth_or (l r : Tree) :
    env.truth (.binary .logicOr l r) = (env.truth l).bind fun x => if x then some true else env.truth r := by
  rw [Env.truth, Env.truth, Env.truth, Env.eval]
  cases env.eval l with
  | none => rfl
  | some x => cases hx : x.truth <;> cases env.eval r <;> simp [Binary.eval, hx, CppExpr.Value.truth_ofBool]

/-! ### Soundness -/

/-- The second tree has the truth value of the first one, if that has one. -/
def Env.Keeps (env : Env) (e e' : Tree) : Prop := ∀ b, env.truth e = some b → env.truth e' = some b

theorem intNode_eq_some {e : Tree} {z : ℤ} (h : intNode e = .ok (some z)) : e = .int z := by
  unfold intNode at h
  split at h
  next =>
    cases h
    rfl
  next => split at h <;> cases h

theorem keeps_defined (consistent : env.Consistent macros) {name : Name} {e' : Tree}
    (h : optimizeNode macros (.defined name) = .ok e') : env.Keeps (.defined name) e' := by
  have original : env.truth (.defined name) = some (env.text name).isSome :=
    congrArg some (CppExpr.Value.truth_ofBool _)
  intro b hb
  rw [original] at hb
  cases hb
  rw [optimizeNode] at h
  split at h
  next text known =>
    cases h
    rw [consistent.listed name text known]
    split <;> rfl
  next unknown =>
    split at h
    next config =>
      cases h
      rw [consistent.config name unknown config.2]
      rfl
    next =>
      cases h
      exact original

theorem keeps_not {v : Tree} {z : ℤ} (keeps : env.Keeps v (.int z)) :
    env.Keeps (.unary .not v) (.int (if z = 0 then 1 else 0)) := by
  intro b hb
  rw [truth_not] at hb
  obtain ⟨x, hx, rfl⟩ := Option.map_eq_some_iff.1 hb
  obtain rfl := truth_int (keeps x hx)
  by_cases hz : z = 0
  · rw [if_pos hz, hz]
    rfl
  · rw [if_neg hz, decide_eq_true hz]
    rfl

theorem keeps_and {l r r' : Tree} {z : ℤ} (left : env.Keeps l (.int z)) (right : env.Keeps r r') :
    env.Keeps (.binary .logicAnd l r) (if z = 0 then .int 0 else r') := by
  intro b hb
  rw [truth_and] at hb
  obtain ⟨x, hx, hb⟩ := Option.bind_eq_some_iff.1 hb
  obtain rfl := truth_int (left x hx)
  by_cases hz : z = 0
  · rw [hz] at hb ⊢
    cases hb
    rfl
  · rw [decide_eq_true hz] at hb
    rw [if_neg hz]
    exact right b hb

theorem keeps_or_left {l r r' : Tree} {z : ℤ} (left : env.Keeps l (.int z)) (right : env.Keeps r r') :
    env.Keeps (.binary .logicOr l r) (if z = 0 then r' else .int 1) := by
  intro b hb
  rw [truth_or] at hb
  obtain ⟨x, hx, hb⟩ := Option.bind_eq_some_iff.1 hb
  obtain rfl := truth_int (left x hx)
  by_cases hz : z = 0
  · rw [hz] at hb ⊢
    exact right b hb
  · rw [decide_eq_true hz] at hb
    rw [if_neg hz]
    cases hb
    rfl

/-- A left operand that is true hides the right one, which then need not have a value. -/
theorem keeps_or_right {l l' r : Tree} {z : ℤ} (left : env.Keeps l l') (right : env.Keeps r (.int z)) :
    env.Keeps (.binary .logicOr l r) (if z = 0 then l' else .int 1) := by
  intro b hb
  rw [truth_or] at hb
  obtain ⟨x, hx, hb⟩ := Option.bind_eq_some_iff.1 hb
  cases x with
  | true =>
      cases hb
      split
      next => exact left true hx
      next => rfl
  | false =>
      obtain rfl := truth_int (right b hb)
      by_cases hz : z = 0
      · rw [if_pos hz, hz]
        exact left false hx
      · rw [if_neg hz, decide_eq_true hz]
        rfl

/-- The optimised tree has the truth value of the original one, in every environment that has the macros of the
dictionary. -/
theorem optimizeNode_sound {e e' : Tree} (h : optimizeNode macros e = .ok e') (consistent : env.Consistent macros) :
    env.Keeps e e' := by
  have same {e e' : Tree} (h : Except.ok e = Except.ok (ε := ValueError) e') : env.Keeps e e' := by
    cases h
    exact fun _ hb => hb
  induction e generalizing e' with
  | int z => exact same h
  | hex z => exact same h
  | ident name => exact same h
  | defined name => exact keeps_defined consistent h
  | call name params => exact same h
  | string value => exact same h
  | unary u v ih =>
      cases u with
      | compl => exact same h
      | not =>
          obtain ⟨v', optimized, h⟩ := bind_eq_ok.1 h
          split at h
          next z =>
            cases h
            exact keeps_not (ih optimized)
          next => exact same h
  | binary o l r ihl ihr =>
      cases o with
      | logicAnd =>
          obtain ⟨l', left, h⟩ := bind_eq_ok.1 h
          obtain ⟨r', right, h⟩ := bind_eq_ok.1 h
          obtain ⟨li, known, h⟩ := bind_eq_ok.1 h
          obtain ⟨-, -, h⟩ := bind_eq_ok.1 h
          split at h
          next z =>
            cases h
            obtain rfl := intNode_eq_some known
            exact keeps_and (ihl left) (ihr right)
          next => exact same h
      | logicOr =>
          obtain ⟨l', left, h⟩ := bind_eq_ok.1 h
          obtain ⟨r', right, h⟩ := bind_eq_ok.1 h
          obtain ⟨li, known, h⟩ := bind_eq_ok.1 h
          obtain ⟨ri, known', h⟩ := bind_eq_ok.1 h
          split at h
          next z =>
            cases h
            obtain rfl := intNode_eq_some known
            exact keeps_or_left (ihl left) (ihr right)
          next z =>
            cases h
            obtain rfl := intNode_eq_some known'
            exact keeps_or_right (ihl left) (ihr right)
          next => exact same h
      | _ => exact same h

/-- `!defined(A) || CONFIG && 2`, where `A` has the text `1`, and `CONFIG` the value 1. -/
theorem optimizeNode_sound_or :
    let macros : Name → Option (List Char) := fun name => if name = ['A'] then some ['1'] else none
    let env : Env := ⟨macros, fun _ => some (.ofBool true), fun _ _ => none, fun _ => none⟩
    let right : Tree := .binary .logicAnd (.ident "CONFIG".toList) (.int 2)
    optimizeNode macros (.binary .logicOr (.unary .not (.defined ['A'])) right) = .ok right ∧
      env.truth right = some true := by
  intro macros env right
  have run : optimizeNode macros (.binary .logicOr (.unary .not (.defined ['A'])) right) = .ok right := rfl
  have consistent : env.Consistent macros := by
    refine ⟨fun name text listed => ?_, fun name unlisted _ => unlisted⟩
    have known : text = ['1'] := by
      by_cases a : name = ['A']
      · exact (Option.some.inj ((if_pos a).symm.trans listed)).symm
      · exact nomatch (if_neg a).symm.trans listed
    rw [known] at listed ⊢
    exact listed
  exact ⟨run, optimizeNode_sound run consistent true rfl⟩

/-- A node for a name `hex` raises an exception behind `&&` and `||`, and nowhere else. -/
example :
    optimizeNode (fun _ => none) (.binary .logicAnd (.ident hexName) (.int 1)) = .error ⟨hexName, 16⟩ ∧
      optimizeNode (fun _ => none) (.unary .not (.ident hexName)) = .ok (.unary .not (.ident hexName)) :=
  ⟨rfl, rfl⟩

end

end Bionic.CppOptimize
