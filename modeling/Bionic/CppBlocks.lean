import Mathlib.Data.List.Basic
import Mathlib.Data.Int.Notation
import Mathlib.Tactic.SplitIfs
import Mathlib.Tactic.Common
import Bionic.CppOptimize

/-! # Conditional blocks of a header (`libc/kernel/tools/cpp.py`)

`optimize_if01` removes the branches of `#if` groups whose conditions are constants.  A list of blocks is well nested
if it is the flattening of some `Items`, in which each group has its branches as a `Tail`.  On such a list the result
can be read off the tree (`optimizeIf01_flatten`): the tool works through the branches of a group in one of three
modes, behind an `#if` that it has kept, behind branches that it has dropped, and behind a branch that it has inlined.

It loses an `#endif` where a constant `#elif` follows an `#if` that it has kept, and it keeps further branches where an
`#elif` follows a branch that it has inlined.  It has no result if it reads a condition that is the name `hex`.
`preprocess_optimizeIf01_iff` says that everything else is right. -/

namespace Bionic.CppBlocks

open CppOptimize (Tree ValueError hexName intNode)

/-- A condition: an integer, or an expression that the tool does not know. -/
inductive Cond (ε : Type)
  | int (n : ℤ)
  | unknown (e : ε)
deriving DecidableEq, Repr

/-- The directive of a block, `text` for a block that is none. -/
inductive Directive
  | text
  | other
  | dirIf
  | dirIfdef
  | dirIfndef
  | dirElif
  | dirElse
  | dirEndif
deriving DecidableEq, Repr

/-- `Block`.  The condition matters for the directives `isIf` only. -/
structure Block (ε τ : Type) where
  directive : Directive
  expr : Cond ε
  tokens : τ
deriving DecidableEq, Repr

variable {ε τ : Type}

/-- A directive that opens a group. -/
def Directive.opens : Directive → Bool
  | dirIf => true
  | dirIfdef => true
  | dirIfndef => true
  | _ => false

/-- A block that is not conditional. -/
def Directive.plain : Directive → Bool
  | text => true
  | other => true
  | _ => false

/-- `isIf`. -/
def Block.isIf (b : Block ε τ) : Bool := b.directive.opens || b.directive = .dirElif

/-- `toInt`, where `hex` says of which expressions the name is `hex`: it takes them for hexadecimal constants. -/
def Cond.toInt (hex : ε → Bool) : Cond ε → Except ValueError (Option ℤ)
  | int n => .ok (some n)
  | unknown e => if hex e then .error ⟨hexName, 16⟩ else .ok none

/-- The condition of a tree. -/
def Cond.ofTree : Tree → Cond Tree
  | .int n => .int n
  | e => .unknown e

theorem toInt_ofTree (e : Tree) : (Cond.ofTree e).toInt (fun e => e.text = some hexName) = intNode e := by
  cases e <;> simp [Cond.ofTree, Cond.toInt, intNode]

/-! ### The code -/

/-- `find_matching_endif`: the blocks before the one that is found, and those from there on. -/
def findMatchingEndif : ℕ → List (Block ε τ) → List (Block ε τ) × List (Block ε τ)
  | _, [] => ([], [])
  | depth, b :: l =>
      if b.directive.opens then
        let (before, rest) := findMatchingEndif (depth + 1) l
        (b :: before, rest)
      else if depth = 1 ∧ (b.directive = .dirElse ∨ b.directive = .dirElif) then ([], b :: l)
      else if b.directive = .dirEndif then
        if depth - 1 = 0 then ([], b :: l)
        else
          let (before, rest) := findMatchingEndif (depth - 1) l
          (b :: before, rest)
      else
        let (before, rest) := findMatchingEndif depth l
        (b :: before, rest)

theorem length_findMatchingEndif (depth : ℕ) (l : List (Block ε τ)) :
    (findMatchingEndif depth l).1.length + (findMatchingEndif depth l).2.length = l.length := by
  induction l generalizing depth with
  | nil => rfl
  | cons b l ih =>
      have h₁ := ih (depth + 1)
      have h₂ := ih (depth - 1)
      have h₃ := ih depth
      rw [findMatchingEndif]
      split_ifs <;> simp only [List.length_cons, List.length_nil] <;> omega

set_option linter.unusedVariables false in
/-- `optimize_if01`, on the blocks from `i` on.  A block of the list is changed before it is met again. -/
def optimizeIf01 (hex : ε → Bool) : List (Block ε τ) → Except ValueError (List (Block ε τ))
  | [] => .ok []
  | b :: l =>
      if ¬ b.isIf then return b :: (← optimizeIf01 hex l)
      else
        match b.expr.toInt hex with
        | .error e => .error e
        | .ok none => return b :: (← optimizeIf01 hex l)
        | .ok (some r) =>
            have before := length_findMatchingEndif 1 l
            if r = 0 then
              match h : (findMatchingEndif 1 l).2 with
              | [] => .ok []
              | d :: rest =>
                  if d.directive = .dirEndif then optimizeIf01 hex rest
                  else if d.directive = .dirElse then
                    optimizeIf01 hex ({ d with directive := .dirIf, expr := .int 1 } :: rest)
                  else optimizeIf01 hex ({ d with directive := .dirIf } :: rest)
            else
              match h : (findMatchingEndif 1 l).2 with
              | [] => .ok (findMatchingEndif 1 l).1
              | d :: rest => do
                  let body ← optimizeIf01 hex (findMatchingEndif 1 l).1
                  let rest ←
                    if d.directive = .dirEndif then optimizeIf01 hex rest
                    else if d.directive = .dirElse then
                      optimizeIf01 hex ({ d with directive := .dirIf, expr := .int 0 } :: rest)
                    else optimizeIf01 hex ({ d with expr := .int 0 } :: rest)
                  return body ++ rest
termination_by l => l.length
decreasing_by
  all_goals try rw [h] at before
  all_goals simp only [List.length_cons] at *
  all_goals omega

/-! ### What the tool does with one block -/

section Step

variable {hex : ε → Bool} {b d : Block ε τ} {l body rest : List (Block ε τ)} {n : ℤ} {e : ε}

theorem optimizeIf01_nil : optimizeIf01 hex ([] : List (Block ε τ)) = .ok [] := by
  rw [optimizeIf01]

theorem optimizeIf01_cons (h : b.isIf = false) (l : List (Block ε τ)) :
    optimizeIf01 hex (b :: l) = (b :: ·) <$> optimizeIf01 hex l := by
  rw [optimizeIf01, if_pos (by rw [h]; decide)]
  rfl

theorem optimizeIf01_unknown (h : b.isIf = true) (he : b.expr = .unknown e) (l : List (Block ε τ)) :
    optimizeIf01 hex (b :: l) =
      if hex e then .error ⟨hexName, 16⟩ else (b :: ·) <$> optimizeIf01 hex l := by
  rw [optimizeIf01, if_neg (not_not.2 h), he, Cond.toInt]
  cases hex e <;> rfl

/-- What follows where a branch has been dropped: the blocks from the end of the branch on. -/
def afterZero (hex : ε → Bool) : List (Block ε τ) → Except ValueError (List (Block ε τ))
  | [] => .ok []
  | d :: rest =>
      if d.directive = .dirEndif then optimizeIf01 hex rest
      else if d.directive = .dirElse then optimizeIf01 hex ({ d with directive := .dirIf, expr := .int 1 } :: rest)
      else optimizeIf01 hex ({ d with directive := .dirIf } :: rest)

/-- What follows where a branch has been inlined. -/
def afterOne (hex : ε → Bool) : List (Block ε τ) → Except ValueError (List (Block ε τ))
  | [] => .ok []
  | d :: rest =>
      if d.directive = .dirEndif then optimizeIf01 hex rest
      else if d.directive = .dirElse then optimizeIf01 hex ({ d with directive := .dirIf, expr := .int 0 } :: rest)
      else optimizeIf01 hex ({ d with expr := .int 0 } :: rest)

/-- The blocks of a group from a constant condition on. -/
theorem optimizeIf01_int (h : b.isIf = true) (he : b.expr = .int n) (hfind : findMatchingEndif 1 l = (body, rest))
    (terminated : rest ≠ []) :
    optimizeIf01 hex (b :: l) = (if n = 0 then afterZero hex rest else do
      let taken ← optimizeIf01 hex body
      (taken ++ ·) <$> afterOne hex rest) := by
  obtain ⟨d, rest, rfl⟩ := List.exists_cons_of_ne_nil terminated
  rw [optimizeIf01, if_neg (not_not.2 h), he]
  simp only [Cond.toInt]
  by_cases hn : n = 0
  · rw [if_pos hn, if_pos hn]
    split
    · next hrest => rw [hfind] at hrest; cases hrest
    · next d' rest' hrest =>
      rw [hfind] at hrest
      obtain ⟨rfl, rfl⟩ := List.cons.inj hrest
      rfl
  · rw [if_neg hn, if_neg hn]
    split
    · next hrest => rw [hfind] at hrest; cases hrest
    · next d' rest' hrest =>
      rw [hfind] at hrest ⊢
      obtain ⟨rfl, rfl⟩ := List.cons.inj hrest
      refine bind_congr fun taken => ?_
      rw [afterOne]
      split_ifs <;> rfl

end Step

/-! ### Well-nested lists -/

mutual

/-- A well-nested list of blocks. -/
inductive Items (ε τ : Type)
  | nil
  | leaf (b : {b : Block ε τ // b.directive.plain = true}) (rest : Items ε τ)
  | group (b : {b : Block ε τ // b.directive.opens = true}) (body : Items ε τ) (tail : Tail ε τ) (rest : Items ε τ)

/-- The branches of a group behind the first one, and its end. -/
inductive Tail (ε τ : Type)
  | endif (b : {b : Block ε τ // b.directive = .dirEndif})
  | els (b : {b : Block ε τ // b.directive = .dirElse}) (body : Items ε τ)
      (b' : {b : Block ε τ // b.directive = .dirEndif})
  | elif (b : {b : Block ε τ // b.directive = .dirElif}) (body : Items ε τ) (tail : Tail ε τ)

end

mutual

def Items.flatten : Items ε τ → List (Block ε τ)
  | .nil => []
  | .leaf b rest => b.1 :: rest.flatten
  | .group b body tail rest => b.1 :: (body.flatten ++ (tail.flatten ++ rest.flatten))

def Tail.flatten : Tail ε τ → List (Block ε τ)
  | .endif b => [b.1]
  | .els b body b' => b.1 :: (body.flatten ++ [b'.1])
  | .elif b body tail => b.1 :: (body.flatten ++ tail.flatten)

end

/-- The value of a condition. -/
def Cond.holds (v : ε → Bool) : Cond ε → Bool
  | int n => n ≠ 0
  | unknown e => v e

mutual

/-- The blocks that the preprocessor selects. -/
def Items.select (v : ε → Bool) : Items ε τ → List (Block ε τ)
  | .nil => []
  | .leaf b rest => b.1 :: rest.select v
  | .group b body tail rest => (if b.1.expr.holds v then body.select v else tail.select v) ++ rest.select v

/-- The blocks that it selects if no branch before was taken. -/
def Tail.select (v : ε → Bool) : Tail ε τ → List (Block ε τ)
  | .endif _ => []
  | .els _ body _ => body.select v
  | .elif b body tail => if b.1.expr.holds v then body.select v else tail.select v

end

/-! ### The tool on a well-nested list -/

/-- Where the tool is in a group. -/
inductive Mode
  /-- Behind an `#if` that it has kept. -/
  | opened
  /-- Behind branches that it has dropped. -/
  | zero
  /-- Behind a branch that it has inlined. -/
  | one
deriving DecidableEq, Repr

mutual

/-- The blocks that the tool leaves. -/
def Items.opt : Items ε τ → List (Block ε τ)
  | .nil => []
  | .leaf b rest => b.1 :: rest.opt
  | .group b body tail rest =>
      (match b.1.expr with
        | .unknown _ => b.1 :: (body.opt ++ tail.opt .opened)
        | .int n => if n = 0 then tail.opt .zero else body.opt ++ tail.opt .one) ++ rest.opt

def Tail.opt : Mode → Tail ε τ → List (Block ε τ)
  | .opened, .endif b => [b.1]
  | .zero, .endif _ => []
  | .one, .endif _ => []
  | .opened, .els b body b' => b.1 :: (body.opt ++ [b'.1])
  | .zero, .els _ body _ => body.opt
  | .one, .els _ _ _ => []
  | .opened, .elif b body tail =>
      match b.1.expr with
      | .unknown _ => b.1 :: (body.opt ++ tail.opt .opened)
      | .int n => if n = 0 then tail.opt .zero else body.opt ++ tail.opt .one
  | .zero, .elif b body tail =>
      match b.1.expr with
      | .unknown _ => { b.1 with directive := .dirIf } :: (body.opt ++ tail.opt .opened)
      | .int n => if n = 0 then tail.opt .zero else body.opt ++ tail.opt .one
  | .one, .elif _ _ tail => tail.opt .zero

end

mutual

/-- No condition that the tool reads is the name `hex`. -/
def Items.readable (hex : ε → Bool) : Items ε τ → Bool
  | .nil => true
  | .leaf _ rest => rest.readable hex
  | .group b body tail rest =>
      (match b.1.expr with
        | .unknown e => !hex e && body.readable hex && tail.readable hex .opened
        | .int n => if n = 0 then tail.readable hex .zero else body.readable hex && tail.readable hex .one) &&
        rest.readable hex

def Tail.readable (hex : ε → Bool) : Mode → Tail ε τ → Bool
  | _, .endif _ => true
  | .opened, .els _ body _ => body.readable hex
  | .zero, .els _ body _ => body.readable hex
  | .one, .els _ _ _ => true
  | .opened, .elif b body tail =>
      match b.1.expr with
      | .unknown e => !hex e && body.readable hex && tail.readable hex .opened
      | .int n => if n = 0 then tail.readable hex .zero else body.readable hex && tail.readable hex .one
  | .zero, .elif b body tail =>
      match b.1.expr with
      | .unknown e => !hex e && body.readable hex && tail.readable hex .opened
      | .int n => if n = 0 then tail.readable hex .zero else body.readable hex && tail.readable hex .one
  | .one, .elif _ _ tail => tail.readable hex .zero

end

section Flatten

variable {hex : ε → Bool} {l : List (Block ε τ)}

theorem findMatchingEndif_cons_opens {b : Block ε τ} (h : b.directive.opens = true) (d : ℕ) (l : List (Block ε τ)) :
    findMatchingEndif d (b :: l) =
      (b :: (findMatchingEndif (d + 1) l).1, (findMatchingEndif (d + 1) l).2) := if_pos h

theorem findMatchingEndif_cons_endif {b : Block ε τ} (h : b.directive = .dirEndif) (d : ℕ) (l : List (Block ε τ)) :
    findMatchingEndif (d + 2) (b :: l) =
      (b :: (findMatchingEndif (d + 1) l).1, (findMatchingEndif (d + 1) l).2) := by
  rw [findMatchingEndif, h]
  rfl

/-- A block that neither opens nor closes a group, and does not end the branch. -/
theorem findMatchingEndif_cons {b : Block ε τ} {d : ℕ} (opens : b.directive.opens = false)
    (stops : ¬ (d = 1 ∧ (b.directive = .dirElse ∨ b.directive = .dirElif))) (closes : b.directive ≠ .dirEndif)
    (l : List (Block ε τ)) :
    findMatchingEndif d (b :: l) = (b :: (findMatchingEndif d l).1, (findMatchingEndif d l).2) := by
  rw [findMatchingEndif, if_neg (by rw [opens]; decide), if_neg stops, if_neg closes]

theorem plain_ne {d : Directive} (h : d.plain = true) :
    d.opens = false ∧ d ≠ .dirElse ∧ d ≠ .dirElif ∧ d ≠ .dirEndif := by
  cases d <;> first | decide | cases h

mutual

/-- The search runs over whole groups. -/
theorem findMatchingEndif_items (items : Items ε τ) (d : ℕ) (l : List (Block ε τ)) :
    findMatchingEndif (d + 1) (items.flatten ++ l) =
      (items.flatten ++ (findMatchingEndif (d + 1) l).1, (findMatchingEndif (d + 1) l).2) := by
  match items with
  | .nil => rfl
  | .leaf b rest =>
      obtain ⟨opens, ne⟩ := plain_ne b.2
      rw [Items.flatten, List.cons_append, findMatchingEndif_cons opens (fun h => h.2.elim ne.1 ne.2.1) ne.2.2,
        findMatchingEndif_items rest]
      rfl
  | .group b body tail rest =>
      rw [Items.flatten, List.cons_append, findMatchingEndif_cons_opens b.2, List.append_assoc, List.append_assoc,
        findMatchingEndif_items body, findMatchingEndif_tail tail, findMatchingEndif_items rest]
      simp only [List.cons_append, List.append_assoc]

/-- From inside of a group to its end. -/
theorem findMatchingEndif_tail (tail : Tail ε τ) (d : ℕ) (l : List (Block ε τ)) :
    findMatchingEndif (d + 1 + 1) (tail.flatten ++ l) =
      (tail.flatten ++ (findMatchingEndif (d + 1) l).1, (findMatchingEndif (d + 1) l).2) := by
  match tail with
  | .endif b =>
      rw [Tail.flatten, List.singleton_append, findMatchingEndif_cons_endif b.2]
      rfl
  | .els b body b' =>
      rw [Tail.flatten, List.cons_append, findMatchingEndif_cons (by rw [b.2]; rfl) (fun h => absurd h.1 (by omega))
        (by rw [b.2]; decide), List.append_assoc, findMatchingEndif_items body, List.singleton_append,
        findMatchingEndif_cons_endif b'.2]
      simp only [List.cons_append, List.append_assoc, List.nil_append]
  | .elif b body tail =>
      rw [Tail.flatten, List.cons_append, findMatchingEndif_cons (by rw [b.2]; rfl) (fun h => absurd h.1 (by omega))
        (by rw [b.2]; decide), List.append_assoc, findMatchingEndif_items body, findMatchingEndif_tail tail]
      simp only [List.cons_append, List.append_assoc]

end

theorem tail_flatten_ne_nil (tail : Tail ε τ) (l : List (Block ε τ)) : tail.flatten ++ l ≠ [] := by
  cases tail <;> simp [Tail.flatten]

/-- The search from the first block of a branch stops at its end. -/
theorem findMatchingEndif_body (body : Items ε τ) (tail : Tail ε τ) (l : List (Block ε τ)) :
    findMatchingEndif 1 (body.flatten ++ (tail.flatten ++ l)) = (body.flatten, tail.flatten ++ l) := by
  have here : findMatchingEndif 1 (tail.flatten ++ l) = ([], tail.flatten ++ l) := by
    cases tail with
    | endif b => simp [Tail.flatten, findMatchingEndif, b.2, Directive.opens]
    | els b body b' => simp [Tail.flatten, findMatchingEndif, b.2, Directive.opens]
    | elif b body tail => simp [Tail.flatten, findMatchingEndif, b.2, Directive.opens]
  rw [findMatchingEndif_items, here, List.append_nil]

/-- What the tool does with the blocks of a group behind the branch it is at. -/
def runFrom (hex : ε → Bool) : Mode → List (Block ε τ) → Except ValueError (List (Block ε τ))
  | .opened => optimizeIf01 hex
  | .zero => afterZero hex
  | .one => afterOne hex

/-- The blocks `l` in front of the result of the rest, if they can be read. -/
def before (readable : Bool) (l : List (Block ε τ)) (rest : Except ValueError (List (Block ε τ))) :
    Except ValueError (List (Block ε τ)) :=
  if readable then (l ++ ·) <$> rest else .error ⟨hexName, 16⟩

section

variable {r r' : Bool} {l' : List (Block ε τ)} {rest : Except ValueError (List (Block ε τ))}

theorem before_before : before r l (before r' l' rest) = before (r && r') (l ++ l') rest := by
  cases r <;> cases r' <;> cases rest <;> simp [before, Functor.map, Except.map]

theorem map_before (b : Block ε τ) : (b :: ·) <$> before r l rest = before r (b :: l) rest := by
  cases r <;> cases rest <;> simp [before, Functor.map, Except.map]

theorem map_eq_before (b : Block ε τ) : (b :: ·) <$> rest = before true [b] rest := by
  cases rest <;> simp [before, Functor.map, Except.map]

theorem before_bind : (do
      let taken ← before r l (.ok [])
      (taken ++ ·) <$> rest) = before r l rest := by
  cases r <;> cases rest <;> simp [before, Functor.map, Except.map, bind, Except.bind]

end

/-- A branch with its condition, if the rest is known. -/
theorem optimizeIf01_branch {b : Block ε τ} (h : b.isIf = true) {body : Items ε τ} {tail : Tail ε τ}
    (hbody : ∀ l, optimizeIf01 hex (body.flatten ++ l) = before (body.readable hex) body.opt (optimizeIf01 hex l))
    (htail : ∀ m l, runFrom hex m (tail.flatten ++ l) =
      before (tail.readable hex m) (tail.opt m) (optimizeIf01 hex l)) (l : List (Block ε τ)) :
    optimizeIf01 hex (b :: (body.flatten ++ (tail.flatten ++ l))) =
      before
        (match b.expr with
        | .unknown e => !hex e && body.readable hex && tail.readable hex .opened
        | .int n => if n = 0 then tail.readable hex .zero else body.readable hex && tail.readable hex .one)
        (match b.expr with
        | .unknown _ => b :: (body.opt ++ tail.opt .opened)
        | .int n => if n = 0 then tail.opt .zero else body.opt ++ tail.opt .one) (optimizeIf01 hex l) := by
  match he : b.expr with
  | .unknown e =>
      have opened : optimizeIf01 hex (tail.flatten ++ l) =
          before (tail.readable hex .opened) (tail.opt .opened) (optimizeIf01 hex l) := htail .opened l
      rw [optimizeIf01_unknown h he, hbody, opened, before_before, map_before]
      dsimp only
      cases hex e <;> rfl
  | .int n =>
      have alone : optimizeIf01 hex body.flatten = before (body.readable hex) body.opt (.ok []) := by
        simpa only [List.append_nil, optimizeIf01_nil] using hbody []
      have zero : afterZero hex (tail.flatten ++ l) =
          before (tail.readable hex .zero) (tail.opt .zero) (optimizeIf01 hex l) := htail .zero l
      have one : afterOne hex (tail.flatten ++ l) =
          before (tail.readable hex .one) (tail.opt .one) (optimizeIf01 hex l) := htail .one l
      rw [optimizeIf01_int h he (findMatchingEndif_body body tail l) (tail_flatten_ne_nil tail l), zero, one, alone,
        before_bind, before_before]
      dsimp only
      split <;> rfl

theorem isIf_of_opens {b : Block ε τ} (h : b.directive.opens = true) : b.isIf = true := by
  rw [Block.isIf, h, Bool.true_or]

theorem isIf_of_plain {b : Block ε τ} (h : b.directive.plain = true) : b.isIf = false := by
  obtain ⟨opens, _, ne, _⟩ := plain_ne h
  simp [Block.isIf, opens, ne]

mutual

theorem optimizeIf01_items (items : Items ε τ) (l : List (Block ε τ)) :
    optimizeIf01 hex (items.flatten ++ l) = before (items.readable hex) items.opt (optimizeIf01 hex l) := by
  match items with
  | .nil => cases h : optimizeIf01 hex l <;> simp [Items.flatten, before, Items.readable, Items.opt, h]
  | .leaf b rest =>
      rw [Items.flatten, List.cons_append, optimizeIf01_cons (isIf_of_plain b.2), optimizeIf01_items rest, map_before]
      rfl
  | .group b body tail rest =>
      rw [Items.flatten, List.cons_append, List.append_assoc, List.append_assoc,
        optimizeIf01_branch (isIf_of_opens b.2) (optimizeIf01_items body) (runFrom_tail tail), optimizeIf01_items rest,
        before_before, Items.opt, Items.readable]

theorem runFrom_tail (tail : Tail ε τ) (m : Mode) (l : List (Block ε τ)) :
    runFrom hex m (tail.flatten ++ l) = before (tail.readable hex m) (tail.opt m) (optimizeIf01 hex l) := by
  have nothing (rest : Except ValueError (List (Block ε τ))) : before true [] rest = rest := by
    cases rest <;> rfl
  match tail, m with
  | .endif b, .opened =>
      exact (optimizeIf01_cons (by rw [Block.isIf, b.2]; rfl) l).trans (map_eq_before _)
  | .endif b, .zero => exact (if_pos b.2).trans (nothing _).symm
  | .endif b, .one => exact (if_pos b.2).trans (nothing _).symm
  | .els b body b', .opened =>
      have first : b.1.isIf = false := by rw [Block.isIf, b.2]; rfl
      have last : b'.1.isIf = false := by rw [Block.isIf, b'.2]; rfl
      rw [Tail.flatten, List.cons_append, List.append_assoc, runFrom, optimizeIf01_cons first, optimizeIf01_items body,
        List.singleton_append, optimizeIf01_cons last, map_eq_before b'.1, before_before, map_before, Bool.and_true,
        Tail.opt, Tail.readable]
  | .els b body b', .zero =>
      have found := findMatchingEndif_body body (.endif b') l
      have closed : afterOne hex ((Tail.endif b').flatten ++ l) = optimizeIf01 hex l := if_pos b'.2
      have alone : optimizeIf01 hex body.flatten = before (body.readable hex) body.opt (.ok []) := by
        simpa only [List.append_nil, optimizeIf01_nil] using optimizeIf01_items body []
      have here : runFrom hex .zero ((Tail.els b body b').flatten ++ l) =
          optimizeIf01 hex ({ b.1 with directive := .dirIf, expr := .int 1 } ::
            (body.flatten ++ ((Tail.endif b').flatten ++ l))) := by
        simp [Tail.flatten, runFrom, afterZero, b.2]
      rw [here, optimizeIf01_int rfl rfl found (tail_flatten_ne_nil _ l), if_neg (by decide), alone, closed, before_bind]
      rfl
  | .els b body b', .one =>
      have found := findMatchingEndif_body body (.endif b') l
      have closed : afterZero hex ((Tail.endif b').flatten ++ l) = optimizeIf01 hex l := if_pos b'.2
      have here : runFrom hex .one ((Tail.els b body b').flatten ++ l) =
          optimizeIf01 hex ({ b.1 with directive := .dirIf, expr := .int 0 } ::
            (body.flatten ++ ((Tail.endif b').flatten ++ l))) := by
        simp [Tail.flatten, runFrom, afterOne, b.2]
      rw [here, optimizeIf01_int rfl rfl found (tail_flatten_ne_nil _ l), if_pos rfl]
      exact closed.trans (nothing _).symm
  | .elif b body tail, .opened =>
      have isIf : b.1.isIf = true := by rw [Block.isIf, b.2]; rfl
      rw [Tail.flatten, List.cons_append, List.append_assoc, runFrom,
        optimizeIf01_branch isIf (optimizeIf01_items body) (runFrom_tail tail), Tail.opt, Tail.readable]
  | .elif b body tail, .zero =>
      have here : runFrom hex .zero ((Tail.elif b body tail).flatten ++ l) =
          optimizeIf01 hex ({ b.1 with directive := .dirIf } :: (body.flatten ++ (tail.flatten ++ l))) := by
        simp [Tail.flatten, runFrom, afterZero, b.2]
      rw [here, optimizeIf01_branch rfl (optimizeIf01_items body) (runFrom_tail tail), Tail.opt, Tail.readable]
  | .elif b body tail, .one =>
      have isIf : Block.isIf ({ b.1 with expr := .int 0 } : Block ε τ) = true := by rw [Block.isIf, b.2]; rfl
      have here : runFrom hex .one ((Tail.elif b body tail).flatten ++ l) =
          optimizeIf01 hex ({ b.1 with expr := .int 0 } :: (body.flatten ++ (tail.flatten ++ l))) := by
        simp [Tail.flatten, runFrom, afterOne, b.2]
      rw [here, optimizeIf01_branch isIf (optimizeIf01_items body) (runFrom_tail tail), Tail.opt, Tail.readable]
      rfl

end

/-- The result of the tool, read off the tree. -/
theorem optimizeIf01_flatten (items : Items ε τ) :
    optimizeIf01 hex items.flatten = if items.readable hex then .ok items.opt else .error ⟨hexName, 16⟩ := by
  have all : optimizeIf01 hex (items.flatten ++ []) = _ := optimizeIf01_items items []
  rw [List.append_nil, optimizeIf01_nil] at all
  rw [all, before]
  split
  next => exact congrArg Except.ok (List.append_nil _)
  next => rfl

end Flatten

/-! ### C preprocessing of a list of blocks -/

/-- An open group: whether a branch was taken, whether this one is selected, and whether it is the `#else`. -/
structure Frame where
  taken : Bool
  active : Bool
  elseSeen : Bool
deriving DecidableEq, Repr

/-- Whether the blocks are selected where the groups of `stack` are open. -/
def selected : List Frame → Bool
  | [] => true
  | f :: _ => f.active

/-- The blocks that are selected, in order; none if the directives are not well nested. -/
def preprocess (v : ε → Bool) : List Frame → List (Block ε τ) → Option (List (Block ε τ))
  | [], [] => some []
  | _ :: _, [] => none
  | stack, b :: l =>
      if b.directive.plain then
        (preprocess v stack l).map ((if selected stack then [b] else []) ++ ·)
      else if b.directive.opens then
        preprocess v (⟨b.expr.holds v, selected stack && b.expr.holds v, false⟩ :: stack) l
      else
        match stack with
        | [] => none
        | f :: stack =>
            if b.directive = .dirEndif then preprocess v stack l
            else if f.elseSeen then none
            else if b.directive = .dirElse then
              preprocess v (⟨true, selected stack && !f.taken, true⟩ :: stack) l
            else
              preprocess v (⟨f.taken || b.expr.holds v, selected stack && !f.taken && b.expr.holds v, false⟩ :: stack) l

section Preprocess

variable {v : ε → Bool} {b : Block ε τ} {stack : List Frame} {f : Frame}

theorem preprocess_plain (h : b.directive.plain = true) (stack : List Frame) (l : List (Block ε τ)) :
    preprocess v stack (b :: l) = (preprocess v stack l).map ((if selected stack then [b] else []) ++ ·) := by
  cases stack <;> rw [preprocess, if_pos h]

theorem preprocess_opens (h : b.directive.opens = true) (stack : List Frame) (l : List (Block ε τ)) :
    preprocess v stack (b :: l) =
      preprocess v (⟨b.expr.holds v, selected stack && b.expr.holds v, false⟩ :: stack) l := by
  have plain : ¬ b.directive.plain = true := by
    intro hp
    rw [(plain_ne hp).1] at h
    cases h
  cases stack <;> rw [preprocess, if_neg plain, if_pos h]

theorem preprocess_endif (h : b.directive = .dirEndif) (l : List (Block ε τ)) :
    preprocess v (f :: stack) (b :: l) = preprocess v stack l := by
  simp [preprocess, h, Directive.plain, Directive.opens]

theorem preprocess_else (h : b.directive = .dirElse) (hf : f.elseSeen = false) (l : List (Block ε τ)) :
    preprocess v (f :: stack) (b :: l) = preprocess v (⟨true, selected stack && !f.taken, true⟩ :: stack) l := by
  simp [preprocess, h, hf, Directive.plain, Directive.opens]

theorem preprocess_elif (h : b.directive = .dirElif) (hf : f.elseSeen = false) (l : List (Block ε τ)) :
    preprocess v (f :: stack) (b :: l) =
      preprocess v (⟨f.taken || b.expr.holds v, selected stack && !f.taken && b.expr.holds v, false⟩ :: stack) l := by
  simp [preprocess, h, hf, Directive.plain, Directive.opens]

mutual

theorem preprocess_items (items : Items ε τ) (stack : List Frame) (l : List (Block ε τ)) :
    preprocess v stack (items.flatten ++ l) =
      (preprocess v stack l).map ((if selected stack then items.select v else []) ++ ·) := by
  match items with
  | .nil => cases h : preprocess v stack l <;> simp [Items.flatten, Items.select, h]
  | .leaf b rest =>
      rw [Items.flatten, List.cons_append, preprocess_plain b.2, preprocess_items rest, Option.map_map]
      cases selected stack <;> rfl
  | .group b body tail rest =>
      rw [Items.flatten, List.cons_append, List.append_assoc, List.append_assoc, preprocess_opens b.2,
        preprocess_items body, preprocess_tail tail _ _ rfl, preprocess_items rest, Option.map_map, Option.map_map]
      congr 1
      funext l
      cases selected stack <;> cases h : b.1.expr.holds v <;> simp [selected, Items.select, h]

/-- The blocks of a group behind its first branch. -/
theorem preprocess_tail (tail : Tail ε τ) (f : Frame) (stack : List Frame) (hf : f.elseSeen = false)
    (l : List (Block ε τ)) :
    preprocess v (f :: stack) (tail.flatten ++ l) =
      (preprocess v stack l).map ((if selected stack && !f.taken then tail.select v else []) ++ ·) := by
  match tail with
  | .endif b =>
      rw [Tail.flatten, List.singleton_append, preprocess_endif b.2]
      cases h : preprocess v stack l <;> simp [Tail.select]
  | .els b body b' =>
      rw [Tail.flatten, List.cons_append, List.append_assoc, preprocess_else b.2 hf, preprocess_items body,
        List.singleton_append, preprocess_endif b'.2]
      rfl
  | .elif b body tail =>
      rw [Tail.flatten, List.cons_append, List.append_assoc, preprocess_elif b.2 hf, preprocess_items body,
        preprocess_tail tail _ _ rfl, Option.map_map]
      congr 1
      funext l
      cases selected stack <;> cases f.taken <;> cases h : b.1.expr.holds v <;> simp [selected, Tail.select, h]

end

/-- The preprocessor selects from a well-nested list what its tree says. -/
theorem preprocess_flatten (v : ε → Bool) (items : Items ε τ) :
    preprocess v [] items.flatten = some (items.select v) := by
  have run := preprocess_items (v := v) items [] []
  rw [List.append_nil, preprocess, Option.map_some, List.append_nil] at run
  exact run

end Preprocess

/-! ### Where the tool is right -/

mutual

/-- No constant `#elif` follows an `#if` that the tool keeps. -/
def Items.Closed : Items ε τ → Prop
  | .nil => True
  | .leaf _ rest => rest.Closed
  | .group b body tail rest =>
      (match b.1.expr with
        | .unknown _ => body.Closed ∧ tail.Closed .opened
        | .int n => if n = 0 then tail.Closed .zero else body.Closed ∧ tail.Closed .one) ∧ rest.Closed

def Tail.Closed : Mode → Tail ε τ → Prop
  | _, .endif _ => True
  | .opened, .els _ body _ => body.Closed
  | .zero, .els _ body _ => body.Closed
  | .one, .els _ _ _ => True
  | .opened, .elif b body tail =>
      match b.1.expr with
      | .unknown _ => body.Closed ∧ tail.Closed .opened
      | .int _ => False
  | .zero, .elif b body tail =>
      match b.1.expr with
      | .unknown _ => body.Closed ∧ tail.Closed .opened
      | .int n => if n = 0 then tail.Closed .zero else body.Closed ∧ tail.Closed .one
  | .one, .elif _ _ tail => tail.Closed .zero

end

mutual

/-- Where the tool has inlined a branch and an `#elif` follows, the branches behind the `#elif` select nothing.  The
branches that it drops, and those that the preprocessor does not come to, do not matter. -/
def Items.Exact (v : ε → Bool) : Items ε τ → Prop
  | .nil => True
  | .leaf _ rest => rest.Exact v
  | .group b body tail rest =>
      (match b.1.expr with
        | .unknown e => if v e then body.Exact v else tail.Exact v .opened
        | .int n => if n = 0 then tail.Exact v .zero else body.Exact v ∧ tail.Exact v .one) ∧ rest.Exact v

def Tail.Exact (v : ε → Bool) : Mode → Tail ε τ → Prop
  | _, .endif _ => True
  | .opened, .els _ body _ => body.Exact v
  | .zero, .els _ body _ => body.Exact v
  | .one, .els _ _ _ => True
  | .opened, .elif b body tail =>
      match b.1.expr with
      | .unknown e => if v e then body.Exact v else tail.Exact v .opened
      | .int n => if n = 0 then tail.Exact v .zero else body.Exact v ∧ tail.Exact v .one
  | .zero, .elif b body tail =>
      match b.1.expr with
      | .unknown e => if v e then body.Exact v else tail.Exact v .opened
      | .int n => if n = 0 then tail.Exact v .zero else body.Exact v ∧ tail.Exact v .one
  | .one, .elif _ _ tail => tail.select v = [] ∧ tail.Exact v .zero

end

mutual

/-- The blocks that the preprocessor selects from what the tool leaves, where that is well nested. -/
def Items.kept (v : ε → Bool) : Items ε τ → List (Block ε τ)
  | .nil => []
  | .leaf b rest => b.1 :: rest.kept v
  | .group b body tail rest =>
      (match b.1.expr with
        | .unknown e => if v e then body.kept v else tail.kept v .opened
        | .int n => if n = 0 then tail.kept v .zero else body.kept v ++ tail.kept v .one) ++ rest.kept v

def Tail.kept (v : ε → Bool) : Mode → Tail ε τ → List (Block ε τ)
  | _, .endif _ => []
  | .opened, .els _ body _ => body.kept v
  | .zero, .els _ body _ => body.kept v
  | .one, .els _ _ _ => []
  | .opened, .elif b body tail =>
      match b.1.expr with
      | .unknown e => if v e then body.kept v else tail.kept v .opened
      | .int n => if n = 0 then tail.kept v .zero else body.kept v ++ tail.kept v .one
  | .zero, .elif b body tail =>
      match b.1.expr with
      | .unknown e => if v e then body.kept v else tail.kept v .opened
      | .int n => if n = 0 then tail.kept v .zero else body.kept v ++ tail.kept v .one
  | .one, .elif _ _ tail => tail.kept v .zero

end

section Rebuild

def Items.append : Items ε τ → Items ε τ → Items ε τ
  | .nil, items => items
  | .leaf b rest, items => .leaf b (rest.append items)
  | .group b body tail rest, items => .group b body tail (rest.append items)

@[simp]
theorem append_flatten (items items' : Items ε τ) :
    (items.append items').flatten = items.flatten ++ items'.flatten := by
  match items with
  | .nil => rfl
  | .leaf b rest => simp [Items.append, Items.flatten, append_flatten rest]
  | .group b body tail rest => simp [Items.append, Items.flatten, append_flatten rest]

@[simp]
theorem append_select (v : ε → Bool) (items items' : Items ε τ) :
    (items.append items').select v = items.select v ++ items'.select v := by
  match items with
  | .nil => rfl
  | .leaf b rest => simp [Items.append, Items.select, append_select v rest]
  | .group b body tail rest => simp [Items.append, Items.select, append_select v rest]

/-- `l` is well nested, and the preprocessor selects `kept` from it. -/
def Rebuilds (l : List (Block ε τ)) (kept : (ε → Bool) → List (Block ε τ)) : Prop :=
  ∃ out : Items ε τ, out.flatten = l ∧ ∀ v, out.select v = kept v

/-- The same for the branches behind an `#if`. -/
def TailRebuilds (l : List (Block ε τ)) (kept : (ε → Bool) → List (Block ε τ)) : Prop :=
  ∃ out : Tail ε τ, out.flatten = l ∧ ∀ v, out.select v = kept v

theorem Rebuilds.append {l l' : List (Block ε τ)} {kept kept' : (ε → Bool) → List (Block ε τ)}
    (h : Rebuilds l kept) (h' : Rebuilds l' kept') : Rebuilds (l ++ l') (fun v => kept v ++ kept' v) := by
  obtain ⟨out, rfl, hkept⟩ := h
  obtain ⟨out', rfl, hkept'⟩ := h'
  exact ⟨out.append out', append_flatten _ _, fun v => by rw [append_select, hkept, hkept']⟩

/-- An `#if` that the tool keeps, with its body and the branches behind it. -/
theorem Rebuilds.group {b : Block ε τ} (hb : b.directive.opens = true) {e : ε} (he : b.expr = .unknown e)
    {l l' : List (Block ε τ)} {kept kept' : (ε → Bool) → List (Block ε τ)} (h : Rebuilds l kept)
    (h' : TailRebuilds l' kept') : Rebuilds (b :: (l ++ l')) (fun v => if v e then kept v else kept' v) := by
  obtain ⟨out, rfl, hkept⟩ := h
  obtain ⟨out', rfl, hkept'⟩ := h'
  refine ⟨.group ⟨b, hb⟩ out out' .nil, by simp [Items.flatten], fun v => ?_⟩
  rw [Items.select, he, hkept, hkept', Items.select, List.append_nil]
  rfl

/-- What a branch with its condition leaves, if the rest is known. -/
theorem rebuilds_branch {b : Block ε τ} (hb : b.directive.opens = true) {body : Items ε τ} {tail : Tail ε τ}
    (hbody : body.Closed → Rebuilds body.opt body.kept)
    (opened : tail.Closed .opened → TailRebuilds (tail.opt .opened) (tail.kept · .opened))
    (zero : tail.Closed .zero → Rebuilds (tail.opt .zero) (tail.kept · .zero))
    (one : tail.Closed .one → Rebuilds (tail.opt .one) (tail.kept · .one))
    (h : match b.expr with
      | .unknown _ => body.Closed ∧ tail.Closed .opened
      | .int n => if n = 0 then tail.Closed .zero else body.Closed ∧ tail.Closed .one) :
    Rebuilds
      (match b.expr with
        | .unknown _ => b :: (body.opt ++ tail.opt .opened)
        | .int n => if n = 0 then tail.opt .zero else body.opt ++ tail.opt .one)
      (fun v => match b.expr with
        | .unknown e => if v e then body.kept v else tail.kept v .opened
        | .int n => if n = 0 then tail.kept v .zero else body.kept v ++ tail.kept v .one) := by
  match he : b.expr with
  | .unknown e =>
      rw [he] at h
      exact (hbody h.1).group hb he (opened h.2)
  | .int n =>
      rw [he] at h
      by_cases hn : n = 0
      · simp only [if_pos hn] at h ⊢
        exact zero h
      · simp only [if_neg hn] at h ⊢
        exact (hbody h.1).append (one h.2)

mutual

theorem rebuilds_items (items : Items ε τ) (h : items.Closed) : Rebuilds items.opt items.kept := by
  match items with
  | .nil => exact ⟨.nil, rfl, fun _ => rfl⟩
  | .leaf b rest =>
      obtain ⟨out, flat, hkept⟩ := rebuilds_items rest h
      exact ⟨.leaf b out, by rw [Items.flatten, flat, Items.opt], fun v => by rw [Items.select, hkept]; rfl⟩
  | .group b body tail rest =>
      exact (rebuilds_branch b.2 (rebuilds_items body) (rebuilds_opened tail) (rebuilds_zero tail) (rebuilds_one tail)
        h.1).append (rebuilds_items rest h.2)

theorem rebuilds_opened (tail : Tail ε τ) (h : tail.Closed .opened) :
    TailRebuilds (tail.opt .opened) (tail.kept · .opened) := by
  match tail with
  | .endif b => exact ⟨.endif b, rfl, fun _ => rfl⟩
  | .els b body b' =>
      obtain ⟨out, flat, hkept⟩ := rebuilds_items body h
      exact ⟨.els b out b', by rw [Tail.flatten, flat, Tail.opt], fun v => by rw [Tail.select, hkept]; rfl⟩
  | .elif b body tail =>
      rw [Tail.Closed] at h
      match he : b.1.expr with
      | .unknown e =>
          rw [he] at h
          obtain ⟨out, flat, hkept⟩ := rebuilds_items body h.1
          obtain ⟨out', flat', hkept'⟩ := rebuilds_opened tail h.2
          refine ⟨.elif b out out', ?_, fun v => ?_⟩
          · rw [Tail.flatten, flat, flat', Tail.opt, he]
          · simp only [Tail.select, hkept, hkept', Tail.kept, he]
            rfl
      | .int n =>
          rw [he] at h
          exact h.elim

theorem rebuilds_zero (tail : Tail ε τ) (h : tail.Closed .zero) : Rebuilds (tail.opt .zero) (tail.kept · .zero) := by
  match tail with
  | .endif b => exact ⟨.nil, rfl, fun _ => rfl⟩
  | .els b body b' => exact rebuilds_items body h
  | .elif b body tail =>
      have opens : ({ b.1 with directive := .dirIf } : Block ε τ).directive.opens = true := rfl
      exact rebuilds_branch opens (rebuilds_items body) (rebuilds_opened tail) (rebuilds_zero tail)
        (rebuilds_one tail) h

theorem rebuilds_one (tail : Tail ε τ) (h : tail.Closed .one) : Rebuilds (tail.opt .one) (tail.kept · .one) := by
  match tail with
  | .endif b => exact ⟨.nil, rfl, fun _ => rfl⟩
  | .els b body b' => exact ⟨.nil, rfl, fun _ => rfl⟩
  | .elif b body tail => exact rebuilds_zero tail h

end

end Rebuild

section Balance

/-- The groups that `l` opens without closing them. -/
def surplus : List (Block ε τ) → ℤ
  | [] => 0
  | b :: l => (if b.directive.opens then 1 else if b.directive = .dirEndif then -1 else 0) + surplus l

@[simp]
theorem surplus_append (l l' : List (Block ε τ)) : surplus (l ++ l') = surplus l + surplus l' := by
  induction l with
  | nil => simp [surplus]
  | cons b l ih => simp only [List.cons_append, surplus, ih, Int.add_assoc]

variable {b : Block ε τ}

theorem surplus_opens (h : b.directive.opens = true) (l : List (Block ε τ)) : surplus (b :: l) = 1 + surplus l := by
  rw [surplus, if_pos h]

theorem surplus_endif (h : b.directive = .dirEndif) (l : List (Block ε τ)) : surplus (b :: l) = -1 + surplus l := by
  rw [surplus, h]
  rfl

theorem surplus_other (opens : b.directive.opens = false) (closes : b.directive ≠ .dirEndif) (l : List (Block ε τ)) :
    surplus (b :: l) = surplus l := by
  rw [surplus, if_neg (by rw [opens]; decide), if_neg closes, Int.zero_add]

mutual

theorem surplus_items (items : Items ε τ) : surplus items.flatten = 0 := by
  match items with
  | .nil => rfl
  | .leaf b rest =>
      obtain ⟨opens, _, _, ne⟩ := plain_ne b.2
      rw [Items.flatten, surplus_other opens ne, surplus_items rest]
  | .group b body tail rest =>
      rw [Items.flatten, surplus_opens b.2, surplus_append, surplus_append, surplus_items body, surplus_tail tail,
        surplus_items rest]
      rfl

theorem surplus_tail (tail : Tail ε τ) : surplus tail.flatten = -1 := by
  match tail with
  | .endif b => exact surplus_endif b.2 []
  | .els b body b' =>
      rw [Tail.flatten, surplus_other (by rw [b.2]; rfl) (by rw [b.2]; decide), surplus_append, surplus_items body,
        surplus_endif b'.2]
      rfl
  | .elif b body tail =>
      rw [Tail.flatten, surplus_other (by rw [b.2]; rfl) (by rw [b.2]; decide), surplus_append, surplus_items body,
        surplus_tail tail]
      rfl

end

/-- The blocks `l` close at most `n` groups more than they open, and fewer unless `closed`. -/
def Lacks (l : List (Block ε τ)) (n : ℤ) (closed : Prop) : Prop :=
  -n ≤ surplus l ∧ (surplus l = -n → closed)

theorem Lacks.append {l l' : List (Block ε τ)} {n n' : ℤ} {closed closed' : Prop} (h : Lacks l n closed)
    (h' : Lacks l' n' closed') : Lacks (l ++ l') (n + n') (closed ∧ closed') := by
  obtain ⟨bound, eq⟩ := h
  obtain ⟨bound', eq'⟩ := h'
  refine ⟨by rw [surplus_append]; omega, fun sum => ?_⟩
  rw [surplus_append] at sum
  exact ⟨eq (by omega), eq' (by omega)⟩

theorem Lacks.opens {l : List (Block ε τ)} {closed : Prop} (hb : b.directive.opens = true) (h : Lacks l 1 closed) :
    Lacks (b :: l) 0 closed := by
  obtain ⟨bound, eq⟩ := h
  rw [Lacks, surplus_opens hb]
  exact ⟨by omega, fun sum => eq (by omega)⟩

/-- What a branch with its condition leaves, if the rest is known. -/
theorem lacks_branch {b : Block ε τ} (hb : b.directive.opens = true) {body : Items ε τ} {tail : Tail ε τ}
    (hbody : Lacks body.opt 0 body.Closed) (opened : Lacks (tail.opt .opened) 1 (tail.Closed .opened))
    (zero : Lacks (tail.opt .zero) 0 (tail.Closed .zero)) (one : Lacks (tail.opt .one) 0 (tail.Closed .one)) :
    Lacks
      (match b.expr with
        | .unknown _ => b :: (body.opt ++ tail.opt .opened)
        | .int n => if n = 0 then tail.opt .zero else body.opt ++ tail.opt .one) 0
      (match b.expr with
        | .unknown _ => body.Closed ∧ tail.Closed .opened
        | .int n => if n = 0 then tail.Closed .zero else body.Closed ∧ tail.Closed .one) := by
  match b.expr with
  | .unknown e => exact (hbody.append opened).opens hb
  | .int n =>
      by_cases hn : n = 0
      · simpa only [if_pos hn] using zero
      · simp only [if_neg hn]
        exact hbody.append one

mutual

theorem lacks_items (items : Items ε τ) : Lacks items.opt 0 items.Closed := by
  match items with
  | .nil => exact ⟨Int.le_refl 0, fun _ => trivial⟩
  | .leaf b rest =>
      obtain ⟨opens, _, _, ne⟩ := plain_ne b.2
      rw [Items.opt, Lacks, surplus_other opens ne]
      exact lacks_items rest
  | .group b body tail rest =>
      exact (lacks_branch b.2 (lacks_items body) (lacks_opened tail) (lacks_zero tail) (lacks_one tail)).append
        (lacks_items rest)

theorem lacks_opened (tail : Tail ε τ) : Lacks (tail.opt .opened) 1 (tail.Closed .opened) := by
  match tail with
  | .endif b => exact ⟨Int.le_of_eq (surplus_endif b.2 []).symm, fun _ => trivial⟩
  | .els b body b' =>
      have ends : Lacks [b'.1] 1 True := ⟨Int.le_of_eq (surplus_endif b'.2 []).symm, fun _ => trivial⟩
      rw [Tail.opt, Lacks, surplus_other (by rw [b.2]; rfl) (by rw [b.2]; decide)]
      exact ⟨((lacks_items body).append ends).1, fun sum => (((lacks_items body).append ends).2 sum).1⟩
  | .elif b body tail =>
      rw [Tail.opt, Tail.Closed]
      match b.1.expr with
      | .unknown e =>
          rw [Lacks, surplus_other (by rw [b.2]; rfl) (by rw [b.2]; decide)]
          exact (lacks_items body).append (lacks_opened tail)
      | .int n =>
          have bound : 0 ≤ surplus (if n = 0 then tail.opt .zero else body.opt ++ tail.opt .one) := by
            split
            · exact (lacks_zero tail).1
            · exact ((lacks_items body).append (lacks_one tail)).1
          exact ⟨by dsimp only; omega, fun sum => by dsimp only at sum; omega⟩

theorem lacks_zero (tail : Tail ε τ) : Lacks (tail.opt .zero) 0 (tail.Closed .zero) := by
  match tail with
  | .endif b => exact ⟨Int.le_refl 0, fun _ => trivial⟩
  | .els b body b' => exact lacks_items body
  | .elif b body tail =>
      have opens : ({ b.1 with directive := .dirIf } : Block ε τ).directive.opens = true := rfl
      exact lacks_branch opens (lacks_items body) (lacks_opened tail) (lacks_zero tail) (lacks_one tail)

theorem lacks_one (tail : Tail ε τ) : Lacks (tail.opt .one) 0 (tail.Closed .one) := by
  match tail with
  | .endif b => exact ⟨Int.le_refl 0, fun _ => trivial⟩
  | .els b body b' => exact ⟨Int.le_refl 0, fun _ => trivial⟩
  | .elif b body tail => exact lacks_zero tail

end

end Balance

section Selected

open scoped List

variable {v : ε → Bool}

/-- Where the parts of a list are parts of the parts of another, the lists are equal if the parts are. -/
theorem append_eq_iff {α : Type} {s s' t t' : List α} (h : s' <+ s) (h' : t' <+ t) :
    s ++ t = s' ++ t' ↔ s = s' ∧ t = t' := by
  refine ⟨fun eq => List.append_inj eq ?_, fun ⟨left, right⟩ => by rw [left, right]⟩
  have len := congrArg List.length eq
  have le := h.length_le
  have le' := h'.length_le
  simp only [List.length_append] at len
  omega

/-- A branch with its condition. -/
theorem select_sublist_branch (c : Cond ε) {body opened zero one selected selected' : List (Block ε τ)}
    (hbody : selected <+ body) (hopened : selected' <+ opened) (hzero : selected' <+ zero) :
    (if c.holds v then selected else selected') <+
      (match c with
        | .unknown e => if v e then body else opened
        | .int n => if n = 0 then zero else body ++ one) := by
  match c with
  | .unknown e => cases h : v e <;> simpa [Cond.holds, h]
  | .int n =>
      by_cases hn : n = 0
      · simpa [Cond.holds, hn]
      · simpa [Cond.holds, hn] using hbody.trans (List.sublist_append_left body one)

mutual

/-- Nothing that the preprocessor selects is lost. -/
theorem select_sublist_items (items : Items ε τ) : items.select v <+ items.kept v := by
  match items with
  | .nil => exact List.Sublist.refl []
  | .leaf b rest => exact (select_sublist_items rest).cons_cons b.1
  | .group b body tail rest =>
      exact (select_sublist_branch b.1.expr (select_sublist_items body) (select_sublist_opened tail)
        (select_sublist_zero tail)).append (select_sublist_items rest)

theorem select_sublist_opened (tail : Tail ε τ) : tail.select v <+ tail.kept v .opened := by
  match tail with
  | .endif b => exact List.Sublist.refl []
  | .els b body b' => exact select_sublist_items body
  | .elif b body tail =>
      exact select_sublist_branch b.1.expr (select_sublist_items body) (select_sublist_opened tail)
        (select_sublist_zero tail)

theorem select_sublist_zero (tail : Tail ε τ) : tail.select v <+ tail.kept v .zero := by
  match tail with
  | .endif b => exact List.Sublist.refl []
  | .els b body b' => exact select_sublist_items body
  | .elif b body tail =>
      exact select_sublist_branch b.1.expr (select_sublist_items body) (select_sublist_opened tail)
        (select_sublist_zero tail)

end

/-- A branch with its condition. -/
theorem kept_branch_iff (c : Cond ε) {body opened zero one selected selected' : List (Block ε τ)}
    {exactBody exactOpened exactZero exactOne : Prop} (sub : selected <+ body)
    (hbody : body = selected ↔ exactBody) (hopened : opened = selected' ↔ exactOpened)
    (hzero : zero = selected' ↔ exactZero) (hone : one = [] ↔ exactOne) :
    (match c with
        | .unknown e => if v e then body else opened
        | .int n => if n = 0 then zero else body ++ one) = (if c.holds v then selected else selected') ↔
      (match c with
        | .unknown e => if v e then exactBody else exactOpened
        | .int n => if n = 0 then exactZero else exactBody ∧ exactOne) := by
  match c with
  | .unknown e => cases h : v e <;> simpa [Cond.holds, h]
  | .int n =>
      by_cases hn : n = 0
      · simpa [Cond.holds, hn]
      · have parts := append_eq_iff sub (List.nil_sublist one)
        rw [List.append_nil, hbody, hone] at parts
        simpa [Cond.holds, hn] using parts

mutual

theorem kept_items_iff (items : Items ε τ) : items.kept v = items.select v ↔ items.Exact v := by
  match items with
  | .nil => exact iff_of_true rfl trivial
  | .leaf b rest => exact (List.cons_inj_right b.1).trans (kept_items_iff rest)
  | .group b body tail rest =>
      rw [Items.kept, Items.select, Items.Exact]
      refine (append_eq_iff ?_ (select_sublist_items rest)).trans (and_congr ?_ (kept_items_iff rest))
      · exact select_sublist_branch b.1.expr (select_sublist_items body) (select_sublist_opened tail)
          (select_sublist_zero tail)
      · exact kept_branch_iff b.1.expr (select_sublist_items body) (kept_items_iff body) (kept_opened_iff tail)
          (kept_zero_iff tail) (kept_one_iff tail)

theorem kept_opened_iff (tail : Tail ε τ) : tail.kept v .opened = tail.select v ↔ tail.Exact v .opened := by
  match tail with
  | .endif b => exact iff_of_true rfl trivial
  | .els b body b' => exact kept_items_iff body
  | .elif b body tail =>
      exact kept_branch_iff b.1.expr (select_sublist_items body) (kept_items_iff body) (kept_opened_iff tail)
        (kept_zero_iff tail) (kept_one_iff tail)

theorem kept_zero_iff (tail : Tail ε τ) : tail.kept v .zero = tail.select v ↔ tail.Exact v .zero := by
  match tail with
  | .endif b => exact iff_of_true rfl trivial
  | .els b body b' => exact kept_items_iff body
  | .elif b body tail =>
      exact kept_branch_iff b.1.expr (select_sublist_items body) (kept_items_iff body) (kept_opened_iff tail)
        (kept_zero_iff tail) (kept_one_iff tail)

theorem kept_one_iff (tail : Tail ε τ) : tail.kept v .one = [] ↔ tail.Exact v .one := by
  match tail with
  | .endif b => exact iff_of_true rfl trivial
  | .els b body b' => exact iff_of_true rfl trivial
  | .elif b body tail =>
      constructor
      · intro none
        have nothing : tail.select v = [] := List.sublist_nil.1 (none ▸ select_sublist_zero tail)
        exact ⟨nothing, (kept_zero_iff tail).1 (Eq.trans none nothing.symm)⟩
      · rintro ⟨nothing, exact⟩
        exact ((kept_zero_iff tail).2 exact).trans nothing

end

end Selected

/-! ### What the tool preserves -/

/-- A list in which each group is closed and has no branch behind its `#else`. -/
def WellNested (l : List (Block ε τ)) : Prop := ∃ items : Items ε τ, items.flatten = l

theorem closed_of_wellNested {items : Items ε τ} (h : WellNested items.opt) : items.Closed := by
  obtain ⟨out, flat⟩ := h
  exact (lacks_items items).2 (flat ▸ surplus_items out)

/-- The tool has a result that preserves what a well-nested list means, for the valuation `v`, if and only if no
condition that it reads is the name `hex`, no constant `#elif` follows an `#if` that it keeps, and nothing is selected
behind an `#elif` that follows a branch it inlines. -/
theorem preprocess_optimizeIf01_iff (hex v : ε → Bool) (items : Items ε τ) :
    (∃ l, optimizeIf01 hex items.flatten = .ok l ∧ WellNested l ∧
        preprocess v [] l = preprocess v [] items.flatten) ↔
      items.readable hex = true ∧ items.Closed ∧ items.Exact v := by
  rw [optimizeIf01_flatten]
  constructor
  · rintro ⟨l, run, nested, same⟩
    split at run
    next readable =>
      cases run
      have closed := closed_of_wellNested nested
      obtain ⟨out, flat, hkept⟩ := rebuilds_items items closed
      rw [← flat, preprocess_flatten, preprocess_flatten, hkept] at same
      exact ⟨readable, closed, kept_items_iff items |>.1 (Option.some.inj same)⟩
    next => cases run
  · rintro ⟨readable, closed, exact⟩
    obtain ⟨out, flat, hkept⟩ := rebuilds_items items closed
    refine ⟨items.opt, if_pos readable, ⟨out, flat⟩, ?_⟩
    rw [← flat, preprocess_flatten, preprocess_flatten, hkept]
    exact congrArg some ((kept_items_iff items).2 exact)

section Examples

/-- A text block, and a directive with its condition. -/
def textBlock (text : ℕ) : {b : Block ℕ ℕ // b.directive.plain = true} := ⟨⟨.text, .int 0, text⟩, rfl⟩

def ifBlock (c : Cond ℕ) : {b : Block ℕ ℕ // b.directive.opens = true} := ⟨⟨.dirIf, c, 0⟩, rfl⟩

def elifBlock (c : Cond ℕ) : {b : Block ℕ ℕ // b.directive = .dirElif} := ⟨⟨.dirElif, c, 0⟩, rfl⟩

def elseBlock : {b : Block ℕ ℕ // b.directive = .dirElse} := ⟨⟨.dirElse, .int 0, 0⟩, rfl⟩

def endifBlock : {b : Block ℕ ℕ // b.directive = .dirEndif} := ⟨⟨.dirEndif, .int 0, 0⟩, rfl⟩

/-- `#if X`, `1`, `#elif 1`, `2`, `#endif`. -/
def constantElif : Items ℕ ℕ :=
  .group (ifBlock (.unknown 0)) (.leaf (textBlock 1) .nil)
    (.elif (elifBlock (.int 1)) (.leaf (textBlock 2) .nil) (.endif endifBlock)) .nil

/-- `#if 1`, `1`, `#elif X`, `2`, `#else`, `3`, `#endif`. -/
def elseAfterElif : Items ℕ ℕ :=
  .group (ifBlock (.int 1)) (.leaf (textBlock 1) .nil)
    (.elif (elifBlock (.unknown 0)) (.leaf (textBlock 2) .nil)
      (.els elseBlock (.leaf (textBlock 3) .nil) endifBlock)) .nil

/-- `#if X`, `#endif`. -/
def emptyIf : Items ℕ ℕ := .group (ifBlock (.unknown 0)) .nil (.endif endifBlock) .nil

/-- The `#endif` of the first is lost, the `#else` of the second is kept although its `#if` was taken, and the third has
no result if its condition is the name `hex`. -/
theorem optimizeIf01_changes :
    (∃ l, optimizeIf01 (fun _ => false) constantElif.flatten = .ok l ∧ ¬ WellNested l) ∧
      (∃ l, optimizeIf01 (fun _ => false) elseAfterElif.flatten = .ok l ∧
        preprocess (fun _ => false) [] elseAfterElif.flatten = some [(textBlock 1).1] ∧
        preprocess (fun _ => false) [] l = some [(textBlock 1).1, (textBlock 3).1]) ∧
      optimizeIf01 (fun _ => true) emptyIf.flatten = .error ⟨hexName, 16⟩ := by
  refine ⟨⟨_, optimizeIf01_flatten constantElif, fun nested => (closed_of_wellNested nested).1.2⟩, ?_, ?_⟩
  · exact ⟨_, optimizeIf01_flatten elseAfterElif, by decide, by decide⟩
  · exact optimizeIf01_flatten emptyIf

end Examples

end Bionic.CppBlocks
