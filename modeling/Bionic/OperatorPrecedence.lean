import Mathlib.Data.List.Basic

/-! # Operators with precedences

The value of a chain of operands and binary operators, where the operators of higher precedence bind tighter and those
of equal precedence group to the left.  It is computed with a stack of the operators that wait for their right operand,
each with its left operand, the innermost one first.

`climb_paren` says when the parentheses around a part of a chain can be left out.  On the stack of a chain without them
lie the entries of the part, on those of the chain around it (`lift`); the part may also continue the operator in front
of it, where the two associate. -/

namespace OperatorPrecedence

variable {ω τ : Type} (prec : ω → ℕ) (bin : ω → τ → τ → τ)

/-- Applies the operators of the stack that bind at least as tight as `p`. -/
def reduce (p : ℕ) : List (τ × ω) → τ → List (τ × ω) × τ
  | [], a => ([], a)
  | (l, o) :: st, a => if p ≤ prec o then reduce p st (bin o l a) else ((l, o) :: st, a)

/-- Applies all operators of the stack. -/
def close : List (τ × ω) → τ → τ
  | [], a => a
  | (l, o) :: st, a => close st (bin o l a)

/-- The value of a chain, with its first operand `a`, behind the operators of the stack. -/
def climb : List (τ × ω) → τ → List (ω × τ) → τ
  | st, a, [] => close bin st a
  | st, a, (o, b) :: rest => climb (((reduce prec bin (prec o) st a).2, o) :: (reduce prec bin (prec o) st a).1) b rest

/-- `a o (x o' y)` is `(a o x) o' y`. -/
def Associates (o o' : ω) : Prop := ∀ a x y, bin o a (bin o' x y) = bin o' (bin o a x) y

/-- An operator `o'` that is bare in the right operand of `o` does not change that operand's extent: it binds tighter,
or it associates with `o`. -/
def Follows (o o' : ω) : Prop := prec o < prec o' ∨ prec o = prec o' ∧ Associates bin o o'

/-- The stack of a part of a chain, on `st`.  Where the lowest entry has the precedence of the first one of `st`, that
one was applied before. -/
def lift (st : List (τ × ω)) : List (τ × ω) → List (τ × ω)
  | [] => st
  | [(x, o')] =>
      match st with
      | [] => [(x, o')]
      | (l, o) :: st => if prec o' ≤ prec o then (bin o l x, o') :: st else (x, o') :: (l, o) :: st
  | e :: e' :: inner => e :: lift st (e' :: inner)

/-- The precedences of a stack increase towards its first entry. -/
def Increasing (st : List (τ × ω)) : Prop := st.Pairwise (fun e e' => prec e'.2 < prec e.2)

variable {prec bin}

section Lift

variable {st inner : List (τ × ω)} {p : ℕ} {a : τ}

theorem reduce_of_lt (h : ∀ e ∈ st.head?, prec e.2 < p) : reduce prec bin p st a = (st, a) := by
  cases st with
  | nil => rfl
  | cons e st => exact if_neg (Nat.not_le.2 (h e rfl))

theorem reduce_zero (st : List (τ × ω)) (a : τ) : reduce prec bin 0 st a = ([], close bin st a) := by
  induction st generalizing a with
  | nil => rfl
  | cons e st ih => exact (if_pos (Nat.zero_le _)).trans (ih _)

/-- The entries that stay on the stack are the last ones of it. -/
theorem reduce_suffix (p : ℕ) (st : List (τ × ω)) (a : τ) : (reduce prec bin p st a).1 <:+ st := by
  induction st generalizing a with
  | nil => exact List.suffix_refl []
  | cons e st ih =>
      rw [reduce]
      split
      · exact (ih _).trans (List.suffix_cons e st)
      · exact List.suffix_refl _

/-- The first entry that stays binds less tight than `p`. -/
theorem reduce_head (p : ℕ) (st : List (τ × ω)) (a : τ) : ∀ e ∈ (reduce prec bin p st a).1.head?, prec e.2 < p := by
  induction st generalizing a with
  | nil => exact fun e h => nomatch h
  | cons e st ih =>
      rw [reduce]
      split
      · exact ih _
      · next h =>
        intro e' he'
        obtain rfl := Option.some.inj he'
        exact Nat.not_le.1 h

theorem Increasing.push (h : Increasing prec st) (o : ω) :
    Increasing prec (((reduce prec bin (prec o) st a).2, o) :: (reduce prec bin (prec o) st a).1) := by
  have rest : Increasing prec (reduce prec bin (prec o) st a).1 := h.sublist (reduce_suffix _ _ _).sublist
  refine List.pairwise_cons.2 ⟨fun e he => ?_, rest⟩
  have first := @reduce_head ω τ prec bin (prec o) st a
  cases hst : (reduce prec bin (prec o) st a).1 with
  | nil =>
      rw [hst] at he
      cases he
  | cons e' st' =>
      rw [hst] at he first rest
      have bound := first e' rfl
      rcases List.mem_cons.1 he with rfl | he
      · exact bound
      · exact Nat.lt_trans ((List.pairwise_cons.1 rest).1 e he) bound

/-- The entries of the part are applied as in the part alone, and then those around it. -/
theorem reduce_lift (hinner : ∀ e ∈ inner, p ≤ prec e.2) (assoc : ∀ e ∈ inner, ∀ e' ∈ st.head?, Follows prec bin e'.2 e.2)
    (a : τ) : reduce prec bin p (lift prec bin st inner) a = reduce prec bin p st (close bin inner a) := by
  induction inner generalizing a with
  | nil => rfl
  | cons e inner ih =>
      obtain ⟨x, o'⟩ := e
      have here : p ≤ prec o' := hinner _ (List.mem_cons_self ..)
      cases inner with
      | nil =>
          cases st with
          | nil => exact if_pos here
          | cons e st =>
              obtain ⟨l, o⟩ := e
              rw [lift]
              split
              · next le =>
                obtain lt | ⟨eq, hassoc⟩ := assoc _ (List.mem_cons_self ..) _ rfl
                · exact absurd le (Nat.not_le.2 lt)
                · rw [reduce, if_pos here, close, close, reduce, if_pos (eq.symm ▸ here), hassoc]
              · rw [reduce, if_pos here]
                rfl
      | cons e inner =>
          rw [lift, reduce, if_pos here]
          exact ih (fun e he => hinner e (List.mem_cons_of_mem _ he)) (fun e he => assoc e (List.mem_cons_of_mem _ he)) _

/-- The first operator of the stack of a part is that of the part. -/
theorem lift_head (st : List (τ × ω)) (e : τ × ω) (inner : List (τ × ω)) :
    ∀ e' ∈ (lift prec bin st (e :: inner)).head?, e'.2 = e.2 := by
  intro e' he'
  match inner, st with
  | [], [] => exact congrArg Prod.snd (Option.some.inj he').symm
  | [], (l, o) :: st =>
      rw [lift] at he'
      split at he'
      · obtain rfl := Option.some.inj he'
        rfl
      · obtain rfl := Option.some.inj he'
        rfl
  | _ :: _, _ => exact congrArg Prod.snd (Option.some.inj he').symm

/-- An operator of the part that goes on the stack behind the operator in front of the part. -/
theorem push_front {o : ω} (increasing : Increasing prec st) (follows : ∀ e' ∈ st.head?, Follows prec bin e'.2 o)
    (a : τ) :
    ((reduce prec bin (prec o) st a).2, o) :: (reduce prec bin (prec o) st a).1 = lift prec bin st [(a, o)] := by
  cases st with
  | nil => rfl
  | cons e st =>
      obtain ⟨l, o'⟩ := e
      rw [lift, reduce]
      split
      · next le =>
        have stop : ∀ e ∈ st.head?, prec e.2 < prec o := by
          intro e he
          have below : prec e.2 < prec o' := (List.pairwise_cons.1 increasing).1 e (List.mem_of_mem_head? he)
          obtain lt | ⟨eq, _⟩ := follows _ rfl
          · exact absurd le (Nat.not_le.2 lt)
          · exact Nat.lt_of_lt_of_eq below eq
        rw [reduce_of_lt stop]
      · rfl

/-- Any other operator of the part. -/
theorem push_lift {o : ω} (increasing : Increasing prec st)
    (assoc : ∀ e ∈ inner, ∀ e' ∈ st.head?, Follows prec bin e'.2 e.2) (follows : ∀ e' ∈ st.head?, Follows prec bin e'.2 o)
    (a : τ) :
    ((reduce prec bin (prec o) (lift prec bin st inner) a).2, o) ::
        (reduce prec bin (prec o) (lift prec bin st inner) a).1 =
      lift prec bin st
        (((reduce prec bin (prec o) inner a).2, o) :: (reduce prec bin (prec o) inner a).1) := by
  induction inner generalizing a with
  | nil => exact push_front increasing follows a
  | cons e inner ih =>
      obtain ⟨x, o'⟩ := e
      by_cases le : prec o ≤ prec o'
      · have plain : reduce prec bin (prec o) ((x, o') :: inner) a = reduce prec bin (prec o) inner (bin o' x a) :=
          if_pos le
        rw [plain]
        match inner with
        | [] =>
            have bottom : ∀ e ∈ [(x, o')], prec o ≤ prec e.2 := by
              intro e he
              obtain rfl := List.mem_singleton.1 he
              exact le
            rw [reduce_lift bottom assoc]
            exact push_front increasing follows (bin o' x a)
        | e :: inner =>
            rw [lift, reduce, if_pos le]
            exact ih (fun e he => assoc e (List.mem_cons_of_mem _ he)) _
      · have stop : ∀ e ∈ (lift prec bin st ((x, o') :: inner)).head?, prec e.2 < prec o := by
          intro e he
          rw [lift_head st (x, o') inner e he]
          exact Nat.not_le.1 le
        have plain : reduce prec bin (prec o) ((x, o') :: inner) a = ((x, o') :: inner, a) := if_neg le
        rw [reduce_of_lt stop, plain]
        rfl

/-- A part of a chain, and what follows it, from the stack of the part on. -/
theorem climb_lift {part rest : List (ω × τ)} (increasing : Increasing prec st)
    (assoc : ∀ e ∈ inner, ∀ e' ∈ st.head?, Follows prec bin e'.2 e.2)
    (follows : ∀ x ∈ part, ∀ e' ∈ st.head?, Follows prec bin e'.2 x.1)
    (hinner : ∀ e ∈ inner, ∀ x ∈ rest.head?, prec x.1 ≤ prec e.2)
    (hpart : ∀ y ∈ part, ∀ x ∈ rest.head?, prec x.1 ≤ prec y.1) (a : τ) :
    climb prec bin (lift prec bin st inner) a (part ++ rest) =
      climb prec bin st (climb prec bin inner a part) rest := by
  induction part generalizing inner a with
  | nil =>
      cases rest with
      | nil =>
          have all := reduce_lift (p := 0) (fun e _ => Nat.zero_le _) assoc a
          rw [reduce_zero, reduce_zero] at all
          exact congrArg Prod.snd all
      | cons x rest =>
          obtain ⟨o, b⟩ := x
          have all := reduce_lift (p := prec o) (fun e he => hinner e he _ rfl) assoc a
          rw [List.nil_append, climb, climb, climb, all]
  | cons x part ih =>
      obtain ⟨o, b⟩ := x
      rw [List.cons_append, climb, push_lift increasing assoc (follows _ (List.mem_cons_self ..)), climb]
      refine ih ?_ (fun x hx => follows x (List.mem_cons_of_mem _ hx)) ?_ (fun y hy => hpart y (List.mem_cons_of_mem _ hy)) b
      · intro e he
        rcases List.mem_cons.1 he with rfl | he
        · exact follows _ (List.mem_cons_self ..)
        · exact assoc e ((reduce_suffix _ _ _).subset he)
      · intro e he
        rcases List.mem_cons.1 he with rfl | he
        · exact hpart _ (List.mem_cons_self ..)
        · exact hinner e ((reduce_suffix _ _ _).subset he)

/-- The parentheses around a part of a chain can be left out where the operators of the part follow the operator in
front of it, and bind at least as tight as the one behind it. -/
theorem climb_paren {part rest : List (ω × τ)} (increasing : Increasing prec st)
    (follows : ∀ x ∈ part, ∀ e' ∈ st.head?, Follows prec bin e'.2 x.1)
    (hpart : ∀ y ∈ part, ∀ x ∈ rest.head?, prec x.1 ≤ prec y.1) (a : τ) :
    climb prec bin st a (part ++ rest) = climb prec bin st (climb prec bin [] a part) rest := by
  have fromEmpty := climb_lift increasing (fun e he => (List.not_mem_nil he).elim) follows
    (fun e he => (List.not_mem_nil he).elim) hpart a
  exact fromEmpty

end Lift

end OperatorPrecedence
