import Mathlib
import Bionic.ByteMemory
import Bionic.Iterate

/-! # A fragment of the 32-bit ARM instruction set

The instructions of a loop over the words of a string: `ldr` with its address counted up, `sub`, `add`, `and`, `bics`,
`tst`, `pld` and branches, each of them on a condition where one is used.  Code is text with numeric labels, as in an
`asm` statement, and its registers are the operands of the statement; each label stands once.  The rules say what one
line does: `leads_exec`, `leads_label`, `leads_branch`. -/

namespace Bionic.Arm

open Iterate
open ByteMemory (Mem Endian read32)

abbrev Word := BitVec 32

variable {R : Type} [DecidableEq R]

/-! ### Code -/

inductive Cond where
  | al
  | eq
  | ne
deriving DecidableEq, Repr

/-- A register, shifted to the right or not, or a constant. -/
inductive Operand (R : Type) where
  | reg (r : R)
  | lsr (r : R) (k : ℕ)
  | imm (w : Word)
deriving DecidableEq, Repr

inductive Instr (R : Type) where
  /-- `ldr rt, [rn], #offset` -/
  | ldr (c : Cond) (rt rn : R) (offset : Word)
  | sub (rd rn : R) (op : Operand R)
  | add (c : Cond) (rd rn : R) (op : Operand R)
  | and (rd rn : R) (op : Operand R)
  | bics (rd rn : R) (op : Operand R)
  | tst (rn : R) (op : Operand R)
  | pld (rn : R) (offset : Word)
deriving DecidableEq, Repr

inductive Line (R : Type) where
  | label (n : ℕ)
  | instr (i : Instr R)
  | branch (c : Cond) (n : ℕ)
deriving DecidableEq, Repr

/-! ### Execution -/

/-- The code that is left, the registers and the flag `Z`. -/
structure Cpu (R : Type) where
  code : List (Line R)
  regs : R → Word
  z : Bool

/-- Whether a condition holds. -/
def Cond.holds (z : Bool) : Cond → Bool
  | .al => true
  | .eq => z
  | .ne => !z

def Operand.value (regs : R → Word) : Operand R → Word
  | .reg r => regs r
  | .lsr r k => regs r >>> k
  | .imm w => w

/-- What an instruction does to the registers and the flag. -/
def exec (m : Mem) (regs : R → Word) (z : Bool) : Instr R → (R → Word) × Bool
  | .ldr c rt rn offset =>
    if c.holds z then
      (Function.update (Function.update regs rt (read32 .little m (regs rn))) rn (regs rn + offset), z)
    else (regs, z)
  | .sub rd rn op => (Function.update regs rd (regs rn - op.value regs), z)
  | .add c rd rn op => if c.holds z then (Function.update regs rd (regs rn + op.value regs), z) else (regs, z)
  | .and rd rn op => (Function.update regs rd (regs rn &&& op.value regs), z)
  | .bics rd rn op =>
    (Function.update regs rd (regs rn &&& ~~~op.value regs), decide (regs rn &&& ~~~op.value regs = 0))
  | .tst rn op => (regs, decide (regs rn &&& op.value regs = 0))
  | .pld _ _ => (regs, z)

/-- The code from a label on. -/
def target (program : List (Line R)) (n : ℕ) : List (Line R) := program.dropWhile (· ≠ .label n)

/-- One line; behind the last one, the registers are the result. -/
def step (m : Mem) (program : List (Line R)) (c : Cpu R) : Cpu R ⊕ (R → Word) :=
  match c.code with
  | [] => .inr c.regs
  | .label _ :: rest => .inl { c with code := rest }
  | .instr i :: rest =>
    match exec m c.regs c.z i with
    | (regs, z) => .inl ⟨rest, regs, z⟩
  | .branch cond n :: rest =>
    .inl { c with code := if cond.holds c.z then target program n else rest }

/-! ### Rules -/

section Rules

variable {m : Mem} {program rest : List (Line R)} {regs : R → Word} {z : Bool} {t : Cpu R}

theorem leads_exec {i : Instr R}
    (h : Leads (step m program) ⟨rest, (exec m regs z i).1, (exec m regs z i).2⟩ t) :
    Leads (step m program) ⟨.instr i :: rest, regs, z⟩ t := Leads.next rfl h

theorem leads_label {n : ℕ} (h : Leads (step m program) ⟨rest, regs, z⟩ t) :
    Leads (step m program) ⟨.label n :: rest, regs, z⟩ t := Leads.next rfl h

theorem leads_branch {c : Cond} {n : ℕ}
    (h : Leads (step m program) ⟨if c.holds z then target program n else rest, regs, z⟩ t) :
    Leads (step m program) ⟨.branch c n :: rest, regs, z⟩ t := Leads.next rfl h

theorem returns_end (r : R → Word) : Returns (step m program) ⟨[], regs, z⟩ r ↔ r = regs := returns_done_iff rfl

end Rules

end Bionic.Arm
