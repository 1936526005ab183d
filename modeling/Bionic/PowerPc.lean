import Bionic.ByteMemory
import Bionic.WordBits

/-! # A fragment of the 32-bit PowerPC instruction set

The instructions that stubs for calls through a table are made of: `b`, `addi`, `addis`, `lwz`, `mtctr`
and `bctr`, decoded from the big-endian words in memory.  `Transfers` says that running the code at an
address ends up at another one, without touching the link register or any register but `r11`. -/

namespace Bionic.PowerPc

open ByteMemory WordBits

/-! ### Instructions -/

inductive Instr where
  | b (li : BitVec 26) (aa lk : Bool)
  | addi (rt ra : ℕ) (si : BitVec 16)
  | addis (rt ra : ℕ) (si : BitVec 16)
  | lwz (rt ra : ℕ) (d : BitVec 16)
  | mtctr (rs : ℕ)
  | bctr (lk : Bool)
deriving DecidableEq, Repr

/-- `len` bits of a word, above the `lo` least significant ones. -/
def field (w : BitVec 32) (lo len : ℕ) : ℕ := w.toNat / 2 ^ lo % 2 ^ len

/-- The immediate operand of a D-form instruction. -/
def immediate (w : BitVec 32) : BitVec 16 := w.setWidth 16

/-- The displacement of an I-form branch: 24 bits, followed by two zeros. -/
def displacement (w : BitVec 32) : BitVec 26 := BitVec.ofNat 26 (4 * field w 2 24)

def decode (w : BitVec 32) : Option Instr :=
  match field w 26 6 with
  | 14 => some (.addi (field w 21 5) (field w 16 5) (immediate w))
  | 15 => some (.addis (field w 21 5) (field w 16 5) (immediate w))
  | 18 => some (.b (displacement w) (field w 1 1 = 1) (field w 0 1 = 1))
  | 19 =>
      -- `bcctr` with a `BO` field that says to branch always
      if field w 1 10 = 528 ∧ field w 21 5 = 20 then some (.bctr (field w 0 1 = 1)) else none
  | 31 =>
      -- `mtspr` with the number of `CTR`, the halves of which are swapped in the encoding
      if field w 1 10 = 467 ∧ field w 11 10 = 288 then some (.mtctr (field w 21 5)) else none
  | 32 => some (.lwz (field w 21 5) (field w 16 5) (immediate w))
  | _ => none

/-! ### Execution -/

structure Cpu where
  pc : Addr
  gpr : ℕ → BitVec 32
  ctr : BitVec 32
  lr : BitVec 32

/-- The operand `(RA|0)`. -/
def Cpu.base (c : Cpu) (ra : ℕ) : BitVec 32 := if ra = 0 then 0#32 else c.gpr ra

/-- Set a general-purpose register and go to the next instruction. -/
def Cpu.setGpr (c : Cpu) (rt : ℕ) (v : BitVec 32) : Cpu :=
  { c with pc := c.pc + 4#32, gpr := fun r => if r = rt then v else c.gpr r }

/-- Go to an address, and keep the one after this instruction if `lk` is set. -/
def Cpu.branch (c : Cpu) (lk : Bool) (target : Addr) : Cpu :=
  { c with pc := target, lr := if lk then c.pc + 4#32 else c.lr }

def exec (m : Mem) (c : Cpu) : Instr → Cpu
  | .b li aa lk => c.branch lk ((if aa then 0#32 else c.pc) + li.signExtend 32)
  | .addi rt ra si => c.setGpr rt (c.base ra + si.signExtend 32)
  | .addis rt ra si => c.setGpr rt (c.base ra + (si ++ 0#16))
  | .lwz rt ra d => c.setGpr rt (read32 .big m (c.base ra + d.signExtend 32))
  | .mtctr rs => { c with pc := c.pc + 4#32, ctr := c.gpr rs }
  | .bctr lk => c.branch lk (c.ctr &&& ~~~3#32)

/-- One instruction, unless it is none of the above. -/
def step (m : Mem) (c : Cpu) : Option Cpu := (decode (read32 .big m c.pc)).map (exec m c)

def run (m : Mem) : ℕ → Cpu → Option Cpu
  | 0, c => some c
  | n + 1, c => (step m c).bind (run m n)

/-- Running the code at `start` leads to `target`, with the link register and all general-purpose
registers but `r11` as before. -/
def Transfers (m : Mem) (start target : Addr) : Prop :=
  ∀ c : Cpu, c.pc = start → ∃ n c', 0 < n ∧ run m n c = some c' ∧ c'.pc = target ∧ c'.lr = c.lr ∧
    ∀ r ≠ 11, c'.gpr r = c.gpr r

theorem run_succ {m : Mem} {c c' : Cpu} {i : Instr} {n : ℕ} (hi : decode (read32 .big m c.pc) = some i)
    (hc : exec m c i = c') : run m (n + 1) c = run m n c' := by
  rw [run, step, hi, Option.map_some, Option.bind_some, hc]

/-! ### Words made of an opcode and an operand -/

section Encode

variable {op v w x : BitVec 32} {k lo len : ℕ}

/-- The fields above the operand are those of the opcode. -/
theorem field_or (hop : op.toNat % 2 ^ 16 = 0) (hv : v.toNat < 2 ^ 16) (hlo : 16 ≤ lo) :
    field (op ||| v) lo len = field op lo len := by
  obtain ⟨j, rfl⟩ := Nat.exists_eq_add_of_le hlo
  unfold field
  rw [toNat_or_of_lt 16 hop hv, Nat.pow_add, ← Nat.div_div_eq_div_mul, ← Nat.div_div_eq_div_mul]
  congr 2
  omega

theorem immediate_or (hop : op.toNat % 2 ^ 16 = 0) (hv : v.toNat < 2 ^ 16) :
    immediate (op ||| v) = v.setWidth 16 := by
  apply BitVec.eq_of_toNat_eq
  rw [immediate, BitVec.toNat_setWidth, BitVec.toNat_setWidth, toNat_or_of_lt 16 hop hv]
  omega

/-- A branch without `AA` and `LK`. -/
theorem decode_b (hk : k < 2 ^ 24) (hw : w.toNat = 18 * 2 ^ 26 + 4 * k) :
    decode w = some (.b (BitVec.ofNat 26 (4 * k)) false false) := by
  have hop : field w 26 6 = 18 := by
    unfold field
    omega
  have hli : field w 2 24 = k := by
    unfold field
    omega
  have haa : field w 1 1 = 0 := by
    unfold field
    omega
  have hlk : field w 0 1 = 0 := by
    unfold field
    omega
  simp [decode, displacement, hop, hli, haa, hlk]

/-- Twenty-six bits are enough for an offset of less than 32 MiB in either direction. -/
theorem signExtend_of_near (hx : x.toNat < 2 ^ 25 ∨ 2 ^ 32 - 2 ^ 25 ≤ x.toNat) :
    (BitVec.ofNat 26 x.toNat).signExtend 32 = x := by
  apply BitVec.eq_of_toNat_eq
  have hlt := x.isLt
  rw [BitVec.toNat_signExtend, BitVec.msb_eq_decide, BitVec.toNat_setWidth, BitVec.toNat_ofNat]
  split
  · next h =>
    rw [decide_eq_true_iff] at h
    omega
  · next h =>
    rw [decide_eq_true_iff] at h
    omega

/-- An address is the sum of its high half, adjusted for the sign of the low half, and of its low half.
This is what `addis` and the displacement of `lwz` add up to. -/
theorem high_add_low (x : BitVec 32) :
    (((x + 0x8000#32) >>> 16).setWidth 16 ++ 0#16) + (x.setWidth 16).signExtend 32 = x := by
  have hx := x.isLt
  apply BitVec.eq_of_toNat_eq
  have hhigh : (((x + 0x8000#32) >>> 16).setWidth 16 ++ 0#16).toNat =
      2 ^ 16 * ((x.toNat + 0x8000) / 2 ^ 16 % 2 ^ 16) := by
    rw [BitVec.toNat_append, BitVec.toNat_setWidth, BitVec.toNat_ushiftRight, BitVec.toNat_add,
      Nat.shiftRight_eq_div_pow, Nat.shiftLeft_eq]
    simp
    omega
  have hlow : ((x.setWidth 16).signExtend 32).toNat =
      x.toNat % 2 ^ 16 + if 2 ^ 15 ≤ x.toNat % 2 ^ 16 then 2 ^ 32 - 2 ^ 16 else 0 := by
    rw [BitVec.toNat_signExtend, BitVec.msb_eq_decide, BitVec.toNat_setWidth, BitVec.toNat_setWidth]
    simp
    omega
  rw [BitVec.toNat_add, hhigh, hlow]
  split <;> omega

end Encode

end Bionic.PowerPc
