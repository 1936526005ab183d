import Mathlib.Data.Finset.Erase
import Mathlib.Data.Finset.Range
import Bionic.WordBits

/-! # Reading a system property (`libc/bionic/system_properties.c`)

`__system_property_read` on one property, for any number of readers, beside the one writer that follows the
rules in `libc/include/sys/_system_properties.h`.  The `serial` of the property counts its updates in the low
24 bits, is odd while an update is going on, and has the length of the value in the high 8 bits.

Every access to the `serial` and to a byte of the value is a step; a `memcpy` moves the bytes in any order.
`Inv` ties the `serial` to the bytes, and what a reader has seen of them to the updates since. -/

namespace Bionic.SystemProperties

open WordBits

abbrev Word := BitVec 32
abbrev Byte := BitVec 8

/-! ### The property -/

def PROP_VALUE_MAX : ℕ := 92

/-- A value without its terminating NUL. -/
structure Value where
  bytes : List Byte
  short : bytes.length < PROP_VALUE_MAX
deriving DecidableEq

def Value.length (v : Value) : ℕ := v.bytes.length

/-- The bytes of the value and the NUL behind them. -/
def Value.char (v : Value) (i : ℕ) : Byte := v.bytes.getD i 0#8

/-- `SERIAL_VALUE_LEN`. -/
def serialValueLen (serial : Word) : ℕ := (serial >>> 24).toNat

/-- `SERIAL_DIRTY`. -/
def serialDirty (serial : Word) : Bool := serial &&& 1#32 ≠ 0#32

/-- `struct prop_info`. -/
structure PropInfo where
  name : List Byte
  serial : Word
  value : ℕ → Byte

/-- Step 1 of an update. -/
def markDirty (serial : Word) : Word := serial ||| 1#32

/-- Step 3 of an update. -/
def nextSerial (serial : Word) (len : ℕ) : Word :=
  (BitVec.ofNat 32 len <<< 24) ||| ((serial + 1#32) &&& 0xffffff#32)

/-! ### The reader and the writer -/

inductive ReadPc where
  /-- Outside the function. -/
  | idle
  /-- Before `serial = pi->serial`. -/
  | load
  /-- In `__futex_wait(&pi->serial, serial, 0)`. -/
  | wait (serial : Word)
  /-- In `memcpy(value, pi->value, len + 1)`; the bytes in `left` are still to be copied. -/
  | copy (serial : Word) (left : Finset ℕ)
  /-- Before `if (serial == pi->serial)`. -/
  | check (serial : Word)
  /-- Before `return len`. -/
  | done (len : ℕ)
deriving DecidableEq

structure Reader where
  pc : ReadPc
  /-- The buffer `value` of the caller. -/
  value : ℕ → Byte
  /-- The buffer `name` of the caller, if it has given one. -/
  name : Option (List Byte)
  /-- The values that the property has held since the call. -/
  during : List Value
  /-- The number of updates completed since the call. -/
  updates : ℕ
  /-- The number of updates completed since the last `serial = pi->serial`. -/
  since : ℕ

inductive WritePc where
  | idle
  /-- Before `pi->serial = pi->serial | 1`. -/
  | mark (v : Value)
  /-- In the `memcpy` of the value and its NUL; the bytes in `left` are still to be copied. -/
  | write (v : Value) (left : Finset ℕ)
  /-- Before the new serial is stored. -/
  | finish (v : Value)
  /-- Before the wake-up call. -/
  | wake
deriving DecidableEq

/-! ### The system -/

structure Sys (R : Type*) where
  info : PropInfo
  writer : WritePc
  /-- The value of the last completed update. -/
  held : Value
  reader : R → Reader

variable {R : Type*}

/-- The value that the property holds, if no update is going on. -/
def Sys.present (s : Sys R) : List Value := if serialDirty s.info.serial then [] else [s.held]

/-- The `pc` after `serial = pi->serial`. -/
def afterLoad (serial : Word) : ReadPc :=
  if serialDirty serial then .wait serial else .copy serial (Finset.range (serialValueLen serial + 1))

/-- `if (serial == pi->serial)`. -/
def Reader.check (rd : Reader) (info : PropInfo) (serial : Word) : Reader :=
  if serial = info.serial then
    { rd with pc := .done (serialValueLen serial), name := rd.name.map fun _ => info.name }
  else { rd with pc := .load }

/-- An update has been completed. -/
def Reader.missed (rd : Reader) (v : Value) : Reader :=
  { rd with during := v :: rd.during, updates := rd.updates + 1, since := rd.since + 1 }

/-- A step of the reader. -/
inductive ReadStep (info : PropInfo) (present : List Value) (rd : Reader) : Reader → Prop
  | call (name : Option (List Byte)) (h : rd.pc = .idle) : ReadStep info present rd
      { rd with pc := .load, name := name, during := present, updates := 0, since := 0 }
  | load (h : rd.pc = .load) : ReadStep info present rd { rd with pc := afterLoad info.serial, since := 0 }
  /-- `__futex_wait` returns: at once if the serial has changed, else when it is woken or by itself. -/
  | waited (serial : Word) (h : rd.pc = .wait serial) : ReadStep info present rd { rd with pc := .load }
  | copy (serial : Word) (left : Finset ℕ) (i : ℕ) (h : rd.pc = .copy serial left) (hi : i ∈ left) :
      ReadStep info present rd { rd with
        pc := .copy serial (left.erase i), value := Function.update rd.value i (info.value i) }
  | copied (serial : Word) (h : rd.pc = .copy serial ∅) :
      ReadStep info present rd { rd with pc := .check serial }
  | check (serial : Word) (h : rd.pc = .check serial) : ReadStep info present rd (rd.check info serial)
  | ret (len : ℕ) (h : rd.pc = .done len) : ReadStep info present rd { rd with pc := .idle }

inductive Step [DecidableEq R] (s : Sys R) : Sys R → Prop
  | read (r : R) (rd : Reader) (h : ReadStep s.info s.present (s.reader r) rd) :
      Step s { s with reader := Function.update s.reader r rd }
  | update (v : Value) (h : s.writer = .idle) : Step s { s with writer := .mark v }
  | mark (v : Value) (h : s.writer = .mark v) : Step s { s with
      info := { s.info with serial := markDirty s.info.serial },
      writer := .write v (Finset.range (v.length + 1)) }
  | write (v : Value) (left : Finset ℕ) (i : ℕ) (h : s.writer = .write v left) (hi : i ∈ left) :
      Step s { s with
        info := { s.info with value := Function.update s.info.value i (v.char i) },
        writer := .write v (left.erase i) }
  | written (v : Value) (h : s.writer = .write v ∅) : Step s { s with writer := .finish v }
  | finish (v : Value) (h : s.writer = .finish v) : Step s {
      info := { s.info with serial := nextSerial s.info.serial v.length },
      writer := .wake, held := v, reader := fun r => (s.reader r).missed v }
  | wake (h : s.writer = .wake) : Step s { s with writer := .idle }

/-- The property holds the value `v`, and no update is going on. -/
structure Holds (info : PropInfo) (v : Value) : Prop where
  clean : serialDirty info.serial = false
  len : serialValueLen info.serial = v.length
  bytes : ∀ i ≤ v.length, info.value i = v.char i

/-- A property that has been set, and that nobody reads or writes. -/
structure Start (s : Sys R) : Prop where
  holds : Holds s.info s.held
  writer : s.writer = .idle
  readers : ∀ r, (s.reader r).pc = .idle
  since : ∀ r, (s.reader r).since = 0

inductive Reach [DecidableEq R] : Sys R → Prop
  | start {s : Sys R} : Start s → Reach s
  | step {s s' : Sys R} : Reach s → Step s s' → Reach s'

/-! ### The serial as a number -/

theorem serialDirty_iff (serial : Word) : serialDirty serial = true ↔ serial.toNat % 2 = 1 := by
  have h : (serial &&& 1#32).toNat = serial.toNat / 2 ^ 0 % 2 ^ 1 * 2 ^ 0 :=
    toNat_and_mask serial 1#32 0 1 rfl
  have hz : serial &&& 1#32 = 0#32 ↔ (serial &&& 1#32).toNat = 0 := by
    rw [← BitVec.toNat_inj]
    rfl
  unfold serialDirty
  rw [decide_eq_true_iff, ne_eq, hz, h]
  omega

theorem serialDirty_eq_false_iff (serial : Word) : serialDirty serial = false ↔ serial.toNat % 2 = 0 := by
  rw [← Bool.not_eq_true, serialDirty_iff]
  omega

theorem serialValueLen_eq (serial : Word) : serialValueLen serial = serial.toNat / 2 ^ 24 := by
  rw [serialValueLen, BitVec.toNat_ushiftRight, Nat.shiftRight_eq_div_pow]

theorem toNat_markDirty {serial : Word} (h : serialDirty serial = false) :
    (markDirty serial).toNat = serial.toNat + 1 := by
  rw [serialDirty_eq_false_iff] at h
  exact toNat_or_of_lt 1 h (by decide)

theorem toNat_nextSerial (serial : Word) {len : ℕ} (h : len < 256) :
    (nextSerial serial len).toNat = len * 2 ^ 24 + (serial.toNat + 1) % 2 ^ 24 := by
  have hlow : ((serial + 1#32) &&& 0xffffff#32).toNat = (serial.toNat + 1) % 2 ^ 24 := by
    have hm := toNat_and_mask (serial + 1#32) 0xffffff#32 0 24 rfl
    rw [BitVec.toNat_add] at hm
    rw [hm]
    simp only [BitVec.toNat_ofNat]
    omega
  have hhigh : (BitVec.ofNat 32 len <<< 24).toNat = len * 2 ^ 24 := by
    rw [BitVec.toNat_shiftLeft, Nat.shiftLeft_eq, BitVec.toNat_ofNat]
    omega
  rw [nextSerial, toNat_or_of_lt 24 (by omega) (by omega), hlow, hhigh]

/-! ### The invariant -/

/-- The bytes of `v` outside `left` are written. -/
def Written (info : PropInfo) (v : Value) (left : Finset ℕ) : Prop :=
  ∀ i ≤ v.length, i ∉ left → info.value i = v.char i

/-- The property beside the place of the writer. -/
def WriterOk (info : PropInfo) (held : Value) : WritePc → Prop
  | .write v left => serialDirty info.serial = true ∧ Written info v left
  | .finish v => serialDirty info.serial = true ∧ Written info v ∅
  | _ => Holds info held

/-- `serial` was read when `since` of the updates had not been completed. -/
structure Follows (info : PropInfo) (serial : Word) (since : ℕ) : Prop where
  clean : serialDirty serial = false
  count : info.serial.toNat % 2 ^ 24 = (serial.toNat + 2 * since + info.serial.toNat % 2) % 2 ^ 24
  same : since = 0 → serialDirty info.serial = false → info.serial = serial

/-- What the reader has copied is what the property holds, unless there was an update. -/
def Copied (info : PropInfo) (rd : Reader) (serial : Word) (left : Finset ℕ) : Prop :=
  rd.since = 0 → serialDirty info.serial = false →
    ∀ i ≤ serialValueLen serial, i ∉ left → rd.value i = info.value i

/-- The length and the bytes are those of a value that the property has held. -/
def Reader.Returns (rd : Reader) (len : ℕ) : Prop :=
  ∃ v ∈ rd.during, len = v.length ∧ ∀ i ≤ len, rd.value i = v.char i

def PcOk (info : PropInfo) (rd : Reader) : ReadPc → Prop
  | .copy serial left => Follows info serial rd.since ∧ Copied info rd serial left
  | .check serial => Follows info serial rd.since ∧ Copied info rd serial ∅
  | .done len => rd.updates < 2 ^ 23 → rd.Returns len
  | _ => True

structure ReaderOk (info : PropInfo) (held : Value) (rd : Reader) : Prop where
  since_le : rd.since ≤ rd.updates
  during : rd.pc ≠ .idle → serialDirty info.serial = false → held ∈ rd.during
  pc : PcOk info rd rd.pc

structure Inv (s : Sys R) : Prop where
  writer : WriterOk s.info s.held s.writer
  readers : ∀ r, ReaderOk s.info s.held (s.reader r)

/-! ### Steps of the reader -/

section Read

variable {info : PropInfo} {held : Value} {rd rd' : Reader} {serial : Word} {left : Finset ℕ}

theorem follows_load (h : serialDirty info.serial = false) : Follows info info.serial 0 := by
  refine ⟨h, ?_, fun _ _ => rfl⟩
  rw [serialDirty_eq_false_iff] at h
  omega

/-- If the serial is the same again after fewer than 2^23 updates, there was none. -/
theorem Follows.since_eq_zero {n : ℕ} (h : Follows info info.serial n) (hn : n < 2 ^ 23) : n = 0 := by
  have hclean := (serialDirty_eq_false_iff _).1 h.clean
  have hcount := h.count
  omega

theorem returns_of_check (hw : serialDirty info.serial = false → Holds info held)
    (hr : ReaderOk info held rd) (hpc : rd.pc = .check info.serial) (hlt : rd.updates < 2 ^ 23) :
    rd.Returns (serialValueLen info.serial) := by
  have hok := hr.pc
  rw [hpc] at hok
  obtain ⟨hf, hc⟩ := hok
  have hzero := hf.since_eq_zero (Nat.lt_of_le_of_lt hr.since_le hlt)
  have holds := hw hf.clean
  refine ⟨held, hr.during (by rw [hpc]; simp) hf.clean, holds.len, fun i hi => ?_⟩
  rw [hc hzero hf.clean i hi (by simp)]
  exact holds.bytes i (by rw [← holds.len]; exact hi)

theorem ReaderOk.step {present : List Value} (hr : ReaderOk info held rd)
    (hw : serialDirty info.serial = false → Holds info held ∧ held ∈ present)
    (h : ReadStep info present rd rd') : ReaderOk info held rd' := by
  have hok := hr.pc
  cases h with
  | call name h => exact ⟨Nat.le_refl 0, fun _ hd => (hw hd).2, trivial⟩
  | load h =>
      refine ⟨Nat.zero_le _, fun _ => hr.during (by rw [h]; simp), ?_⟩
      unfold afterLoad
      split
      next => trivial
      next hd =>
        have hclean : serialDirty info.serial = false := by simpa using hd
        refine ⟨follows_load hclean, fun _ _ i hi hleft => ?_⟩
        exact absurd (Finset.mem_range.2 (Nat.lt_succ_of_le hi)) hleft
  | waited serial h => exact ⟨hr.since_le, fun _ => hr.during (by rw [h]; simp), trivial⟩
  | copy serial left i h hi =>
      rw [h] at hok
      refine ⟨hr.since_le, fun _ => hr.during (by rw [h]; simp), hok.1, fun hs hd j hj hleft => ?_⟩
      by_cases hji : j = i
      · subst hji
        exact Function.update_self _ _ _
      · have hj' : j ∉ left := fun hm => hleft (Finset.mem_erase.2 ⟨hji, hm⟩)
        show Function.update rd.value i (info.value i) j = info.value j
        rw [Function.update_of_ne hji]
        exact hok.2 hs hd j hj hj'
  | copied serial h =>
      rw [h] at hok
      exact ⟨hr.since_le, fun _ => hr.during (by rw [h]; simp), hok⟩
  | check serial h =>
      unfold Reader.check
      split
      next heq =>
        subst heq
        refine ⟨hr.since_le, fun _ => hr.during (by rw [h]; simp), fun hlt => ?_⟩
        have ret := returns_of_check (fun hd => (hw hd).1) hr h hlt
        exact ret
      next => exact ⟨hr.since_le, fun _ => hr.during (by rw [h]; simp), trivial⟩
  | ret len h => exact ⟨hr.since_le, fun hne => absurd rfl hne, trivial⟩

end Read

/-! ### Steps of the writer -/

section Write

variable {info : PropInfo} {held : Value} {rd : Reader}

theorem serialDirty_markDirty {serial : Word} (h : serialDirty serial = false) :
    serialDirty (markDirty serial) = true := by
  have hm := toNat_markDirty h
  rw [serialDirty_eq_false_iff] at h
  rw [serialDirty_iff]
  omega

/-- The clauses about a property that is not being updated do not matter during an update. -/
theorem ReaderOk.mark (hr : ReaderOk info held rd) (hd : serialDirty info.serial = false) :
    ReaderOk { info with serial := markDirty info.serial } held rd := by
  have dirty := serialDirty_markDirty hd
  have hm := toNat_markDirty hd
  have hok := hr.pc
  have follows : ∀ serial, Follows info serial rd.since →
      Follows { info with serial := markDirty info.serial } serial rd.since := by
    intro serial hf
    have hcount := hf.count
    rw [serialDirty_eq_false_iff] at hd
    refine ⟨hf.clean, ?_, fun _ hc => ?_⟩
    · show (markDirty info.serial).toNat % 2 ^ 24 = _
      rw [hm]
      omega
    · rw [dirty] at hc; contradiction
  refine ⟨hr.since_le, fun _ hc => ?_, ?_⟩
  · rw [dirty] at hc; contradiction
  · cases hp : rd.pc with
    | copy serial left =>
        rw [hp] at hok
        exact ⟨follows serial hok.1, fun _ hc => by rw [dirty] at hc; contradiction⟩
    | check serial =>
        rw [hp] at hok
        exact ⟨follows serial hok.1, fun _ hc => by rw [dirty] at hc; contradiction⟩
    | done len => rw [hp] at hok; exact hok
    | _ => trivial

theorem ReaderOk.write (hr : ReaderOk info held rd) (hd : serialDirty info.serial = true)
    (value : ℕ → Byte) : ReaderOk { info with value := value } held rd := by
  have hok := hr.pc
  refine ⟨hr.since_le, hr.during, ?_⟩
  cases hp : rd.pc with
  | copy serial left =>
      rw [hp] at hok
      refine ⟨⟨hok.1.clean, hok.1.count, hok.1.same⟩, fun _ hc => ?_⟩
      rw [hd] at hc
      contradiction
  | check serial =>
      rw [hp] at hok
      refine ⟨⟨hok.1.clean, hok.1.count, hok.1.same⟩, fun _ hc => ?_⟩
      rw [hd] at hc
      contradiction
  | done len => rw [hp] at hok; exact hok
  | _ => trivial

theorem ReaderOk.finish (hr : ReaderOk info held rd) (hd : serialDirty info.serial = true) (v : Value) :
    ReaderOk { info with serial := nextSerial info.serial v.length } v (rd.missed v) := by
  have hv : v.length < 256 := Nat.lt_trans v.short (by decide)
  have hn := toNat_nextSerial info.serial hv
  have hok := hr.pc
  have follows : ∀ serial, Follows info serial rd.since →
      Follows { info with serial := nextSerial info.serial v.length } serial (rd.since + 1) := by
    intro serial hf
    have hcount := hf.count
    rw [serialDirty_iff] at hd
    refine ⟨hf.clean, ?_, fun h0 _ => absurd h0 (Nat.succ_ne_zero _)⟩
    show (nextSerial info.serial v.length).toNat % 2 ^ 24 = _
    rw [hn]
    omega
  refine ⟨Nat.succ_le_succ hr.since_le, fun _ _ => List.mem_cons_self, ?_⟩
  show PcOk _ (rd.missed v) rd.pc
  cases hp : rd.pc with
  | copy serial left =>
      rw [hp] at hok
      exact ⟨follows serial hok.1, fun h0 => absurd h0 (Nat.succ_ne_zero _)⟩
  | check serial =>
      rw [hp] at hok
      exact ⟨follows serial hok.1, fun h0 => absurd h0 (Nat.succ_ne_zero _)⟩
  | done len =>
      rw [hp] at hok
      intro hlt
      obtain ⟨w, hw, hlen, hbytes⟩ := hok (Nat.lt_of_succ_lt hlt)
      exact ⟨w, List.mem_cons_of_mem v hw, hlen, hbytes⟩
  | _ => trivial

theorem holds_finish {v : Value} (hd : serialDirty info.serial = true) (hw : Written info v ∅) :
    Holds { info with serial := nextSerial info.serial v.length } v := by
  have hv : v.length < 256 := Nat.lt_trans v.short (by decide)
  have hn := toNat_nextSerial info.serial hv
  rw [serialDirty_iff] at hd
  refine ⟨?_, ?_, fun i hi => hw i hi (by simp)⟩
  · rw [serialDirty_eq_false_iff]
    show (nextSerial info.serial v.length).toNat % 2 = 0
    omega
  · rw [serialValueLen_eq]
    show (nextSerial info.serial v.length).toNat / 2 ^ 24 = v.length
    omega

theorem Written.write {v : Value} {left : Finset ℕ} (h : Written info v left) (i : ℕ) :
    Written { info with value := Function.update info.value i (v.char i) } v (left.erase i) := by
  intro j hj hleft
  show Function.update info.value i (v.char i) j = v.char j
  by_cases hji : j = i
  · subst hji
    exact Function.update_self _ _ _
  · rw [Function.update_of_ne hji]
    exact h j hj fun hm => hleft (Finset.mem_erase.2 ⟨hji, hm⟩)

end Write

/-! ### Runs -/

section Runs

variable [DecidableEq R] {s s' : Sys R}

omit [DecidableEq R] in
theorem Inv.holds (hi : Inv s) (hd : serialDirty s.info.serial = false) : Holds s.info s.held := by
  have hw := hi.writer
  cases hp : s.writer with
  | write v left => rw [hp] at hw; rw [hw.1] at hd; contradiction
  | finish v => rw [hp] at hw; rw [hw.1] at hd; contradiction
  | _ => rw [hp] at hw; exact hw

theorem Inv.step (hi : Inv s) (h : Step s s') : Inv s' := by
  have hw := hi.writer
  cases h with
  | read r rd h =>
      refine ⟨hw, fun u => ?_⟩
      by_cases hu : u = r
      · subst hu
        show ReaderOk s.info s.held (Function.update s.reader u rd u)
        rw [Function.update_self]
        refine (hi.readers u).step (fun hd => ⟨hi.holds hd, ?_⟩) h
        rw [Sys.present, hd]
        exact List.mem_cons_self
      · show ReaderOk s.info s.held (Function.update s.reader r rd u)
        rw [Function.update_of_ne hu]
        exact hi.readers u
  | update v h => rw [h] at hw; exact ⟨hw, hi.readers⟩
  | mark v h =>
      rw [h] at hw
      have holds : Holds s.info s.held := hw
      refine ⟨⟨serialDirty_markDirty holds.clean, fun i hi hleft => ?_⟩,
        fun r => (hi.readers r).mark holds.clean⟩
      exact absurd (Finset.mem_range.2 (Nat.lt_succ_of_le hi)) hleft
  | write v left i h hmem =>
      rw [h] at hw
      exact ⟨⟨hw.1, hw.2.write i⟩, fun r => (hi.readers r).write hw.1 _⟩
  | written v h => rw [h] at hw; exact ⟨hw, hi.readers⟩
  | finish v h =>
      rw [h] at hw
      exact ⟨holds_finish hw.1 hw.2, fun r => (hi.readers r).finish hw.1 v⟩
  | wake h => rw [h] at hw; exact ⟨hw, hi.readers⟩

theorem Inv.reach (h : Reach s) : Inv s := by
  induction h with
  | start h =>
      refine ⟨by rw [h.writer]; exact h.holds, fun r => ⟨?_, fun hne => ?_, ?_⟩⟩
      · rw [h.since r]
        exact Nat.zero_le _
      · exact absurd (h.readers r) hne
      · rw [h.readers r]
        trivial
  | step _ step ih => exact ih.step step

/-- A read that returns after fewer than 2^23 updates returns the length and the bytes of a value that the
property has held at some moment of the call. -/
theorem read_not_torn (h : Reach s) {r : R} {len : ℕ} (hpc : (s.reader r).pc = .done len)
    (hlt : (s.reader r).updates < 2 ^ 23) :
    ∃ v ∈ (s.reader r).during, len = v.length ∧ ∀ i ≤ len, (s.reader r).value i = v.char i := by
  have hok := ((Inv.reach h).readers r).pc
  rw [hpc] at hok
  exact hok hlt

/-- The value of a property changes from `a` to `bc`. -/
def one : Value := ⟨[97#8], by decide⟩
def two : Value := ⟨[98#8, 99#8], by decide⟩

/-- The property holds `one`, and there is one reader. -/
def fresh : Sys (Fin 1) where
  info := ⟨[], 0x01000000#32, one.char⟩
  writer := .idle
  held := one
  reader := fun _ => ⟨.idle, fun _ => 0#8, none, [], 0, 0⟩

/-- The reader has read the serial when the update begins, and reads it again after the update. -/
theorem read_not_torn_updated : ∃ s : Sys (Fin 1),
    (s.reader 0).pc = .done 2 ∧ (s.reader 0).updates = 1 ∧
      ∃ v ∈ (s.reader 0).during, 2 = v.length ∧ ∀ i ≤ 2, (s.reader 0).value i = v.char i := by
  have start : Start fresh := ⟨⟨by decide, by decide, fun _ _ => rfl⟩, rfl, fun _ => rfl, fun _ => rfl⟩
  have h₁ := (Reach.start start).step (.read 0 _ (.call none rfl))
  have h₂ := h₁.step (.read 0 _ (.load rfl))
  have h₃ := h₂.step (.read 0 _ (.copy _ _ 0 rfl (by decide)))
  have h₄ := (h₃.step (.update two rfl)).step (.mark two rfl)
  have h₅ := h₄.step (.write two _ 0 rfl (by decide))
  have h₆ := h₅.step (.read 0 _ (.copy _ _ 1 rfl (by decide)))
  have h₇ := (h₆.step (.write two _ 1 rfl (by decide))).step (.write two _ 2 rfl (by decide))
  have h₈ := (h₇.step (.written two (by decide))).step (.finish two rfl)
  have h₉ := (h₈.step (.read 0 _ (.copied 0x01000000#32 (by decide)))).step (.read 0 _ (.check _ rfl))
  have h₁₀ := h₉.step (.read 0 _ (.load (by decide)))
  have h₁₁ := h₁₀.step (.read 0 _ (.copy 0x02000002#32 (Finset.range 3) 0 (by decide) (by decide)))
  have h₁₂ := h₁₁.step (.read 0 _ (.copy _ _ 1 rfl (by decide)))
  have h₁₃ := h₁₂.step (.read 0 _ (.copy _ _ 2 rfl (by decide)))
  have h₁₄ := h₁₃.step (.read 0 _ (.copied 0x02000002#32 (by decide)))
  have h₁₅ := h₁₄.step (.read 0 _ (.check 0x02000002#32 rfl))
  exact ⟨_, by decide, by decide, read_not_torn h₁₅ (by decide) (by decide)⟩

end Runs

end Bionic.SystemProperties
