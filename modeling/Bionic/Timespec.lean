import Mathlib.Data.Int.ModEq

/-! # Times (`libc/bionic/pthread_internal.h`)

A time is a number of seconds and a number of nanoseconds, both of 32 bits.  The functions carry at most one second, and
compare seconds first.  `ns` is the time in nanoseconds, with which they agree on normalised times: the comparisons
exactly, the sums up to a multiple of 2^32 seconds, by which an overflow of the seconds wraps. -/

namespace Bionic.PthreadInternal

/-- `struct timespec`, where `time_t` and `long` have 32 bits. -/
structure Timespec where
  tvSec : Int32
  tvNsec : Int32
deriving DecidableEq, Repr

namespace Timespec

def timespecAdd (a b : Timespec) : Timespec :=
  let sec := a.tvSec + b.tvSec
  let nsec := a.tvNsec + b.tvNsec
  if 1000000000 ≤ nsec then ⟨sec + 1, nsec - 1000000000⟩ else ⟨sec, nsec⟩

def timespecSub (a b : Timespec) : Timespec :=
  let sec := a.tvSec - b.tvSec
  let nsec := a.tvNsec - b.tvNsec
  if nsec < 0 then ⟨sec - 1, nsec + 1000000000⟩ else ⟨sec, nsec⟩

def timespecZero : Timespec := ⟨0, 0⟩

def timespecIsZero (a : Timespec) : Bool := a.tvSec == 0 && a.tvNsec == 0

def timespecCmp (a b : Timespec) : ℤ :=
  if a.tvSec < b.tvSec then -1
  else if a.tvSec > b.tvSec then 1
  else if a.tvNsec < b.tvNsec then -1
  else if a.tvNsec > b.tvNsec then 1
  else 0

variable {a b : Timespec}

/-! ### The fields -/

theorem toInt_add_of_lt {x y : Int32} (lower : -2 ^ 31 ≤ x.toInt + y.toInt) (upper : x.toInt + y.toInt < 2 ^ 31) :
    (x + y).toInt = x.toInt + y.toInt := by
  rw [Int32.toInt_add]
  exact Int.bmod_eq_of_le (by omega) (by omega)

theorem toInt_sub_of_lt {x y : Int32} (lower : -2 ^ 31 ≤ x.toInt - y.toInt) (upper : x.toInt - y.toInt < 2 ^ 31) :
    (x - y).toInt = x.toInt - y.toInt := by
  rw [Int32.toInt_sub]
  exact Int.bmod_eq_of_le (by omega) (by omega)

theorem toInt_add_modEq (x y : Int32) : (x + y).toInt ≡ x.toInt + y.toInt [ZMOD 2 ^ 32] := by
  rw [Int32.toInt_add]
  exact Int.bmod_emod

theorem toInt_sub_modEq (x y : Int32) : (x - y).toInt ≡ x.toInt - y.toInt [ZMOD 2 ^ 32] := by
  rw [Int32.toInt_sub]
  exact Int.bmod_emod

theorem toInt_second : (1000000000 : Int32).toInt = 1000000000 := rfl

/-! ### In nanoseconds -/

/-- The time in nanoseconds. -/
def ns (a : Timespec) : ℤ := a.tvSec.toInt * 1000000000 + a.tvNsec.toInt

/-- 2^31 seconds, which is after all normalised times. -/
def room : ℤ := 2147483648000000000

/-- The nanoseconds are less than a second. -/
def Normal (a : Timespec) : Prop := 0 ≤ a.tvNsec.toInt ∧ a.tvNsec.toInt < 1000000000

instance (a : Timespec) : Decidable a.Normal := inferInstanceAs (Decidable (_ ∧ _))

theorem Normal.lt_room (ha : a.Normal) : a.ns < room := by
  have sec := a.tvSec.toInt_lt
  have nsec := ha.2
  unfold ns room
  omega

theorem Normal.neg_room_le (ha : a.Normal) : -room ≤ a.ns := by
  have sec := a.tvSec.le_toInt
  have nsec := ha.1
  unfold ns room
  omega

/-- Seconds that wrap. -/
theorem ns_modEq {sec : ℤ} (h : a.tvSec.toInt ≡ sec [ZMOD 2 ^ 32]) :
    a.ns ≡ sec * 1000000000 + a.tvNsec.toInt [ZMOD 2 * room] :=
  h.mul_right'.add_right _

theorem Normal.ns_add (ha : a.Normal) (hb : b.Normal) : (timespecAdd a b).ns ≡ a.ns + b.ns [ZMOD 2 * room] := by
  obtain ⟨ha, ha'⟩ := ha
  obtain ⟨hb, hb'⟩ := hb
  have nsec : (a.tvNsec + b.tvNsec).toInt = a.tvNsec.toInt + b.tvNsec.toInt := toInt_add_of_lt (by omega) (by omega)
  unfold timespecAdd
  dsimp only
  split
  next carry =>
    rw [Int32.le_iff_toInt_le, toInt_second, nsec] at carry
    have rest : (a.tvNsec + b.tvNsec - 1000000000).toInt = a.tvNsec.toInt + b.tvNsec.toInt - 1000000000 := by
      rw [toInt_sub_of_lt (by rw [nsec, toInt_second]; omega) (by rw [nsec, toInt_second]; omega), nsec, toInt_second]
    have total : a.ns + b.ns =
        (a.tvSec.toInt + b.tvSec.toInt + 1) * 1000000000 + (a.tvNsec + b.tvNsec - 1000000000).toInt := by
      rw [rest]
      unfold ns
      omega
    rw [total]
    exact ns_modEq ((toInt_add_modEq _ _).trans ((toInt_add_modEq _ _).add_right 1))
  next =>
    have total : a.ns + b.ns = (a.tvSec.toInt + b.tvSec.toInt) * 1000000000 + (a.tvNsec + b.tvNsec).toInt := by
      rw [nsec]
      unfold ns
      omega
    rw [total]
    exact ns_modEq (toInt_add_modEq _ _)

theorem Normal.ns_sub (ha : a.Normal) (hb : b.Normal) : (timespecSub a b).ns ≡ a.ns - b.ns [ZMOD 2 * room] := by
  obtain ⟨ha, ha'⟩ := ha
  obtain ⟨hb, hb'⟩ := hb
  have nsec : (a.tvNsec - b.tvNsec).toInt = a.tvNsec.toInt - b.tvNsec.toInt := toInt_sub_of_lt (by omega) (by omega)
  unfold timespecSub
  dsimp only
  split
  next borrow =>
    rw [Int32.lt_iff_toInt_lt, Int32.toInt_zero, nsec] at borrow
    have rest : (a.tvNsec - b.tvNsec + 1000000000).toInt = a.tvNsec.toInt - b.tvNsec.toInt + 1000000000 := by
      rw [toInt_add_of_lt (by rw [nsec, toInt_second]; omega) (by rw [nsec, toInt_second]; omega), nsec, toInt_second]
    have total : a.ns - b.ns =
        (a.tvSec.toInt - b.tvSec.toInt - 1) * 1000000000 + (a.tvNsec - b.tvNsec + 1000000000).toInt := by
      rw [rest]
      unfold ns
      omega
    rw [total]
    exact ns_modEq ((toInt_sub_modEq _ _).trans ((toInt_sub_modEq _ _).sub_right 1))
  next =>
    have total : a.ns - b.ns = (a.tvSec.toInt - b.tvSec.toInt) * 1000000000 + (a.tvNsec - b.tvNsec).toInt := by
      rw [nsec]
      unfold ns
      omega
    rw [total]
    exact ns_modEq (toInt_sub_modEq _ _)

@[simp] theorem ns_zero : timespecZero.ns = 0 := rfl

theorem Normal.add (ha : a.Normal) (hb : b.Normal) : (timespecAdd a b).Normal := by
  obtain ⟨ha, ha'⟩ := ha
  obtain ⟨hb, hb'⟩ := hb
  have nsec : (a.tvNsec + b.tvNsec).toInt = a.tvNsec.toInt + b.tvNsec.toInt := toInt_add_of_lt (by omega) (by omega)
  unfold timespecAdd Normal
  dsimp only
  split
  next carry =>
    rw [Int32.le_iff_toInt_le, toInt_second, nsec] at carry
    dsimp only
    rw [toInt_sub_of_lt (by rw [nsec, toInt_second]; omega) (by rw [nsec, toInt_second]; omega), nsec, toInt_second]
    omega
  next small =>
    rw [Int32.le_iff_toInt_le, toInt_second, nsec] at small
    dsimp only
    omega

theorem Normal.sub (ha : a.Normal) (hb : b.Normal) : (timespecSub a b).Normal := by
  obtain ⟨ha, ha'⟩ := ha
  obtain ⟨hb, hb'⟩ := hb
  have nsec : (a.tvNsec - b.tvNsec).toInt = a.tvNsec.toInt - b.tvNsec.toInt := toInt_sub_of_lt (by omega) (by omega)
  unfold timespecSub Normal
  dsimp only
  split
  next borrow =>
    rw [Int32.lt_iff_toInt_lt, Int32.toInt_zero, nsec] at borrow
    dsimp only
    rw [toInt_add_of_lt (by rw [nsec, toInt_second]; omega) (by rw [nsec, toInt_second]; omega), nsec, toInt_second]
    omega
  next enough =>
    rw [Int32.lt_iff_toInt_lt, Int32.toInt_zero, nsec] at enough
    dsimp only
    omega

/-- Two times in the range of normalised times that differ by a multiple of 2^32 seconds. -/
theorem eq_of_modEq {x y : ℤ} (h : x ≡ y [ZMOD 2 * room]) (hx : -room ≤ x) (hx' : x < room) (hy : -room ≤ y)
    (hy' : y < room) : x = y := by
  obtain ⟨c, hc⟩ := h.dvd
  unfold room at hc hx hx' hy hy'
  omega

/-- A normalised time is determined by its nanoseconds. -/
theorem Normal.eq_of_ns (ha : a.Normal) (hb : b.Normal) (h : a.ns ≡ b.ns [ZMOD 2 * room]) : a = b := by
  have same := eq_of_modEq h ha.neg_room_le ha.lt_room hb.neg_room_le hb.lt_room
  obtain ⟨ha, ha'⟩ := ha
  obtain ⟨hb, hb'⟩ := hb
  cases a with
  | mk sec nsec =>
      cases b with
      | mk sec' nsec' =>
          unfold ns at same
          dsimp only at ha ha' hb hb' same
          rw [Timespec.mk.injEq, ← Int32.toInt_inj, ← Int32.toInt_inj]
          exact ⟨by omega, by omega⟩

theorem isZero_iff (a : Timespec) : timespecIsZero a = true ↔ a = timespecZero := by
  cases a with
  | mk sec nsec => simp [timespecIsZero, timespecZero]

theorem cmp_neg_iff (a b : Timespec) : timespecCmp a b < 0 ↔
    a.tvSec.toInt < b.tvSec.toInt ∨ a.tvSec.toInt = b.tvSec.toInt ∧ a.tvNsec.toInt < b.tvNsec.toInt := by
  unfold timespecCmp
  simp only [gt_iff_lt, Int32.lt_iff_toInt_lt]
  split
  next sec => exact iff_of_true (by decide) (.inl sec)
  next =>
    split
    next sec => exact iff_of_false (by decide) (by omega)
    next =>
      split
      next nsec => exact iff_of_true (by decide) (.inr ⟨by omega, nsec⟩)
      next =>
        split
        · exact iff_of_false (by decide) (by omega)
        · exact iff_of_false (by decide) (by omega)

theorem cmp_pos_iff (a b : Timespec) : 0 < timespecCmp a b ↔ timespecCmp b a < 0 := by
  rw [cmp_neg_iff]
  unfold timespecCmp
  simp only [gt_iff_lt, Int32.lt_iff_toInt_lt]
  split
  next sec => exact iff_of_false (by decide) (by omega)
  next =>
    split
    next sec => exact iff_of_true (by decide) (.inl sec)
    next =>
      split
      next nsec => exact iff_of_false (by decide) (by omega)
      next =>
        split
        next nsec => exact iff_of_true (by decide) (.inr ⟨by omega, nsec⟩)
        next => exact iff_of_false (by decide) (by omega)

/-- On normalised times the functions compare the nanoseconds. -/
theorem Normal.cmp_neg_iff (ha : a.Normal) (hb : b.Normal) : timespecCmp a b < 0 ↔ a.ns < b.ns := by
  obtain ⟨ha, ha'⟩ := ha
  obtain ⟨hb, hb'⟩ := hb
  rw [Timespec.cmp_neg_iff]
  unfold ns
  omega

theorem Normal.cmp_pos_iff (ha : a.Normal) (hb : b.Normal) : 0 < timespecCmp a b ↔ b.ns < a.ns := by
  rw [Timespec.cmp_pos_iff, hb.cmp_neg_iff ha]

end Timespec

end Bionic.PthreadInternal
