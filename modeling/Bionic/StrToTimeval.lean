import Mathlib
import Bionic.UserNames

/-! # Reading a time (`libc/string/strtotimeval.c`)

`strtotimeval` should read a number with a fraction into seconds and microseconds.  It reads the seconds with `strtoumax`
and stops at the point: the loop over the digits of the fraction starts at the point itself, which is no digit, where
`s0`, the place behind the point, is computed and not used.  So the fraction is never read (`not_readsTime`). -/

namespace Bionic.StrToTimeval

open UserNames (CStr isspace digitValue Any isDigit_iff digitValue_of_isDigit le_ofDigitChars not_isspace not_sign)

/-! ### `strtoumax` (`libc/stdlib/strtoumax.c`) -/

def UINTMAX_MAX : ℕ := 2 ^ 64 - 1

/-- The loop of `strtoumax`: the values of `acc` and `any` behind it, and where it stops. -/
def accumulate (base : ℕ) : CStr → ℕ → Any → ℕ × Any × CStr
  | [], acc, any => (acc, any, [])
  | c :: s, acc, any =>
    match digitValue c with
    | none => (acc, any, c :: s)
    | some d =>
      if base ≤ d then (acc, any, c :: s)
      else if any = .overflow then accumulate base s acc any
      else if acc > UINTMAX_MAX / base ∨ acc = UINTMAX_MAX / base ∧ d > UINTMAX_MAX % base then
        accumulate base s UINTMAX_MAX .overflow
      else accumulate base s (acc * base + d) .digits

/-- `strtoumax`: its value, and what it stores in `*endptr`. -/
def strtoumax (nptr : CStr) (base : ℕ) : BitVec 64 × CStr :=
  let s := nptr.dropWhile isspace
  let neg := s.head? = some '-'
  let s := if s.head? = some '-' ∨ s.head? = some '+' then s.tail else s
  let hex := (base = 0 ∨ base = 16) ∧ s.head? = some '0' ∧ (s[1]? = some 'x' ∨ s[1]? = some 'X')
  let base := if hex then 16 else if base = 0 then if s.head? = some '0' then 8 else 10 else base
  let s := if hex then s.drop 2 else s
  match accumulate base s 0 .none with
  | (acc, any, rest) =>
    (if neg ∧ any = .digits then -BitVec.ofNat 64 acc else BitVec.ofNat 64 acc, if any = .none then nptr else rest)

/-! ### `strtotimeval` -/

structure Timeval where
  tvSec : BitVec 32
  tvUsec : ℤ
deriving DecidableEq, Repr

/-- `while ( *s && isdigit(*s) )`: the values of `count` and `fs` behind the loop, and of `s`. -/
def digitLoop : CStr → ℕ → ℤ → ℕ × ℤ × CStr
  | [], count, fs => (count, fs, [])
  | c :: s, count, fs =>
    if c.isDigit then digitLoop s (count + 1) (if count + 1 < 7 then fs * 10 + (c.toNat - '0'.toNat) else fs)
    else (count, fs, c :: s)

/-- `fs *= 10`, in the given number of passes. -/
def scale : ℕ → ℤ → ℤ
  | 0, fs => fs
  | n + 1, fs => scale n (fs * 10)

/-- `strtotimeval`: what it stores in `*ts`, and the pointer it returns. -/
def strtotimeval (str : CStr) : Timeval × CStr :=
  match strtoumax str 10 with
  | (sec, s) =>
    if s.head? = some '.' then
      match digitLoop s 0 0 with
      | (count, fs, s) => (⟨sec.setWidth 32, scale (6 - count) fs⟩, s)
    else (⟨sec.setWidth 32, 0⟩, s)

/-! ### What it should do -/

/-- A string of decimal digits, which may be empty. -/
structure Digits where
  chars : CStr
  digits : ∀ c ∈ chars, c.isDigit = true

def Digits.value (D : Digits) : ℕ := Nat.ofDigitChars 10 D.chars 0

/-- The first six digits of a fraction as microseconds; missing ones count as zero. -/
def Digits.micros (F : Digits) : ℕ := Nat.ofDigitChars 10 ((F.chars ++ List.replicate 6 '0').take 6) 0

/-- The digits `D`, a point, the digits `F` and the text `r`, which does not begin with a digit. -/
def timeText (D F : Digits) (r : CStr) : CStr := D.chars ++ '.' :: (F.chars ++ r)

/-- The seconds and microseconds are read, up to the text behind them. -/
def ReadsTime (D F : Digits) (r : CStr) : Prop :=
  (strtotimeval (timeText D F r)).1.tvSec.toNat = D.value ∧
  (strtotimeval (timeText D F r)).1.tvUsec = F.micros ∧
  (strtotimeval (timeText D F r)).2 = r

section Reading

variable {s : CStr}

/-- The loop of `strtoumax` takes all digits, and adds them up while the number fits. -/
theorem accumulate_append (hs : ∀ c ∈ s, c.isDigit = true) (t : CStr) (acc : ℕ) (any : Any) :
    ∃ acc' any', accumulate 10 (s ++ t) acc any = accumulate 10 t acc' any' ∧ (any' = .none ↔ s = [] ∧ any = .none) ∧
      (any ≠ .overflow → Nat.ofDigitChars 10 s acc ≤ UINTMAX_MAX → acc' = Nat.ofDigitChars 10 s acc) := by
  induction s generalizing acc any with
  | nil => exact ⟨acc, any, rfl, by simp, fun _ _ => by simp⟩
  | cons c s ih =>
    obtain ⟨hv, hlt⟩ := digitValue_of_isDigit (hs c List.mem_cons_self)
    have hs' : ∀ c ∈ s, c.isDigit = true := fun x hx => hs x (List.mem_cons_of_mem _ hx)
    have hstep : 10 * acc + (c.toNat - '0'.toNat) = acc * 10 + (c.toNat - 48) := by
      have h0 : '0'.toNat = 48 := rfl
      omega
    rw [List.cons_append, accumulate, hv, Nat.ofDigitChars_cons, hstep]
    dsimp only
    rw [if_neg (Nat.not_le.mpr hlt)]
    split
    · next h =>
      subst h
      obtain ⟨acc', any', hrun, hany, -⟩ := ih hs' acc .overflow
      exact ⟨acc', any', hrun, by simp [hany], fun h => absurd rfl h⟩
    · split
      · next hover =>
        obtain ⟨acc', any', hrun, hany, -⟩ := ih hs' UINTMAX_MAX .overflow
        refine ⟨acc', any', hrun, by simp [hany], fun _ hfit => ?_⟩
        have hle := le_ofDigitChars s (acc * 10 + (c.toNat - 48))
        unfold UINTMAX_MAX at *
        omega
      · obtain ⟨acc', any', hrun, hany, hval⟩ := ih hs' (acc * 10 + (c.toNat - 48)) .digits
        exact ⟨acc', any', hrun, by simp [hany], fun _ => hval (by decide)⟩

/-- `strtoumax` stops at the point. -/
theorem strtoumax_point (D : Digits) (t : CStr) : (strtoumax (D.chars ++ '.' :: t) 10).2 = '.' :: t ∧
    (D.value ≤ UINTMAX_MAX → (strtoumax (D.chars ++ '.' :: t) 10).1 = BitVec.ofNat 64 D.value) := by
  obtain ⟨acc, any, hrun, hany, hval⟩ := accumulate_append D.digits ('.' :: t) 0 .none
  have hpoint : accumulate 10 ('.' :: t) acc any = (acc, any, '.' :: t) := by
    have hv : digitValue '.' = none := by decide
    simp [accumulate, hv]
  rw [hpoint] at hrun
  have hhead : ∃ c s, D.chars ++ '.' :: t = c :: s ∧ isspace c = false ∧ c ≠ '-' ∧ c ≠ '+' := by
    cases h : D.chars with
    | nil => exact ⟨'.', t, rfl, by decide, by decide, by decide⟩
    | cons c s =>
      have hc : c.isDigit = true := D.digits c (by simp [h])
      exact ⟨c, s ++ '.' :: t, rfl, not_isspace hc, not_sign hc⟩
  obtain ⟨c, s, hcs, hspace, hminus, hplus⟩ := hhead
  have hcall : strtoumax (D.chars ++ '.' :: t) 10 =
      (BitVec.ofNat 64 acc, if any = .none then D.chars ++ '.' :: t else '.' :: t) := by
    rw [hcs] at hrun ⊢
    simp [strtoumax, hspace, hminus, hplus, hrun]
  rw [hcall]
  refine ⟨?_, fun hfit => congrArg (BitVec.ofNat 64) (hval (by decide) hfit)⟩
  dsimp only
  split
  · next h =>
    rw [(hany.mp h).1]
    rfl
  · rfl

/-- The call stops at the point, with no microseconds. -/
theorem strtotimeval_timeText (D F : Digits) (r : CStr) : strtotimeval (timeText D F r) =
    (⟨(strtoumax (timeText D F r) 10).1.setWidth 32, 0⟩, '.' :: (F.chars ++ r)) := by
  have hstop := (strtoumax_point D (F.chars ++ r)).1
  have hdot : '.'.isDigit = false := by decide
  unfold strtotimeval timeText
  rcases hcall : strtoumax (D.chars ++ '.' :: (F.chars ++ r)) 10 with ⟨sec, s⟩
  rw [hcall] at hstop
  dsimp only at hstop ⊢
  rw [hstop]
  simp [digitLoop, hdot, scale]

/-- The seconds are right if they fit. -/
theorem tvSec_eq (D F : Digits) (r : CStr) (hfit : D.value < 2 ^ 32) :
    (strtotimeval (timeText D F r)).1.tvSec.toNat = D.value := by
  have hval := (strtoumax_point D (F.chars ++ r)).2 (by unfold UINTMAX_MAX; omega)
  rw [strtotimeval_timeText, timeText, hval, BitVec.toNat_setWidth, BitVec.toNat_ofNat]
  omega

end Reading

/-- Whatever the digits and the text behind them are, the call does not read them: it does not even come to the
fraction. -/
theorem not_readsTime (D F : Digits) (r : CStr) : ¬ ReadsTime D F r := by
  rintro ⟨-, -, hend⟩
  rw [strtotimeval_timeText] at hend
  have hlen := congrArg List.length hend
  rw [List.length_cons, List.length_append] at hlen
  omega

/-- `1.5` is read as one second, up to the point. -/
theorem not_readsTime_1_5 :
    strtotimeval "1.5".toList = (⟨1, 0⟩, ".5".toList) ∧ ¬ ReadsTime ⟨['1'], by simp⟩ ⟨['5'], by simp⟩ [] := by
  have hcall : strtotimeval "1.5".toList = (⟨1, 0⟩, ".5".toList) := by decide
  refine ⟨hcall, ?_⟩
  rintro ⟨-, -, hend⟩
  exact absurd ((congrArg Prod.snd hcall).symm.trans hend) (by decide)

end Bionic.StrToTimeval
