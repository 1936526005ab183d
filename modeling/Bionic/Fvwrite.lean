import Mathlib
import Bionic.Iterate
import Bionic.StateExcept

/-! # Buffered output (`libc/stdio/fvwrite.c`, `fflush.c`, `wbuf.c`)

What is written to a stream is collected in its buffer and given to the file descriptor at times that depend on the kind of
buffering.  The descriptor may take a part of what it is given, and it may fail.

* **The stream.** `buf` stands from `_bf._base` to `_p`.  It is open for writing and its buffer has been made, as
  `__swsetup` leaves it; reading from it and seeking are not considered here.
* **The descriptor.** `accept k n` is what its `k`-th call of `write` returns when it is given `n` bytes; `out` is what it has
  taken.
* **Faults.** `memcpy` behind the end of the buffer, or of more bytes than there are, is a fault. -/

namespace Bionic.Fvwrite

open Iterate StateExcept

abbrev Byte := BitVec 8

def newline : Byte := 10

/-- The fields of `FILE` for output, and what the descriptor has taken. -/
structure File where
  buf : List Byte
  w : ℤ
  lbfsize : ℤ
  size : ℕ
  lbf : Bool
  nbf : Bool
  str : Bool
  alc : Bool
  err : Bool
  calls : ℕ
  out : List Byte
deriving DecidableEq, Repr

/-- What the calls of the descriptor return, and whether `realloc` has so many bytes. -/
structure Env where
  accept : ℕ → ℕ → ℤ
  realloc : ℕ → Bool

/-- A store or a load outside of an object. -/
inductive Fault where
  | outside
deriving DecidableEq, Repr

/-! ### The source -/

/-- `(int)` -/
def int (n : ℕ) : ℤ := (BitVec.ofNat 32 n).toInt

/-- The stream that `__swsetup` leaves. -/
def swsetup (lbf nbf : Bool) (size : ℕ) : File :=
  { buf := []
    w := if lbf then 0 else if nbf then 0 else size
    lbfsize := if lbf then -size else 0
    size := size
    lbf := lbf
    nbf := nbf
    str := false
    alc := false
    err := false
    calls := 0
    out := [] }

section Code

variable (env : Env)

/-- `(*fp->_write)(fp->_cookie, p, n)` -/
def File.write (s : File) (p : List Byte) : ℤ × File :=
  let t := env.accept s.calls p.length
  (t, { s with calls := s.calls + 1, out := s.out ++ p.take t.toNat })

/-- `COPY(n)` -/
def File.copy (s : File) (p : List Byte) (n : ℤ) : Except Fault File :=
  if 0 ≤ n ∧ n ≤ p.length ∧ s.buf.length + n ≤ s.size then .ok { s with buf := s.buf ++ p.take n.toNat }
  else .error .outside

def File.fail (s : File) : Bool × File := (true, { s with err := true })

/-- The loop of `__sflush`.  Every pass takes a byte at least. -/
def flushLoop : ℕ → List Byte → File → Bool × File
  | 0, _, s => (false, s)
  | _ + 1, [], s => (false, s)
  | fuel + 1, b :: p, s =>
    let (t, s) := s.write env (b :: p)
    if t ≤ 0 then s.fail else flushLoop fuel ((b :: p).drop t.toNat) s

/-- `__sflush` -/
def sflush (s : File) : Bool × File :=
  flushLoop env s.buf.length s.buf { s with buf := [], w := if s.lbf || s.nbf then 0 else s.size }

/-- `__swbuf`: whether it returns `EOF`. -/
def swbuf (c : Byte) (s : File) : Except Fault (Bool × File) := do
  let s := { s with w := s.lbfsize }
  let (eof, s) := if s.size ≤ s.buf.length then sflush env s else (false, s)
  if eof then return (true, s)
  let s ← { s with w := s.w - 1 }.copy [c] 1
  if s.buf.length = s.size ∨ s.lbf ∧ c = newline then return sflush env s
  else return (false, s)

/-- `__sputc` -/
def sputc (c : Byte) (s : File) : Except Fault (Bool × File) := do
  let s := { s with w := s.w - 1 }
  if 0 ≤ s.w ∨ s.lbfsize ≤ s.w ∧ c ≠ newline then
    let s ← s.copy [c] 1
    return (false, s)
  else swbuf env c s

/-- The variables of `__sfvwrite`. -/
structure Uio where
  p : List Byte
  iov : List (List Byte)
  resid : ℤ
  nlknown : Bool
  nldist : ℤ
deriving DecidableEq, Repr

/-- `GETIOV`, and whether it has moved on. -/
def getIov : List Byte → List (List Byte) → Except Fault (List Byte × List (List Byte) × Bool)
  | [], [] => .error .outside
  | [], q :: iov => do
    let (p, iov, _) ← getIov q iov
    return (p, iov, true)
  | b :: p, iov => .ok (b :: p, iov, false)

/-- The end of a pass: `w` bytes have been dealt with. -/
def advance (s : File) (u : Uio) (w : ℤ) : Except Fault ((File × Uio) ⊕ (Bool × File)) :=
  if 0 ≤ w ∧ w ≤ u.p.length then
    let u := { u with p := u.p.drop w.toNat, resid := u.resid - w }
    .ok (if u.resid ≠ 0 then .inl (s, u) else .inr (false, s))
  else .error .outside

def unbufferedPass (s : File) (u : Uio) : Except Fault ((File × Uio) ⊕ (Bool × File)) := do
  let (p, iov, _) ← getIov u.p u.iov
  let (w, s) := s.write env p
  if w ≤ 0 then return .inr s.fail
  else advance s { u with p := p, iov := iov } w

/-- Allocate space exponentially. -/
def growSize (need : ℤ) : ℕ → ℕ → ℕ
  | 0, size => size
  | fuel + 1, size =>
    let size := size <<< 1 + 1
    if size < need then growSize need fuel size else size

/-- A string stream that is allocated makes room; `none` where there is no memory. -/
def grow (s : File) (len : ℕ) : Option File :=
  if s.str ∧ s.alc ∧ s.w < int len then
    let size := growSize (int (s.buf.length + len)) (s.buf.length + len) s.size
    if env.realloc (size + 1) then some { s with w := s.w + (size - s.size), size := size } else none
  else some s

def fullPass (s : File) (u : Uio) : Except Fault ((File × Uio) ⊕ (Bool × File)) := do
  let (p, iov, _) ← getIov u.p u.iov
  let u := { u with p := p, iov := iov }
  match grow env s p.length with
  | none => return .inr s.fail
  | some s =>
    let w := s.w
    if s.str then
      let w := if int p.length < w then int p.length else w
      let s ← s.copy p w
      advance { s with w := s.w - w } u (int p.length)
    else if s.buf ≠ [] ∧ w < int p.length then
      let s ← s.copy p w
      let (eof, s) := sflush env s
      if eof then return .inr s.fail else advance s u w
    else if s.size ≤ int p.length then
      let (w, s) := s.write env (p.take s.size)
      if w ≤ 0 then return .inr s.fail else advance s u w
    else
      let w := int p.length
      let s ← s.copy p w
      advance { s with w := s.w - w } u w

/-- The distance to the first newline. -/
def newlineDistance (p : List Byte) : ℤ := if newline ∈ p then p.idxOf newline + 1 else int p.length + 1

/-- The end of a pass for a stream that is line buffered. -/
def lineEnd (s : File) (u : Uio) (w : ℤ) : Except Fault ((File × Uio) ⊕ (Bool × File)) :=
  let u : Uio := { u with nldist := u.nldist - w }
  if u.nldist = 0 then
    let (eof, s) := sflush env s
    if eof then .ok (.inr s.fail) else advance s { u with nlknown := false } w
  else advance s u w

def linePass (s : File) (u : Uio) : Except Fault ((File × Uio) ⊕ (Bool × File)) := do
  let (p, iov, moved) ← getIov u.p u.iov
  let known := u.nlknown && !moved
  let u : Uio := ⟨p, iov, u.resid, true, if known then u.nldist else newlineDistance p⟩
  let n := min (int p.length) u.nldist
  let w := s.w + s.size
  if s.buf ≠ [] ∧ w < n then
    let s ← s.copy p w
    let (eof, s) := sflush env s
    if eof then return .inr s.fail else lineEnd env s u w
  else if s.size ≤ n then
    let (w, s) := s.write env (p.take s.size)
    if w ≤ 0 then return .inr s.fail else lineEnd env s u w
  else
    let w := n
    let s ← s.copy p w
    lineEnd env { s with w := s.w - w } u w

/-- One pass of the loop of `__sfvwrite` that its kind of buffering has. -/
def pass (s : File) (u : Uio) : Except Fault ((File × Uio) ⊕ (Bool × File)) :=
  if s.nbf then unbufferedPass env s u
  else if ¬ s.lbf then fullPass env s u
  else linePass env s u

def step (t : File × Uio) : (File × Uio) ⊕ Except Fault (Bool × File) :=
  match pass env t.1 t.2 with
  | .error e => .inr (.error e)
  | .ok (.inl t) => .inl t
  | .ok (.inr r) => .inr (.ok r)

/-- `__sfvwrite` returns with this result for these regions: whether `EOF`, and the stream. -/
def SfvWrite (s : File) : List (List Byte) → Except Fault (Bool × File) → Prop
  | [], r => r = .ok (false, s)
  | p :: iov, r =>
    if (p ++ iov.flatten).length = 0 then r = .ok (false, s)
    else Returns (step env) (s, ⟨p, iov, (p ++ iov.flatten).length, false, 0⟩) r

end Code

/-! ### What holds of a stream -/

/-- A kind of buffering, with the size of the buffer. -/
structure Kind where
  lbf : Bool
  nbf : Bool
  size : ℕ
  pos : 1 ≤ size
  unbuffered : nbf = true → lbf = false ∧ size = 1

/-- The kind of the stream, and where the bytes are that have been given to it: all of them are on their way as long as there
has been no error, and none is there twice. -/
structure Held (k : Kind) (given : List Byte) (s : File) : Prop where
  lbf : s.lbf = k.lbf
  nbf : s.nbf = k.nbf
  size : s.size = k.size
  lbfsize : s.lbfsize = if k.lbf then -(k.size : ℤ) else 0
  str : s.str = false
  content : (s.out ++ s.buf).Sublist given
  complete : s.err = false → s.out ++ s.buf = given

structure FileInv (k : Kind) (given : List Byte) (s : File) : Prop extends Held k given s where
  room : s.buf.length ≤ k.size
  w : s.w = if k.nbf then 0 else if k.lbf then -(s.buf.length : ℤ) else k.size - s.buf.length
  unbuffered : k.nbf = true → s.buf = []
  line : k.lbf = true → newline ∉ s.buf

/-- The descriptor takes no more than it is given. -/
def Env.Takes (env : Env) : Prop := ∀ k n : ℕ, env.accept k n ≤ n

section Flush

variable {env : Env} {k : Kind} {given l p : List Byte} {s s' : File} {n : ℕ}

theorem int_eq (h : n < 2 ^ 31) : int n = n := by
  rw [int, BitVec.toInt_eq_toNat_cond, BitVec.toNat_ofNat]
  split_ifs
  · omega
  · omega

theorem Held.mono (h : Held k given s) (hl : given.Sublist l) (hs : s.err = true) : Held k l s :=
  { h with
    content := h.content.trans hl
    complete := fun he => absurd (hs.symm.trans he) (by decide) }

theorem FileInv.fail (h : FileInv k given s) (hl : given.Sublist l) : FileInv k l s.fail.2 :=
  { lbf := h.lbf, nbf := h.nbf, size := h.size, lbfsize := h.lbfsize, str := h.str
    content := h.content.trans hl
    complete := by rintro ⟨⟩
    room := h.room, w := h.w, unbuffered := h.unbuffered, line := h.line }

theorem swsetup_inv (k : Kind) : FileInv k [] (swsetup k.lbf k.nbf k.size) := by
  refine ⟨⟨rfl, rfl, rfl, rfl, rfl, List.Sublist.refl _, fun _ => rfl⟩, Nat.zero_le _, ?_, fun _ => rfl, fun _ => ?_⟩
  · cases hl : k.lbf <;> cases hn : k.nbf
    · simp [swsetup]
    · simp [swsetup]
    · simp [swsetup]
    · exact absurd (k.unbuffered hn).1 (by rw [hl]; decide)
  · exact List.not_mem_nil

/-- The bytes that the descriptor has taken. -/
theorem write_taken (henv : env.Takes) (s : File) (p : List Byte) :
    (s.write env p).1 ≤ p.length ∧ (s.write env p).2 =
      { s with calls := s.calls + 1, out := s.out ++ p.take (s.write env p).1.toNat } :=
  ⟨henv _ _, rfl⟩

/-- An empty buffer with the right `_w`. -/
theorem Held.empty (h : Held k given s) (hbuf : s.buf = []) (hw : s.w = if k.nbf then 0 else if k.lbf then 0 else (k.size : ℤ)) :
    FileInv k given s := by
  refine { h with room := ?_, w := ?_, unbuffered := fun _ => hbuf, line := fun _ => ?_ }
  · rw [hbuf]
    exact Nat.zero_le _
  · rw [hw, hbuf]
    simp
  · rw [hbuf]
    exact List.not_mem_nil

theorem Held.flushed (h : Held k given { s with buf := [] }) (hbuf : s.buf = [])
    (hw : s.w = if k.nbf then 0 else if k.lbf then 0 else (k.size : ℤ)) : FileInv k given s :=
  Held.empty ⟨h.lbf, h.nbf, h.size, h.lbfsize, h.str, hbuf ▸ h.content, hbuf ▸ h.complete⟩ hbuf hw

theorem flushLoop_spec (henv : env.Takes) (hn : p.length ≤ n) (hbuf : s.buf = [])
    (hw : s.w = if k.nbf then 0 else if k.lbf then 0 else (k.size : ℤ)) (h : Held k given { s with buf := p }) :
    FileInv k given (flushLoop env n p s).2 ∧ (flushLoop env n p s).2.buf = [] ∧
      (flushLoop env n p s).2.err = ((flushLoop env n p s).1 || s.err) := by
  induction n generalizing p s with
  | zero =>
    obtain rfl := List.length_eq_zero_iff.mp (Nat.le_zero.mp hn)
    exact ⟨h.flushed hbuf hw, hbuf, (Bool.false_or _).symm⟩
  | succ n ih =>
    cases p with
    | nil => exact ⟨h.flushed hbuf hw, hbuf, (Bool.false_or _).symm⟩
    | cons b p =>
      obtain ⟨htake, hstate⟩ := write_taken henv s (b :: p)
      rw [flushLoop]
      generalize s.write env (b :: p) = r at *
      obtain ⟨t, s'⟩ := r
      dsimp only at htake hstate ⊢
      subst hstate
      split_ifs with hfail
      · have htake0 : (b :: p).take t.toNat = [] := by
          rw [Int.toNat_of_nonpos hfail, List.take_zero]
        refine ⟨Held.empty ⟨h.lbf, h.nbf, h.size, h.lbfsize, h.str, ?_, by rintro ⟨⟩⟩ hbuf hw, hbuf, rfl⟩
        refine List.Sublist.trans ?_ h.content
        simp only [File.fail]
        rw [htake0, hbuf, List.append_nil, List.append_nil]
        exact List.sublist_append_left _ _
      · have hsplit : s.out ++ (b :: p).take t.toNat ++ (b :: p).drop t.toNat = s.out ++ (b :: p) := by
          rw [List.append_assoc, List.take_append_drop]
        refine ih ?_ hbuf hw ⟨h.lbf, h.nbf, h.size, h.lbfsize, h.str, ?_, fun he => ?_⟩
        · rw [List.length_drop]
          rw [List.length_cons] at hn ⊢
          omega
        · exact (congrArg (List.Sublist · given) hsplit).mpr h.content
        · exact hsplit.trans (h.complete he)

theorem sflush_spec (henv : env.Takes) (h : Held k given s) :
    FileInv k given (sflush env s).2 ∧ (sflush env s).2.buf = [] ∧
      (sflush env s).2.err = ((sflush env s).1 || s.err) := by
  refine flushLoop_spec henv le_rfl rfl ?_ ⟨h.lbf, h.nbf, h.size, h.lbfsize, h.str, h.content, h.complete⟩
  simp only [h.lbf, h.nbf, h.size]
  cases k.lbf <;> cases k.nbf <;> rfl

theorem copy_eq {n : ℕ} (hp : n ≤ p.length) (hroom : s.buf.length + n ≤ s.size) :
    s.copy p n = .ok { s with buf := s.buf ++ p.take n } := by
  rw [File.copy, if_pos ⟨Int.natCast_nonneg n, by omega, by omega⟩, Int.toNat_natCast]

/-- More bytes in the buffer. -/
theorem Held.append (h : Held k given s) (w : ℤ) (l : List Byte) :
    Held k (given ++ l) { s with w := w, buf := s.buf ++ l } := by
  refine ⟨h.lbf, h.nbf, h.size, h.lbfsize, h.str, ?_, fun he => ?_⟩
  · rw [← List.append_assoc]
    exact h.content.append (List.Sublist.refl l)
  · rw [← List.append_assoc]
    exact congrArg (· ++ l) (h.complete he)

/-- A result of a call: there is a stream that is in order, and an error is flagged. -/
structure Ends (k : Kind) (given : List Byte) (err : Bool) (r : Bool × File) : Prop where
  inv : FileInv k given r.2
  err : r.2.err = (r.1 || err)

theorem sflush_ends (henv : env.Takes) (h : Held k given s) : Ends k given s.err (sflush env s) :=
  ⟨(sflush_spec henv h).1, (sflush_spec henv h).2.2⟩

/-- The buffer has room for one byte, which it gets. -/
theorem FileInv.put (h : FileInv k given s) (c : Byte) (hroom : s.buf.length < k.size) (hn : k.nbf = false)
    (hc : k.lbf = true → c ≠ newline) :
    FileInv k (given ++ [c]) { s with w := s.w - 1, buf := s.buf ++ [c] } := by
  refine { h.toHeld.append (s.w - 1) [c] with room := ?_, w := ?_, unbuffered := ?_, line := fun hl => ?_ }
  · rw [List.length_append, List.length_singleton]
    exact hroom
  · rw [h.w, hn, List.length_append, List.length_singleton]
    cases k.lbf
    · simp
      omega
    · simp
      omega
  · rw [hn]
    rintro ⟨⟩
  · rw [List.mem_append, List.mem_singleton]
    rintro (hmem | rfl)
    · exact h.line hl hmem
    · exact hc hl rfl

theorem FileInv.extend (h : FileInv k given s) (herr : s.err = true) (hl : given.Sublist l) : FileInv k l s :=
  { h.toHeld.mono hl herr with room := h.room, w := h.w, unbuffered := h.unbuffered, line := h.line }

/-- The second half of `__swbuf`, with room for a byte. -/
theorem store_spec (henv : env.Takes) (h : Held k given s) (c : Byte) (hroom : s.buf.length < k.size)
    (hkept : ¬ (s.buf.length + 1 = s.size ∨ s.lbf = true ∧ c = newline) → FileInv k given s) :
    ∃ r, (do
      let s ← { s with w := s.w - 1 }.copy [c] 1
      if s.buf.length = s.size ∨ s.lbf ∧ c = newline then return sflush env s
      else return (false, s)) = Except.ok r ∧ Ends k (given ++ [c]) s.err r := by
  have hcopy : { s with w := s.w - 1 }.copy [c] 1 = .ok { s with w := s.w - 1, buf := s.buf ++ [c] } := by
    refine copy_eq (n := 1) (by simp) ?_
    rw [h.size]
    exact hroom
  rw [hcopy, ok_bind]
  dsimp only
  rw [List.length_append, List.length_singleton]
  by_cases hflush : s.buf.length + 1 = s.size ∨ s.lbf = true ∧ c = newline
  · rw [if_pos hflush]
    exact ⟨_, rfl, sflush_ends henv (h.append (s.w - 1) [c])⟩
  · rw [if_neg hflush]
    obtain ⟨hroom', hnewline⟩ := not_or.mp hflush
    have hn : k.nbf = false := by
      by_contra hn
      have hsize := (k.unbuffered (by simpa using hn)).2
      rw [h.size] at hroom'
      omega
    refine ⟨_, rfl, (hkept hflush).put c hroom hn fun hl hc => hnewline ⟨h.lbf.trans hl, hc⟩, rfl⟩

/-- `__swbuf` is called when the buffer is full, when there is none, or for a newline. -/
theorem swbuf_spec (henv : env.Takes) (h : FileInv k given s) (c : Byte) (w : ℤ)
    (hcall : k.nbf = true ∨ s.buf.length = k.size ∨ k.lbf = true ∧ c = newline) :
    ∃ r, swbuf env c { s with w := w } = .ok r ∧ Ends k (given ++ [c]) s.err r := by
  have hheld : Held k given { s with w := s.lbfsize } := ⟨h.lbf, h.nbf, h.size, h.lbfsize, h.str, h.content, h.complete⟩
  by_cases hfull : k.size ≤ s.buf.length
  · obtain ⟨hinv, hbuf, herr⟩ := sflush_spec henv hheld
    have hsize : s.size ≤ s.buf.length := h.size.trans_le hfull
    rw [swbuf]
    dsimp only
    rw [if_pos hsize]
    generalize sflush env { s with w := s.lbfsize } = r at hinv hbuf herr ⊢
    obtain ⟨eof, s'⟩ := r
    dsimp only at hinv hbuf herr ⊢
    cases eof with
    | true =>
      rw [Bool.true_or] at herr
      exact ⟨_, rfl, hinv.extend herr (List.sublist_append_left _ _), herr.trans (Bool.true_or _).symm⟩
    | false =>
      rw [Bool.false_or] at herr
      have hpos := k.pos
      obtain ⟨r, hr, hends⟩ := store_spec henv hinv.toHeld c (by rw [hbuf]; exact hpos) fun _ => hinv
      rw [herr] at hends
      exact ⟨r, hr, hends⟩
  · have hroom : s.buf.length < k.size := Nat.not_le.mp hfull
    have hsize : ¬ s.size ≤ s.buf.length := by rwa [h.size]
    rw [swbuf]
    dsimp only
    rw [if_neg hsize]
    refine store_spec henv hheld c hroom fun hnot => absurd ?_ hnot
    dsimp only
    rw [h.size, h.lbf]
    rcases hcall with hn | hfull | hline
    · refine .inl ?_
      rw [(k.unbuffered hn).2, h.unbuffered hn]
      rfl
    · exact absurd hfull hroom.ne
    · exact .inr hline

/-- `putc` -/
theorem sputc_spec (henv : env.Takes) (h : FileInv k given s) (c : Byte) :
    ∃ r, sputc env c s = .ok r ∧ Ends k (given ++ [c]) s.err r := by
  rw [sputc]
  dsimp only
  have hw := h.w
  have hroom := h.room
  by_cases hput : 0 ≤ s.w - 1 ∨ s.lbfsize ≤ s.w - 1 ∧ c ≠ newline
  · have hn : k.nbf = false := by
      by_contra hn
      have hn : k.nbf = true := by simpa using hn
      rw [hn, if_pos rfl] at hw
      rw [h.lbfsize, (k.unbuffered hn).1, hw] at hput
      simp at hput
    have hlt : s.buf.length < k.size := by
      rw [hn] at hw
      rw [h.lbfsize] at hput
      cases hl : k.lbf
      · rw [hl] at hw hput
        simp only [Bool.false_eq_true, if_false] at hw hput
        omega
      · rw [hl] at hw hput
        simp only [Bool.false_eq_true, if_false, if_true] at hw hput
        omega
    rw [if_pos hput]
    have hcopy : { s with w := s.w - 1 }.copy [c] 1 = .ok { s with w := s.w - 1, buf := s.buf ++ [c] } := by
      refine copy_eq (n := 1) (by simp) ?_
      rw [h.size]
      exact hlt
    rw [hcopy, ok_bind]
    refine ⟨_, rfl, h.put c hlt hn fun hl hc => ?_, rfl⟩
    rcases hput with hput | hput
    · rw [hn, hl] at hw
      simp only [Bool.false_eq_true, if_false, if_true] at hw
      omega
    · exact hput.2 hc
  · rw [if_neg hput]
    refine swbuf_spec henv h c (s.w - 1) ?_
    by_contra hnot
    obtain ⟨hn, hnot⟩ := not_or.mp hnot
    obtain ⟨hfull, hline⟩ := not_or.mp hnot
    have hn : k.nbf = false := by simpa using hn
    refine hput ?_
    rw [h.lbfsize, hw, hn]
    cases hl : k.lbf
    · simp only [Bool.false_eq_true, if_false]
      omega
    · simp only [Bool.false_eq_true, if_false, if_true]
      exact .inr ⟨by omega, fun hc => hline ⟨hl, hc⟩⟩

end Flush

/-! ### The passes of `__sfvwrite` -/

section Passes

variable {env : Env} {k : Kind} {total done p q : List Byte} {s s' : File} {u : Uio} {iov : List (List Byte)} {n : ℕ} {err : Bool}

/-- What is left of the regions. -/
def Uio.rest (u : Uio) : List Byte := u.p ++ u.iov.flatten

/-- What holds before each pass, of the stream and of what is left of the regions. -/
structure LoopInv (k : Kind) (total : List Byte) (err : Bool) (s : File) (u : Uio) : Prop where
  given : ∃ done, total = done ++ u.rest ∧ FileInv k done s
  err : s.err = err
  resid : u.resid = u.rest.length
  pos : 0 < u.rest.length
  small : u.rest.length < 2 ^ 31
  known : u.nlknown = true → k.lbf = true ∧ u.nldist = newlineDistance u.p

/-- A pass deals with bytes, or it empties the buffer. -/
def toDo (s : File) (u : Uio) : ℕ := 2 * u.rest.length + if s.buf = [] then 0 else 1

/-- What a pass may leave. -/
def PassOk (k : Kind) (total : List Byte) (err : Bool) (toDo' : ℕ) : (File × Uio) ⊕ (Bool × File) → Prop
  | .inl (s, u) => LoopInv k total err s u ∧ toDo s u < toDo'
  | .inr r => Ends k total err r

theorem getIov_spec (h : p ++ iov.flatten ≠ []) : ∃ q iov' moved, getIov p iov = .ok (q, iov', moved) ∧ q ≠ [] ∧
    q ++ iov'.flatten = p ++ iov.flatten ∧ (moved = false → q = p) := by
  induction iov generalizing p with
  | nil =>
    cases p with
    | nil => exact absurd rfl h
    | cons b p => exact ⟨_, _, _, rfl, List.cons_ne_nil b p, rfl, fun _ => rfl⟩
  | cons r iov ih =>
    cases p with
    | nil =>
      obtain ⟨q, iov', moved, hget, hne, heq, -⟩ := ih (p := r) (by simpa using h)
      refine ⟨q, iov', true, ?_, hne, by simpa using heq, by rintro ⟨⟩⟩
      rw [getIov, hget]
      rfl
    | cons b p => exact ⟨_, _, _, rfl, List.cons_ne_nil b p, rfl, fun _ => rfl⟩

theorem newlineDistance_pos (p : List Byte) (h : p.length < 2 ^ 31) : 1 ≤ newlineDistance p := by
  rw [newlineDistance, int_eq h]
  split_ifs
  · omega
  · omega

/-- The first newline is behind the bytes before its distance. -/
theorem newlineDistance_drop (hn : n ≤ p.length) (hp : p.length < 2 ^ 31) (h : n < newlineDistance p) :
    newline ∉ p.take n ∧ newlineDistance (p.drop n) = newlineDistance p - n := by
  rw [newlineDistance] at h
  by_cases hmem : newline ∈ p
  · rw [if_pos hmem] at h
    have hle : n ≤ p.idxOf newline := by omega
    have htake : newline ∉ p.take n := by
      rw [List.mem_take_iff_idxOf_lt hmem]
      omega
    have hdrop : newline ∈ p.drop n := by
      rw [← List.take_append_drop n p, List.mem_append] at hmem
      exact hmem.resolve_left htake
    have hidx : p.idxOf newline = n + (p.drop n).idxOf newline := by
      conv_lhs => rw [← List.take_append_drop n p]
      rw [List.idxOf_append_of_notMem htake, List.length_take, Nat.min_eq_left hn]
    refine ⟨htake, ?_⟩
    rw [newlineDistance, newlineDistance, if_pos hdrop, if_pos hmem, hidx]
    push_cast
    omega
  · have htake : newline ∉ p.take n := fun h => hmem (List.mem_of_mem_take h)
    have hdrop : newline ∉ p.drop n := fun h => hmem (List.mem_of_mem_drop h)
    refine ⟨htake, ?_⟩
    rw [newlineDistance, newlineDistance, if_neg hdrop, if_neg hmem, int_eq hp, List.length_drop, int_eq (by omega)]
    omega

/-- The end of a pass that has dealt with `n` bytes. -/
theorem advance_spec (hresid : u.resid = u.rest.length) (hsmall : u.rest.length < 2 ^ 31)
    (hn : n ≤ u.p.length) (htotal : total = done ++ u.rest) (hs : FileInv k (done ++ u.p.take n) s) (herr : s.err = err)
    (hknown : u.nlknown = true → k.lbf = true ∧ u.nldist = newlineDistance (u.p.drop n)) (hless : n = 0 → s.buf = [])
    {toDo' : ℕ} (htoDo : 2 * u.rest.length + (if n = 0 then 1 else 0) ≤ toDo') :
    ∃ r, advance s u n = .ok r ∧ PassOk k total err toDo' r := by
  have hrest : u.rest = u.p.take n ++ (u.p.drop n ++ u.iov.flatten) := by
    rw [← List.append_assoc, List.take_append_drop, Uio.rest]
  have hlen : u.rest.length = n + (u.p.drop n ++ u.iov.flatten).length := by
    rw [hrest, List.length_append, List.length_take, Nat.min_eq_left hn]
  rw [advance, if_pos ⟨Int.natCast_nonneg n, by omega⟩]
  refine ⟨_, rfl, ?_⟩
  rw [Int.toNat_natCast]
  dsimp only
  generalize hleft : u.p.drop n ++ u.iov.flatten = left at hrest hlen
  by_cases hlast : u.resid - n ≠ 0
  · rw [if_pos hlast]
    have hle : left.length ≤ u.rest.length := by omega
    refine ⟨⟨⟨done ++ u.p.take n, ?_, hs⟩, herr, ?_, ?_, ?_, hknown⟩, ?_⟩
    · rw [htotal, List.append_assoc, hrest, Uio.rest, hleft]
    · rw [Uio.rest, hleft]
      dsimp only
      omega
    · rw [Uio.rest, hleft]
      omega
    · rw [Uio.rest, hleft]
      omega
    · rw [toDo, Uio.rest, hleft]
      by_cases h0 : n = 0
      · rw [if_pos (hless h0)]
        rw [if_pos h0] at htoDo
        omega
      · rw [if_neg h0] at htoDo
        split_ifs
        · omega
        · omega
  · rw [if_neg hlast]
    have hnil : left = [] := List.length_eq_zero_iff.mp (by omega)
    rw [hnil, List.append_nil] at hrest
    rw [htotal, hrest]
    exact ⟨hs, herr.trans (Bool.false_or _).symm⟩

theorem Held.pass (h : Held k done s) : Held k done { s with calls := s.calls + 1 } :=
  ⟨h.lbf, h.nbf, h.size, h.lbfsize, h.str, h.content, h.complete⟩

/-- The descriptor is given bytes without the buffer, which is empty. -/
theorem direct_spec (henv : env.Takes) (h : FileInv k done s) (hbuf : s.buf = []) (q : List Byte) :
    FileInv k (done ++ q.take (s.write env q).1.toNat) (s.write env q).2 ∧ (s.write env q).2.buf = [] ∧
      (s.write env q).2.err = s.err ∧ (s.write env q).1 ≤ q.length := by
  obtain ⟨htaken, hstate⟩ := write_taken henv s q
  rw [hstate]
  have hheld : Held k (done ++ q.take (s.write env q).1.toNat)
      { s with calls := s.calls + 1, out := s.out ++ q.take (s.write env q).1.toNat } := by
    have hcontent := h.content
    have hcomplete := h.complete
    rw [hbuf, List.append_nil] at hcontent hcomplete
    refine ⟨h.lbf, h.nbf, h.size, h.lbfsize, h.str, ?_, fun he => ?_⟩
    · dsimp only
      rw [hbuf, List.append_nil]
      exact hcontent.append (List.Sublist.refl _)
    · dsimp only
      rw [hbuf, List.append_nil, hcomplete he]
  refine ⟨hheld.empty hbuf ?_, hbuf, rfl, htaken⟩
  have hw := h.w
  rw [hbuf] at hw
  simpa using hw

theorem sublist_total {rest : List Byte} (htotal : total = done ++ rest) (hrest : q ++ iov.flatten = rest) (n : ℕ) :
    (done ++ q.take n).Sublist total := by
  rw [htotal, ← hrest]
  exact (List.Sublist.refl done).append ((List.take_sublist n q).trans (List.sublist_append_left _ _))

/-- A pass that fails. -/
theorem fail_spec (h : FileInv k done s) (hl : done.Sublist total) {toDo' : ℕ} :
    PassOk k total err toDo' (.inr s.fail) :=
  ⟨h.fail hl, (Bool.true_or _).symm⟩

theorem unbuffered_spec (henv : env.Takes) (h : LoopInv k total err s u) (hn : k.nbf = true) :
    ∃ r, unbufferedPass env s u = .ok r ∧ PassOk k total err (toDo s u) r := by
  obtain ⟨⟨done, htotal, hs⟩, herr, hresid, hpos, hsmall, hknown⟩ := h
  obtain ⟨q, iov, moved, hget, hq, hrest, -⟩ := getIov_spec (List.ne_nil_of_length_pos hpos)
  obtain ⟨hinv, hbuf, herr', htaken⟩ := direct_spec henv hs (hs.unbuffered hn) q
  rw [unbufferedPass, hget, ok_bind]
  dsimp only
  generalize s.write env q = r at hinv hbuf herr' htaken ⊢
  obtain ⟨w, s'⟩ := r
  dsimp only at hinv hbuf herr' htaken ⊢
  by_cases hw : w ≤ 0
  · rw [if_pos hw]
    rw [Int.toNat_of_nonpos hw, List.take_zero, List.append_nil] at hinv
    exact ⟨_, rfl, fail_spec hinv (htotal ▸ List.sublist_append_left _ _)⟩
  · rw [if_neg hw]
    obtain ⟨n, rfl⟩ := Int.eq_ofNat_of_zero_le (Int.not_le.mp hw).le
    have hne : n ≠ 0 := by omega
    rw [Int.toNat_natCast] at hinv
    have hrest' : Uio.rest { u with p := q, iov := iov } = u.rest := hrest
    have hresid' : u.resid = (Uio.rest { u with p := q, iov := iov }).length := by rwa [hrest']
    have hsmall' : (Uio.rest { u with p := q, iov := iov }).length < 2 ^ 31 := by rwa [hrest']
    have htotal' : total = done ++ Uio.rest { u with p := q, iov := iov } := by rwa [hrest']
    refine advance_spec hresid' hsmall' (by simpa using htaken)
      htotal' hinv (herr'.trans herr) (fun h => ?_) (fun h0 => absurd h0 hne) ?_
    · exact absurd (hknown h).1 (by rw [(k.unbuffered hn).1]; decide)
    · rw [hrest', if_neg hne, toDo]
      omega

/-- The buffer is filled with bytes that do not fit in, and flushed. -/
theorem fill_spec (henv : env.Takes) (h : FileInv k done s) (hn : n ≤ p.length) (hroom : s.buf.length + n ≤ k.size) :
    s.copy p n = .ok { s with buf := s.buf ++ p.take n } ∧
      FileInv k (done ++ p.take n) (sflush env { s with buf := s.buf ++ p.take n }).2 ∧
      (sflush env { s with buf := s.buf ++ p.take n }).2.buf = [] ∧
      (sflush env { s with buf := s.buf ++ p.take n }).2.err =
        ((sflush env { s with buf := s.buf ++ p.take n }).1 || s.err) :=
  ⟨copy_eq hn (by rw [h.size]; exact hroom), sflush_spec henv (h.toHeld.append s.w (p.take n))⟩

/-- Bytes that fit in. -/
theorem FileInv.fill (h : FileInv k done s) (hn : k.nbf = false) (hp : n ≤ p.length) (hroom : s.buf.length + n ≤ k.size)
    (hline : k.lbf = true → newline ∉ p.take n) :
    FileInv k (done ++ p.take n) { s with w := s.w - n, buf := s.buf ++ p.take n } := by
  have hlen : (s.buf ++ p.take n).length = s.buf.length + n := by
    rw [List.length_append, List.length_take, Nat.min_eq_left hp]
  refine { h.toHeld.append (s.w - n) (p.take n) with room := ?_, w := ?_, unbuffered := ?_, line := fun hl => ?_ }
  · rw [hlen]
    exact hroom
  · dsimp only
    rw [h.w, hn, hlen]
    cases k.lbf
    · simp only [Bool.false_eq_true, if_false]
      omega
    · simp only [Bool.false_eq_true, if_false, if_true]
      omega
  · rw [hn]
    rintro ⟨⟩
  · rw [List.mem_append]
    exact fun hmem => hmem.elim (h.line hl) (hline hl)

theorem full_spec (henv : env.Takes) (h : LoopInv k total err s u) (hn : k.nbf = false) (hl : k.lbf = false) :
    ∃ r, fullPass env s u = .ok r ∧ PassOk k total err (toDo s u) r := by
  obtain ⟨⟨done, htotal, hs⟩, herr, hresid, hpos, hsmall, hknown⟩ := h
  obtain ⟨q, iov, moved, hget, hq, hrest, -⟩ := getIov_spec (List.ne_nil_of_length_pos hpos)
  have hrest' : Uio.rest { u with p := q, iov := iov } = u.rest := hrest
  have hresid' : u.resid = (Uio.rest { u with p := q, iov := iov }).length := by rwa [hrest']
  have hsmall' : (Uio.rest { u with p := q, iov := iov }).length < 2 ^ 31 := by rwa [hrest']
  have htotal' : total = done ++ Uio.rest { u with p := q, iov := iov } := by rwa [hrest']
  have hqlen : q.length ≤ u.rest.length := by
    rw [← hrest', Uio.rest, List.length_append]
    exact Nat.le_add_right _ _
  have hint : int q.length = q.length := int_eq (hqlen.trans_lt hsmall)
  have hroom := hs.room
  have hsub := sublist_total htotal hrest
  have hw : s.w = ((k.size - s.buf.length : ℕ) : ℤ) := by
    rw [hs.w, hn, hl]
    simp only [Bool.false_eq_true, if_false]
    omega
  have hnot : ∀ n, u.nlknown = true → k.lbf = true ∧ u.nldist = newlineDistance (q.drop n) := fun _ h =>
    absurd (hknown h).1 (by rw [hl]; decide)
  have hgrow : grow env s q.length = some s := by
    rw [grow, hs.str, if_neg (by simp)]
  rw [fullPass, hget, ok_bind]
  dsimp only
  rw [hgrow]
  dsimp only
  rw [if_neg (by rw [hs.str]; decide), hint]
  by_cases hfill : s.buf ≠ [] ∧ s.w < q.length
  · rw [if_pos hfill, hw]
    rw [hw] at hfill
    have hfull : k.size - s.buf.length ≤ q.length := by omega
    obtain ⟨hcopy, hinv, hbuf, herr'⟩ := fill_spec henv hs hfull (by omega)
    rw [hcopy, ok_bind]
    generalize sflush env { s with buf := s.buf ++ q.take (k.size - s.buf.length) } = r at hinv hbuf herr' ⊢
    obtain ⟨eof, s'⟩ := r
    dsimp only at hinv hbuf herr' ⊢
    cases eof with
    | true => exact ⟨_, rfl, fail_spec hinv (hsub _)⟩
    | false =>
      refine advance_spec hresid' hsmall' hfull htotal'
        hinv (herr'.trans ((Bool.false_or _).trans herr)) (hnot _) (fun _ => hbuf) ?_
      rw [hrest', toDo, if_neg hfill.1]
      split_ifs
      · exact le_rfl
      · omega
  · rw [if_neg hfill]
    by_cases hdirect : (s.size : ℤ) ≤ q.length
    · have hpos' := k.pos
      have hbuf : s.buf = [] := by
        by_contra hbuf
        refine hfill ⟨hbuf, ?_⟩
        have := List.length_pos_iff.mpr hbuf
        rw [hs.size] at hdirect
        omega
      obtain ⟨hinv, hbuf', herr', htaken⟩ := direct_spec henv hs hbuf (q.take s.size)
      rw [if_pos hdirect]
      generalize s.write env (q.take s.size) = r at hinv hbuf' herr' htaken ⊢
      obtain ⟨w, s'⟩ := r
      dsimp only at hinv hbuf' herr' htaken ⊢
      by_cases hw0 : w ≤ 0
      · rw [if_pos hw0]
        rw [Int.toNat_of_nonpos hw0, List.take_zero] at hinv
        exact ⟨_, rfl, fail_spec hinv (hsub 0)⟩
      · rw [if_neg hw0]
        obtain ⟨n, rfl⟩ := Int.eq_ofNat_of_zero_le (Int.not_le.mp hw0).le
        have hne : n ≠ 0 := by omega
        rw [List.length_take] at htaken
        rw [Int.toNat_natCast, List.take_take, Nat.min_eq_left (by omega)] at hinv
        refine advance_spec hresid' hsmall' (by dsimp only; omega)
          htotal' hinv (herr'.trans herr) (hnot _) (fun h0 => absurd h0 hne) ?_
        rw [hrest', if_neg hne, toDo]
        omega
    · have hfits : s.buf.length + q.length ≤ k.size := by
        rw [hs.size] at hdirect
        by_cases hbuf : s.buf = []
        · rw [hbuf]
          simp only [List.length_nil]
          omega
        · have hle : ¬ s.w < q.length := fun h => hfill ⟨hbuf, h⟩
          omega
      have hne : q.length ≠ 0 := fun h0 => hq (List.length_eq_zero_iff.mp h0)
      have hcopy : s.copy q q.length = .ok { s with buf := s.buf ++ q.take q.length } :=
        copy_eq le_rfl (by rw [hs.size]; exact hfits)
      have hfilled := hs.fill hn le_rfl hfits fun h => absurd h (by rw [hl]; decide)
      rw [if_neg hdirect, hcopy, ok_bind]
      dsimp only
      refine advance_spec (n := q.length) hresid' hsmall' le_rfl
        htotal' hfilled herr (hnot _) (fun h0 => absurd h0 hne) ?_
      rw [hrest', if_neg hne, toDo]
      omega

/-- The end of a pass for a line buffered stream.  Where the newline has been dealt with, the buffer is flushed. -/
theorem lineEnd_spec (henv : env.Takes) (hl : k.lbf = true) (hresid : u.resid = u.rest.length)
    (hsmall : u.rest.length < 2 ^ 31) (hn : n ≤ u.p.length) (htotal : total = done ++ u.rest)
    (hs : Held k (done ++ u.p.take n) s) (hkept : n < newlineDistance u.p → FileInv k (done ++ u.p.take n) s)
    (herr : s.err = err) (hdist : u.nldist = newlineDistance u.p) (hle : n ≤ newlineDistance u.p)
    (hless : n = 0 → s.buf = []) {toDo' : ℕ} (htoDo : 2 * u.rest.length + (if n = 0 then 1 else 0) ≤ toDo') :
    ∃ r, lineEnd env s u n = .ok r ∧ PassOk k total err toDo' r := by
  have hplen : u.p.length < 2 ^ 31 := by
    rw [Uio.rest, List.length_append] at hsmall
    omega
  have hdone : (done ++ u.p.take n).Sublist total := by
    rw [htotal, Uio.rest]
    exact (List.Sublist.refl done).append ((List.take_sublist n u.p).trans (List.sublist_append_left _ _))
  rw [lineEnd]
  dsimp only
  by_cases hline : u.nldist - n = 0
  · rw [if_pos hline]
    obtain ⟨hinv, hbuf, herr'⟩ := sflush_spec henv hs
    generalize sflush env s = r at hinv hbuf herr' ⊢
    obtain ⟨eof, s'⟩ := r
    dsimp only at hinv hbuf herr' ⊢
    cases eof with
    | true => exact ⟨_, rfl, fail_spec hinv hdone⟩
    | false =>
      exact advance_spec (u := ⟨u.p, u.iov, u.resid, false, u.nldist - n⟩) hresid hsmall hn htotal hinv
        (herr'.trans ((Bool.false_or _).trans herr)) (by rintro ⟨⟩) (fun _ => hbuf) htoDo
  · rw [if_neg hline]
    have hlt : n < newlineDistance u.p := by
      rw [hdist] at hline
      omega
    refine advance_spec (u := ⟨u.p, u.iov, u.resid, u.nlknown, u.nldist - n⟩) hresid hsmall hn htotal (hkept hlt) herr
      (fun _ => ⟨hl, ?_⟩) hless htoDo
    rw [(newlineDistance_drop hn hplen hlt).2, hdist]

theorem line_spec (henv : env.Takes) (h : LoopInv k total err s u) (hl : k.lbf = true) :
    ∃ r, linePass env s u = .ok r ∧ PassOk k total err (toDo s u) r := by
  obtain ⟨⟨done, htotal, hs⟩, herr, hresid, hpos, hsmall, hknown⟩ := h
  obtain ⟨q, iov, moved, hget, hq, hrest, hsame⟩ := getIov_spec (List.ne_nil_of_length_pos hpos)
  have hn : k.nbf = false := by
    by_contra hn
    exact absurd hl (by rw [(k.unbuffered (by simpa using hn)).1]; decide)
  have hdist : (if (u.nlknown && !moved) = true then u.nldist else newlineDistance q) = newlineDistance q := by
    split_ifs with hk
    · rw [Bool.and_eq_true, Bool.not_eq_true'] at hk
      rw [(hknown hk.1).2, hsame hk.2]
    · rfl
  have hrest' : Uio.rest ⟨q, iov, u.resid, true, newlineDistance q⟩ = u.rest := hrest
  have hresid' : u.resid = (Uio.rest ⟨q, iov, u.resid, true, newlineDistance q⟩).length := by rwa [hrest']
  have hsmall' : (Uio.rest ⟨q, iov, u.resid, true, newlineDistance q⟩).length < 2 ^ 31 := by rwa [hrest']
  have htotal' : total = done ++ Uio.rest ⟨q, iov, u.resid, true, newlineDistance q⟩ := by rwa [hrest']
  have hqlen : q.length < 2 ^ 31 := by
    refine lt_of_le_of_lt ?_ hsmall
    rw [← hrest', Uio.rest, List.length_append]
    exact Nat.le_add_right _ _
  have hint : int q.length = q.length := int_eq hqlen
  have hdpos := newlineDistance_pos q hqlen
  have hqpos := List.length_pos_iff.mpr hq
  have hroom := hs.room
  have hsub := sublist_total htotal hrest
  have hw : s.w + s.size = ((k.size - s.buf.length : ℕ) : ℤ) := by
    rw [hs.w, hn, hl, hs.size]
    simp only [Bool.false_eq_true, if_false, if_true]
    omega
  have htake : ∀ n : ℕ, n ≤ q.length → n < newlineDistance q → newline ∉ q.take n :=
    fun n hn hlt => (newlineDistance_drop hn hqlen hlt).1
  rw [linePass, hget, ok_bind]
  dsimp only
  rw [hdist, hint, hw]
  by_cases hfill : s.buf ≠ [] ∧ ((k.size - s.buf.length : ℕ) : ℤ) < min (q.length : ℤ) (newlineDistance q)
  · obtain ⟨hne, hlt⟩ := hfill
    obtain ⟨hltq, hltd⟩ := lt_min_iff.mp hlt
    rw [if_pos ⟨hne, hlt⟩]
    obtain ⟨hcopy, hinv, hbuf, herr'⟩ := fill_spec henv hs (p := q) (n := k.size - s.buf.length) (by omega) (by omega)
    rw [hcopy, ok_bind]
    generalize sflush env { s with buf := s.buf ++ q.take (k.size - s.buf.length) } = r at hinv hbuf herr' ⊢
    obtain ⟨eof, s'⟩ := r
    dsimp only at hinv hbuf herr' ⊢
    cases eof with
    | true => exact ⟨_, rfl, fail_spec hinv (hsub _)⟩
    | false =>
      refine lineEnd_spec henv hl hresid' hsmall' (by dsimp only; omega) htotal' hinv.toHeld (fun _ => hinv)
        (herr'.trans ((Bool.false_or _).trans herr)) rfl hltd.le (fun _ => hbuf) ?_
      rw [hrest', toDo, if_neg hne]
      split_ifs
      · exact le_rfl
      · omega
  · rw [if_neg hfill]
    have hpos' := k.pos
    by_cases hdirect : (s.size : ℤ) ≤ min (q.length : ℤ) (newlineDistance q)
    · obtain ⟨hsq, hsd⟩ := le_min_iff.mp hdirect
      have hbuf : s.buf = [] := by
        by_contra hbuf
        refine hfill ⟨hbuf, lt_of_lt_of_le ?_ hdirect⟩
        have := List.length_pos_iff.mpr hbuf
        rw [hs.size]
        omega
      obtain ⟨hinv, hbuf', herr', htaken⟩ := direct_spec henv hs hbuf (q.take s.size)
      rw [if_pos hdirect]
      generalize s.write env (q.take s.size) = r at hinv hbuf' herr' htaken ⊢
      obtain ⟨w, s'⟩ := r
      dsimp only at hinv hbuf' herr' htaken ⊢
      by_cases hw0 : w ≤ 0
      · rw [if_pos hw0]
        rw [Int.toNat_of_nonpos hw0, List.take_zero] at hinv
        exact ⟨_, rfl, fail_spec hinv (hsub 0)⟩
      · rw [if_neg hw0]
        obtain ⟨n, rfl⟩ := Int.eq_ofNat_of_zero_le (Int.not_le.mp hw0).le
        have hne : n ≠ 0 := by omega
        rw [List.length_take] at htaken
        rw [Int.toNat_natCast, List.take_take, Nat.min_eq_left (by omega)] at hinv
        refine lineEnd_spec henv hl hresid' hsmall' (by dsimp only; omega) htotal' hinv.toHeld (fun _ => hinv)
          (herr'.trans herr) rfl (by dsimp only; omega) (fun h0 => absurd h0 hne) ?_
        rw [hrest', if_neg hne, toDo]
        omega
    · obtain ⟨n, hmin⟩ := Int.eq_ofNat_of_zero_le (le_min (Int.natCast_nonneg q.length) (by omega : 0 ≤ newlineDistance q))
      have hmin : min (q.length : ℤ) (newlineDistance q) = n := hmin
      have hnq : n ≤ q.length := by
        have := min_le_left (q.length : ℤ) (newlineDistance q)
        omega
      have hnd : (n : ℤ) ≤ newlineDistance q := by
        have := min_le_right (q.length : ℤ) (newlineDistance q)
        omega
      have hne : n ≠ 0 := by omega
      rw [hmin] at hfill hdirect ⊢
      have hfits : s.buf.length + n ≤ k.size := by
        rw [hs.size] at hdirect
        by_cases hbuf : s.buf = []
        · rw [hbuf]
          simp only [List.length_nil]
          omega
        · have hle : ¬ ((k.size - s.buf.length : ℕ) : ℤ) < n := fun h => hfill ⟨hbuf, h⟩
          omega
      have hcopy : s.copy q n = .ok { s with buf := s.buf ++ q.take n } := copy_eq hnq (by rw [hs.size]; exact hfits)
      have hheld := hs.toHeld.append (s.w - n) (q.take n)
      rw [if_neg hdirect, hcopy, ok_bind]
      dsimp only
      refine lineEnd_spec henv hl hresid' hsmall' hnq htotal' hheld
        (fun hlt => hs.fill hn hnq hfits fun _ => htake n hnq hlt) herr rfl hnd (fun h0 => absurd h0 hne) ?_
      rw [hrest', if_neg hne, toDo]
      omega

theorem pass_spec (henv : env.Takes) (h : LoopInv k total err s u) :
    ∃ r, pass env s u = .ok r ∧ PassOk k total err (toDo s u) r := by
  obtain ⟨done, -, hs⟩ := h.given
  rw [pass, hs.nbf, hs.lbf]
  cases hn : k.nbf with
  | true => exact unbuffered_spec henv h hn
  | false =>
    cases hl : k.lbf with
    | true => exact line_spec henv h hl
    | false => exact full_spec henv h hn hl

end Passes

/-- `__sfvwrite` returns without a fault where each of its passes goes on to a smaller state or ends. -/
theorem sfvWrite_exists {env : Env} {s : File} {iov : List (List Byte)} {Q : Bool × File → Prop} (I : File × Uio → Prop)
    (μ : File × Uio → ℕ) (hnil : iov.flatten = [] → Q (false, s))
    (hstart : ∀ p rest, iov = p :: rest → iov.flatten ≠ [] → I (s, ⟨p, rest, (p ++ rest.flatten).length, false, 0⟩))
    (hstep : ∀ t, I t → (∃ r, step env t = .inr (.ok r) ∧ Q r) ∨ ∃ t', step env t = .inl t' ∧ I t' ∧ μ t' < μ t) :
    ∃ r, SfvWrite env s iov (.ok r) ∧ Q r := by
  cases iov with
  | nil => exact ⟨_, rfl, hnil rfl⟩
  | cons p iov =>
    by_cases h0 : (p ++ iov.flatten).length = 0
    · refine ⟨_, ?_, hnil (List.length_eq_zero_iff.mp h0)⟩
      rw [SfvWrite, if_pos h0]
    · have hi := hstart p iov rfl fun hnil => h0 (congrArg List.length hnil)
      have hends : ∀ t, I t → (∃ a, step env t = .inr a ∧ ∃ r, a = .ok r ∧ Q r) ∨
          ∃ t', step env t = .inl t' ∧ I t' ∧ μ t' < μ t := by
        intro t ht
        rcases hstep t ht with ⟨r, hr, hq⟩ | hnext
        · exact .inl ⟨_, hr, r, rfl, hq⟩
        · exact .inr hnext
      obtain ⟨a, ha, r, rfl, hq⟩ := exists_returns μ hends hi
      refine ⟨r, ?_, hq⟩
      rw [SfvWrite, if_neg h0]
      exact ha

/-- `__sfvwrite` returns, and loses nothing. -/
theorem sfvWrite_spec {env : Env} {k : Kind} {given : List Byte} {s : File} (henv : env.Takes) (h : FileInv k given s)
    (iov : List (List Byte)) (hsmall : iov.flatten.length < 2 ^ 31) :
    ∃ r, SfvWrite env s iov (.ok r) ∧ Ends k (given ++ iov.flatten) s.err r := by
  refine sfvWrite_exists (fun t => LoopInv k (given ++ iov.flatten) s.err t.1 t.2) (fun t => toDo t.1 t.2) (fun hnil => ?_)
    (fun p rest hiov hne => ?_) fun t ht => ?_
  · rw [hnil, List.append_nil]
    exact ⟨h, (Bool.false_or _).symm⟩
  · subst hiov
    exact ⟨⟨given, rfl, h⟩, rfl, rfl, List.length_pos_iff.mpr hne, hsmall, by rintro ⟨⟩⟩
  · obtain ⟨r, hpass, hok⟩ := pass_spec henv ht
    rw [step, hpass]
    rcases r with t' | r
    · exact .inr ⟨t', rfl, hok⟩
    · exact .inl ⟨r, rfl, hok⟩

theorem SfvWrite.unique {env : Env} {s : File} {iov : List (List Byte)} {r r' : Except Fault (Bool × File)}
    (h : SfvWrite env s iov r) (h' : SfvWrite env s iov r') : r = r' := by
  cases iov with
  | nil => exact Eq.trans h (Eq.symm h')
  | cons p iov =>
    rw [SfvWrite] at h h'
    split_ifs at h h'
    · exact Eq.trans h (Eq.symm h')
    · exact Returns.unique h h'

/-! ### Runs -/

/-- A call on a stream, with all bytes that have been given to it. -/
inductive Writes (env : Env) : File × List Byte → File × List Byte → Prop
  | putc (s : File) (given : List Byte) (c : Byte) (r : Bool × File) (h : sputc env c s = .ok r) :
      Writes env (s, given) (r.2, given ++ [c])
  | fvwrite (s : File) (given : List Byte) (iov : List (List Byte)) (r : Bool × File) (small : iov.flatten.length < 2 ^ 31)
      (h : SfvWrite env s iov (.ok r)) : Writes env (s, given) (r.2, given ++ iov.flatten)
  | fflush (s : File) (given : List Byte) : Writes env (s, given) ((sflush env s).2, given)

/-- The states of all runs on a stream of this kind. -/
def Reachable (env : Env) (k : Kind) : File × List Byte → Prop :=
  Relation.ReflTransGen (Writes env) (swsetup k.lbf k.nbf k.size, [])

theorem writes_inv {env : Env} {k : Kind} {t t' : File × List Byte} (henv : env.Takes) (h : FileInv k t.2 t.1)
    (hw : Writes env t t') : FileInv k t'.2 t'.1 := by
  cases hw with
  | putc s given c r hr =>
    obtain ⟨r', hr', hends⟩ := sputc_spec henv h c
    obtain rfl : r' = r := Except.ok.inj (hr'.symm.trans hr)
    exact hends.inv
  | fvwrite s given iov r small hr =>
    obtain ⟨r', hr', hends⟩ := sfvWrite_spec henv h iov small
    obtain rfl : r' = r := Except.ok.inj (hr'.unique hr)
    exact hends.inv
  | fflush s given => exact (sflush_spec henv h.toHeld).1

theorem reachable_inv {env : Env} {k : Kind} {t : File × List Byte} (henv : env.Takes) (h : Reachable env k t) :
    FileInv k t.2 t.1 := by
  induction h with
  | refl => exact swsetup_inv k
  | tail _ hw ih => exact writes_inv henv ih hw

/-- Two lines and a half, of which the buffer keeps the half. -/
def someLines : File := { swsetup true false 8 with buf := [99], w := -1, calls := 2, out := [97, 10, 98, 10] }

def lineKind : Kind := ⟨true, false, 8, by decide, by rintro ⟨⟩⟩

theorem someLines_reachable : Reachable ⟨fun _ n => n, fun _ => true⟩ lineKind (someLines, [97, 10, 98, 10, 99]) := by
  have h : SfvWrite ⟨fun _ n => n, fun _ => true⟩ (swsetup true false 8) [[97, 10, 98, 10, 99]] (.ok (false, someLines)) :=
    ⟨3, by decide⟩
  exact .tail .refl (.fvwrite _ [] [[97, 10, 98, 10, 99]] _ (by decide) h)

/-- Whatever has been written, and whatever the descriptor has taken or refused, the next `putc` and the next write of
regions return, and store no byte outside of the buffer. -/
theorem writes_return (env : Env) (henv : env.Takes) (k : Kind) (t : File × List Byte) (h : Reachable env k t) (c : Byte)
    (iov : List (List Byte)) (small : iov.flatten.length < 2 ^ 31) :
    (∃ r, sputc env c t.1 = .ok r) ∧ ∃ r, SfvWrite env t.1 iov (.ok r) := by
  have hi := reachable_inv henv h
  obtain ⟨r, hr, -⟩ := sputc_spec henv hi c
  obtain ⟨r', hr', -⟩ := sfvWrite_spec henv hi iov small
  exact ⟨⟨r, hr⟩, r', hr'⟩

theorem writes_return_someLines : (∃ r, sputc ⟨fun _ n => n, fun _ => true⟩ 10 someLines = .ok r) ∧
    ∃ r, SfvWrite ⟨fun _ n => n, fun _ => true⟩ someLines [[100], [10]] (.ok r) :=
  writes_return ⟨fun _ n => n, fun _ => true⟩ (fun _ _ => le_rfl) lineKind (someLines, [97, 10, 98, 10, 99])
    someLines_reachable 10 [[100], [10]] (by decide)

/-- In every run of writes, what the descriptor has taken and what is in the buffer are bytes that have been written, in their
order and none of them twice; they are all of them as long as no error has been flagged.  A line buffered stream keeps no
newline in its buffer, and an unbuffered one keeps nothing. -/
theorem writes_once (env : Env) (henv : env.Takes) (k : Kind) (s : File) (given : List Byte) (h : Reachable env k (s, given)) :
    (s.out ++ s.buf).Sublist given ∧ (s.err = false → s.out ++ s.buf = given) ∧ s.buf.length ≤ k.size ∧
      (k.lbf = true → newline ∉ s.buf) ∧ (k.nbf = true → s.buf = []) := by
  have hi := reachable_inv henv h
  exact ⟨hi.content, hi.complete, hi.room, hi.line, hi.unbuffered⟩

theorem writes_once_someLines :
    (someLines.out ++ someLines.buf).Sublist [97, 10, 98, 10, 99] ∧
      (someLines.err = false → someLines.out ++ someLines.buf = [97, 10, 98, 10, 99]) ∧ someLines.buf.length ≤ 8 ∧
      (true = true → newline ∉ someLines.buf) ∧ (false = true → someLines.buf = []) :=
  writes_once ⟨fun _ n => n, fun _ => true⟩ (fun _ _ => le_rfl) lineKind someLines [97, 10, 98, 10, 99] someLines_reachable

/-- A flush that succeeds leaves nothing in the buffer: as long as no error has been flagged, all bytes are with the
descriptor. -/
theorem fflush_complete (env : Env) (henv : env.Takes) (k : Kind) (s : File) (given : List Byte)
    (h : Reachable env k (s, given)) (herr : s.err = false) (hok : (sflush env s).1 = false) :
    (sflush env s).2.out = given := by
  obtain ⟨hinv, hbuf, herr'⟩ := sflush_spec henv (reachable_inv henv h).toHeld
  have hcomplete := hinv.complete (herr'.trans (by rw [hok, herr]; rfl))
  rwa [hbuf, List.append_nil] at hcomplete

/-! ### String streams -/

/-- The stream of `vsnprintf`, or of `vasprintf`, with a buffer of `size` bytes. -/
def stringStream (alc : Bool) (size : ℕ) : File :=
  { swsetup false false size with str := true, alc := alc }

/-- What holds of a string stream that all bytes `given` have been written to. -/
structure StringInv (size : ℕ) (given : List Byte) (s : File) : Prop where
  lbf : s.lbf = false
  nbf : s.nbf = false
  str : s.str = true
  room : s.buf.length ≤ s.size
  w : s.w = s.size - s.buf.length
  buf : s.err = false → s.buf = if s.alc then given else given.take s.size
  failed : s.err = true → s.alc = true
  fixed : s.alc = false → s.size = size

theorem growSize_spec (need fuel size : ℕ) (h : need ≤ size + fuel) :
    need ≤ growSize need fuel size ∧ size ≤ growSize need fuel size := by
  induction fuel generalizing size with
  | zero => exact ⟨h, le_rfl⟩
  | succ fuel ih =>
    have hsize : size <<< 1 + 1 = 2 * size + 1 := by
      rw [Nat.shiftLeft_eq]
      omega
    rw [growSize, hsize]
    split_ifs with hless
    · obtain ⟨hneed, hle⟩ := ih (2 * size + 1) (by omega)
      exact ⟨hneed, by omega⟩
    · exact ⟨by omega, by omega⟩

section Strings

variable {env : Env} {total done given : List Byte} {s : File} {u : Uio} {size : ℕ}

/-- Making room fails for want of memory only.  It keeps what has been written, and then the stream has room or does not
grow. -/
theorem grow_spec (env : Env) (h : StringInv size done s) (n : ℕ) (hsmall : s.buf.length + n < 2 ^ 31) :
    (grow env s n = none ∧ s.alc = true ∧ ∃ m, env.realloc m = false) ∨
      ∃ s', grow env s n = some s' ∧ StringInv size done s' ∧ s'.alc = s.alc ∧ s'.err = s.err ∧
        s'.buf = s.buf ∧ (s.alc = true → s'.buf.length + n ≤ s'.size) := by
  have hint : int n = n := int_eq (by omega)
  have hint' : int (s.buf.length + n) = ((s.buf.length + n : ℕ) : ℤ) := int_eq hsmall
  have hroom := h.room
  have hw := h.w
  rw [grow]
  by_cases hgrow : s.str = true ∧ s.alc = true ∧ s.w < int n
  · rw [if_pos hgrow, hint']
    obtain ⟨hneed, hle⟩ := growSize_spec (s.buf.length + n) (s.buf.length + n) s.size (by omega)
    generalize growSize ((s.buf.length + n : ℕ) : ℤ) (s.buf.length + n) s.size = grown at hneed hle ⊢
    dsimp only
    split_ifs with memory
    · refine .inr ⟨_, rfl, ⟨h.lbf, h.nbf, h.str, hroom.trans hle, ?_, ?_, h.failed, fun ha => ?_⟩, rfl, rfl, rfl,
        fun _ => hneed⟩
      · dsimp only
        omega
      · intro he
        have hbuf := h.buf he
        rw [hgrow.2.1] at hbuf
        dsimp only
        rw [hgrow.2.1]
        exact hbuf
      · exact absurd (hgrow.2.1.symm.trans ha) (by decide)
    · exact .inl ⟨rfl, hgrow.2.1, _, Bool.eq_false_iff.2 memory⟩
  · rw [if_neg hgrow]
    refine .inr ⟨s, rfl, h, rfl, rfl, rfl, fun ha => ?_⟩
    have hle : ¬ s.w < int n := fun hlt => hgrow ⟨h.str, ha, hlt⟩
    rw [hint] at hle
    omega

/-- As many bytes as fit are copied, and all of them are counted. -/
theorem stringInv_copy (h : StringInv size done s) (q : List Byte) (hroom : s.alc = true → s.buf.length + q.length ≤ s.size) :
    s.copy q (if (q.length : ℤ) < s.w then (q.length : ℤ) else s.w) =
      .ok { s with buf := s.buf ++ q.take (min q.length (s.size - s.buf.length)) } ∧
    StringInv size (done ++ q) { s with
      buf := s.buf ++ q.take (min q.length (s.size - s.buf.length))
      w := s.w - if (q.length : ℤ) < s.w then (q.length : ℤ) else s.w } := by
  have hfits := h.room
  have hw := h.w
  have hmin : (if (q.length : ℤ) < s.w then (q.length : ℤ) else s.w) = ((min q.length (s.size - s.buf.length) : ℕ) : ℤ) := by
    split_ifs
    · omega
    · omega
  rw [hmin]
  have hlen : (q.take (min q.length (s.size - s.buf.length))).length = min q.length (s.size - s.buf.length) := by
    rw [List.length_take]
    omega
  refine ⟨copy_eq (by omega) (by omega), ⟨h.lbf, h.nbf, h.str, ?_, ?_, fun he => ?_, h.failed, h.fixed⟩⟩
  · dsimp only
    rw [List.length_append, hlen]
    omega
  · dsimp only
    rw [List.length_append, hlen]
    omega
  · have hbuf := h.buf he
    dsimp only
    cases ha : s.alc with
    | true =>
      have hall : min q.length (s.size - s.buf.length) = q.length := by
        have := hroom ha
        omega
      rw [ha, if_pos rfl] at hbuf
      rw [hall, List.take_length, hbuf, if_pos rfl]
    | false =>
      rw [ha, if_neg (by decide)] at hbuf
      rw [if_neg (by decide), List.take_append, ← hbuf]
      congr 1
      have hlength := congrArg List.length hbuf
      rw [List.length_take] at hlength
      rw [List.take_eq_take_iff]
      omega

/-- What holds before each pass for a string stream. -/
structure StringLoop (size : ℕ) (total : List Byte) (a e : Bool) (s : File) (u : Uio) : Prop where
  given : ∃ done, total = done ++ u.rest ∧ StringInv size done s ∧ s.buf.length ≤ done.length
  alc : s.alc = a
  err : s.err = e
  resid : u.resid = u.rest.length
  pos : 0 < u.rest.length
  small : total.length < 2 ^ 31

/-- How a write to a string stream ends. -/
structure StringEnds (env : Env) (size : ℕ) (total : List Byte) (a e : Bool) (r : Bool × File) : Prop where
  inv : StringInv size total r.2
  short : r.2.buf.length ≤ total.length
  alc : r.2.alc = a
  err : r.2.err = (r.1 || e)
  memory : r.1 = true → ∃ m, env.realloc m = false

theorem stringInv_fail (h : StringInv size done s) (ha : s.alc = true) : StringInv size total s.fail.2 :=
  ⟨h.lbf, h.nbf, h.str, h.room, h.w, by rintro ⟨⟩, fun _ => ha, h.fixed⟩

theorem string_pass {a e : Bool} (h : StringLoop size total a e s u) :
    (∃ r, step env (s, u) = .inr (.ok r) ∧ StringEnds env size total a e r) ∨
      ∃ t, step env (s, u) = .inl t ∧ StringLoop size total a e t.1 t.2 ∧ t.2.rest.length < u.rest.length := by
  obtain ⟨⟨done, htotal, hs, hshort⟩, halc, herr, hresid, hpos, hsmall⟩ := h
  obtain ⟨q, iov, moved, hget, hq, hrest, -⟩ := getIov_spec (List.ne_nil_of_length_pos hpos)
  have hrest : q ++ iov.flatten = u.rest := hrest
  have hqlen : done.length + q.length ≤ total.length := by
    rw [htotal, ← hrest, List.length_append, List.length_append]
    omega
  have hint : int q.length = q.length := int_eq (by omega)
  rw [step, pass, hs.nbf, hs.lbf, if_neg (by decide), if_pos (by decide), fullPass, hget, ok_bind]
  dsimp only
  rcases grow_spec env hs q.length (by omega) with ⟨hgrow, ha, memory⟩ | ⟨s', hgrow, hs', halc', herr', hbuf', hroom⟩
  · rw [hgrow]
    refine .inl ⟨_, rfl, stringInv_fail hs ha, ?_, halc, (Bool.true_or _).symm, fun _ => memory⟩
    simp only [File.fail]
    omega
  · rw [hgrow]
    obtain ⟨hcopy, hinv⟩ := stringInv_copy hs' q fun ha => hroom (halc' ▸ ha)
    dsimp only
    rw [if_pos hs'.str, hint, hcopy, ok_bind, advance, if_pos ⟨Int.natCast_nonneg _, le_rfl⟩, Int.toNat_natCast,
      List.drop_length]
    dsimp only
    have hlen : (s'.buf ++ q.take (min q.length (s'.size - s'.buf.length))).length ≤ (done ++ q).length := by
      rw [List.length_append, List.length_append, List.length_take, hbuf']
      omega
    have hleft : u.rest.length = q.length + iov.flatten.length := by rw [← hrest, List.length_append]
    have hqpos := List.length_pos_iff.mpr hq
    by_cases hlast : u.resid - q.length ≠ 0
    · rw [if_pos hlast]
      refine .inr ⟨_, rfl, ⟨⟨done ++ q, ?_, hinv, hlen⟩, halc'.trans halc, herr'.trans herr, ?_, ?_, hsmall⟩, ?_⟩
      · rw [htotal, ← hrest, List.append_assoc]
        rfl
      · simp only [Uio.rest, List.nil_append]
        omega
      · simp only [Uio.rest, List.nil_append]
        omega
      · simp only [Uio.rest, List.nil_append] at hleft ⊢
        omega
    · rw [if_neg hlast]
      have hnil : iov.flatten = [] := List.length_eq_zero_iff.mp (by omega)
      have hall : total = done ++ q := by rw [htotal, ← hrest, hnil, List.append_nil]
      rw [hall]
      refine .inl ⟨_, rfl, hinv, hlen, halc'.trans halc, (herr'.trans herr).trans (Bool.false_or _).symm, ?_⟩
      rintro ⟨⟩

theorem sfvWrite_string (env : Env) (h : StringInv size given s) (hshort : s.buf.length ≤ given.length) (iov : List (List Byte))
    (hsmall : (given ++ iov.flatten).length < 2 ^ 31) :
    ∃ r, SfvWrite env s iov (.ok r) ∧ StringEnds env size (given ++ iov.flatten) s.alc s.err r := by
  refine sfvWrite_exists (fun t => StringLoop size (given ++ iov.flatten) s.alc s.err t.1 t.2) (fun t => t.2.rest.length)
    (fun hnil => ?_) (fun p rest hiov hne => ?_) fun t ht => string_pass ht
  · rw [hnil, List.append_nil]
    refine ⟨h, hshort, rfl, (Bool.false_or _).symm, ?_⟩
    rintro ⟨⟩
  · subst hiov
    exact ⟨⟨given, rfl, h, hshort⟩, rfl, rfl, rfl, List.length_pos_iff.mpr hne, hsmall⟩

end Strings

/-- A write of regions to a string stream, with all bytes that have been written to it. -/
inductive Prints (env : Env) : File × List Byte → File × List Byte → Prop
  | print (s : File) (given : List Byte) (iov : List (List Byte)) (r : Bool × File)
      (small : (given ++ iov.flatten).length < 2 ^ 31) (h : SfvWrite env s iov (.ok r)) :
      Prints env (s, given) (r.2, given ++ iov.flatten)

theorem prints_inv {env : Env} {alc : Bool} {size : ℕ} {t : File × List Byte}
    (h : Relation.ReflTransGen (Prints env) (stringStream alc size, []) t) :
    StringInv size t.2 t.1 ∧ t.1.buf.length ≤ t.2.length ∧ t.1.alc = alc ∧
      (t.1.err = true → ∃ m, env.realloc m = false) := by
  induction h with
  | refl =>
    refine ⟨⟨rfl, rfl, rfl, Nat.zero_le _, ?_, fun _ => ?_, by rintro ⟨⟩, fun _ => rfl⟩, le_rfl, rfl, ?_⟩
    · simp [stringStream, swsetup]
    · simp [stringStream, swsetup]
    · rintro ⟨⟩
  | tail _ hstep ih =>
    cases hstep with
    | print s given iov r small hr =>
      obtain ⟨hinv, hshort, halc, memory⟩ := ih
      obtain ⟨r', hr', hends⟩ := sfvWrite_string env hinv hshort iov small
      obtain rfl : r' = r := Except.ok.inj (hr'.unique hr)
      refine ⟨hends.inv, hends.short, hends.alc.trans halc, fun herr => ?_⟩
      rw [hends.err, Bool.or_eq_true] at herr
      exact herr.elim hends.memory memory

/-- `abc` in a buffer for two bytes and the terminator. -/
def cutShort : File := { stringStream false 2 with buf := [97, 98], w := 0 }

theorem cutShort_prints : Relation.ReflTransGen (Prints ⟨fun _ _ => 0, fun _ => false⟩) (stringStream false 2, [])
    (cutShort, [97, 98, 99]) := by
  have h : SfvWrite ⟨fun _ _ => 0, fun _ => false⟩ (stringStream false 2) [[97], [98, 99]] (.ok (false, cutShort)) :=
    ⟨2, by decide⟩
  exact .tail .refl (.print _ [] [[97], [98, 99]] _ (by decide) h)

/-- `abc` in an allocated buffer. -/
def allocated : File := { stringStream true 2 with buf := [97, 98, 99], size := 5, w := 2 }

theorem allocated_prints : Relation.ReflTransGen (Prints ⟨fun _ _ => 0, fun _ => true⟩) (stringStream true 2, [])
    (allocated, [97, 98, 99]) := by
  have h : SfvWrite ⟨fun _ _ => 0, fun _ => true⟩ (stringStream true 2) [[97], [98, 99]] (.ok (false, allocated)) :=
    ⟨2, by decide⟩
  exact .tail .refl (.print _ [] [[97], [98, 99]] _ (by decide) h)

/-- What is printed to a string with a fixed buffer is the beginning of all bytes that have been printed, as many as fit in,
and there is no error; an allocated string has all of them as long as there has been memory, and there is no error if
there always is.  The next write returns. -/
theorem string_output (env : Env) (alc : Bool) (size : ℕ) (s : File) (given : List Byte)
    (h : Relation.ReflTransGen (Prints env) (stringStream alc size, []) (s, given)) :
    (alc = false → s.err = false ∧ s.buf = given.take size) ∧ (alc = true → s.err = false → s.buf = given) ∧
      (alc = true → (∀ n, env.realloc n = true) → s.err = false ∧ s.buf = given) ∧ s.buf.length ≤ s.size ∧
      ∀ iov : List (List Byte), (given ++ iov.flatten).length < 2 ^ 31 → ∃ r, SfvWrite env s iov (.ok r) := by
  obtain ⟨hinv, hshort, halc, memory⟩ := prints_inv h
  have all (ha : alc = true) (he : s.err = false) : s.buf = given := by
    have hbuf := hinv.buf he
    rw [halc.trans ha] at hbuf
    exact hbuf
  refine ⟨fun ha => ?_, all, fun ha always => ?_, hinv.room, fun iov small => ?_⟩
  · have hs : s.alc = false := halc.trans ha
    have herr : s.err = false := by
      by_contra herr
      exact absurd (hinv.failed (by simpa using herr)) (by rw [hs]; decide)
    have hbuf := hinv.buf herr
    rw [hs, hinv.fixed hs] at hbuf
    exact ⟨herr, hbuf⟩
  · have herr : s.err = false := by
      by_contra herr
      obtain ⟨n, none⟩ := memory (by simpa using herr)
      exact absurd (always n) (by rw [none]; decide)
    exact ⟨herr, all ha herr⟩
  · obtain ⟨r, hr, -⟩ := sfvWrite_string env hinv hshort iov small
    exact ⟨r, hr⟩

theorem string_output_abc :
    (cutShort.err = false ∧ cutShort.buf = [97, 98, 99].take 2) ∧ allocated.err = false ∧ allocated.buf = [97, 98, 99] :=
  ⟨(string_output ⟨fun _ _ => 0, fun _ => false⟩ false 2 cutShort [97, 98, 99] cutShort_prints).1 rfl,
    (string_output ⟨fun _ _ => 0, fun _ => true⟩ true 2 allocated [97, 98, 99] allocated_prints).2.2.1 rfl fun _ => rfl⟩

end Bionic.Fvwrite
