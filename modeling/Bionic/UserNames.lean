import Mathlib.Data.BitVec
import Mathlib.Data.List.Nodup

/-! # User and group names (`libc/bionic/stubs.c`)

Android has no `/etc/passwd`: the names of the fixed users stand in the table `android_ids`, and every other id from
`AID_APP` on has a name of the form `app_<n>`, made up in a buffer of the calling thread.  Going from an id to its name
and back gives the same id, but for `AID_APP` itself: its name is `app_0`, and `app_id_from_name` takes the 0 that
`strtoul` returns there for an error (`roundTrips_iff`).

* **Outside.**  The table and `AID_APP` come from `android_filesystem_config.h` (`Platform`).
* **Memory.**  A name is a literal of the table or one of the two buffers, whose text changes from call to call. -/

namespace Bionic.UserNames

/-- A C string, without its final NUL. -/
abbrev CStr := List Char

/-- `unsigned`, `unsigned long`, `uid_t` and `gid_t`. -/
abbrev Word := BitVec 32

/-! ### Data -/

/-- `struct android_id_info`. -/
structure IdInfo where
  name : CStr
  aid : Word
deriving DecidableEq, Repr

/-- What `android_filesystem_config.h` defines. -/
structure Platform where
  androidIds : List IdInfo
  AID_APP : Word

/-- Where a name points to. -/
inductive NamePtr where
  | literal (name : CStr)
  | appNameBuffer
  | groupNameBuffer
deriving DecidableEq, Repr

structure Passwd where
  pwName : NamePtr
  pwUid : Word
  pwGid : Word
  pwDir : CStr
  pwShell : CStr
deriving DecidableEq, Repr

/-- `struct group`; `gr_mem` ends in a null pointer. -/
structure Group where
  grName : NamePtr
  grGid : Word
  grMem : List NamePtr
deriving DecidableEq, Repr

/-- `stubs_state_t`. -/
structure StubsState where
  passwd : Passwd
  group : Group
  appNameBuffer : CStr
  groupNameBuffer : CStr
deriving DecidableEq, Repr

/-- After `calloc`. -/
def StubsState.zeroed : StubsState := ⟨⟨.literal [], 0, 0, [], []⟩, ⟨.literal [], 0, []⟩, [], []⟩

def ENOENT : ℕ := 2

def ENOMEM : ℕ := 12

def ERANGE : ℕ := 34

/-- The value of the thread for `the_key`, and its `errno`. -/
structure Thread where
  stubs : Option StubsState
  errno : ℕ
deriving DecidableEq, Repr

/-- Whether `calloc` and `pthread_setspecific` succeed. -/
structure Alloc where
  calloc : Bool
  setspecific : Bool
deriving DecidableEq, Repr

/-- The text at a pointer to a name. -/
def Thread.text (t : Thread) : NamePtr → CStr
  | .literal name => name
  | .appNameBuffer => (t.stubs.map StubsState.appNameBuffer).getD []
  | .groupNameBuffer => (t.stubs.map StubsState.groupNameBuffer).getD []

/-- `__stubs_state`. -/
def stubsState (a : Alloc) : StateM Thread (Option StubsState) := fun t =>
  match t.stubs with
  | some s => (some s, t)
  | none =>
      if a.calloc ∧ a.setspecific then (some .zeroed, { t with stubs := some .zeroed })
      else (none, { t with errno := ENOMEM })

/-- Write to the state of the thread. -/
def store (s : StubsState) : StateM Thread Unit := modify fun t => { t with stubs := some s }

def setErrno (e : ℕ) : StateM Thread Unit := modify fun t => { t with errno := e }

/-! ### `strtoul` (`libc/stdlib/strtoul.c`) -/

def ULONG_MAX : ℕ := 2 ^ 32 - 1

def isspace (c : Char) : Bool := c ∈ [' ', '\t', '\n', '\x0b', '\x0c', '\r']

/-- The value of a digit or a letter. -/
def digitValue (c : Char) : Option ℕ :=
  if c.isDigit then some (c.toNat - '0'.toNat)
  else if c.isAlpha then some (if c.isUpper then c.toNat - ('A'.toNat - 10) else c.toNat - ('a'.toNat - 10))
  else none

/-- The variable `any`: no digit yet, digits, or too many of them. -/
inductive Any where
  | none
  | digits
  | overflow
deriving DecidableEq, Repr

/-- The loop of `strtoul`: the values of `acc` and `any` behind it, and where it stops. -/
def accumulate (base : ℕ) : CStr → ℕ → Any → ℕ × Any × CStr
  | [], acc, any => (acc, any, [])
  | c :: s, acc, any =>
      match digitValue c with
      | none => (acc, any, c :: s)
      | some d =>
          if base ≤ d then (acc, any, c :: s)
          else if any = .overflow then accumulate base s acc any
          else if acc > ULONG_MAX / base ∨ acc = ULONG_MAX / base ∧ d > ULONG_MAX % base then
            accumulate base s ULONG_MAX .overflow
          else accumulate base s (acc * base + d) .digits

structure Converted where
  value : Word
  endptr : CStr
  /-- `errno` is set to `ERANGE`. -/
  range : Bool

def strtoul (nptr : CStr) (base : ℕ) : Converted :=
  let s := nptr.dropWhile isspace
  let neg := s.head? = some '-'
  let s := if s.head? = some '-' ∨ s.head? = some '+' then s.tail else s
  let hex := (base = 0 ∨ base = 16) ∧ s.head? = some '0' ∧ (s[1]? = some 'x' ∨ s[1]? = some 'X')
  let base := if hex then 16 else if base = 0 then if s.head? = some '0' then 8 else 10 else base
  let s := if hex then s.drop 2 else s
  match accumulate base s 0 .none with
  | (acc, any, rest) =>
      ⟨if neg ∧ any = .digits then -BitVec.ofNat 32 acc else BitVec.ofNat 32 acc,
        if any = .none then nptr else rest, any = .overflow⟩

/-! ### The table -/

/-- What the functions for users and those for groups differ in. -/
structure Record (ρ : Type) where
  nameOf : ρ → NamePtr
  idOf : ρ → Word
  /-- `android_iinfo_to_passwd` or `android_iinfo_to_group`. -/
  ofInfo : IdInfo → ρ
  /-- The record of an application. -/
  ofApp : Word → ρ
  buffer : NamePtr
  setBuffer : StubsState → CStr → StubsState
  put : StubsState → ρ → StubsState
  name_ofInfo : ∀ i, nameOf (ofInfo i) = .literal i.name
  id_ofInfo : ∀ i, idOf (ofInfo i) = i.aid
  name_ofApp : ∀ id, nameOf (ofApp id) = buffer
  id_ofApp : ∀ id, idOf (ofApp id) = id
  text_buffer : ∀ (t : Thread) s name r, t.stubs = some (put (setBuffer s name) r) → t.text buffer = name

/-- `android_iinfo_to_passwd`. -/
def androidIinfoToPasswd (iinfo : IdInfo) : Passwd :=
  ⟨.literal iinfo.name, iinfo.aid, iinfo.aid, "/".toList, "/system/bin/sh".toList⟩

/-- `android_iinfo_to_group`. -/
def androidIinfoToGroup (iinfo : IdInfo) : Group := ⟨.literal iinfo.name, iinfo.aid, [.literal iinfo.name]⟩

def users : Record Passwd where
  nameOf := Passwd.pwName
  idOf := Passwd.pwUid
  ofInfo := androidIinfoToPasswd
  ofApp uid := ⟨.appNameBuffer, uid, uid, "/data".toList, "/system/bin/sh".toList⟩
  buffer := .appNameBuffer
  setBuffer s name := { s with appNameBuffer := name }
  put s pw := { s with passwd := pw }
  name_ofInfo _ := rfl
  id_ofInfo _ := rfl
  name_ofApp _ := rfl
  id_ofApp _ := rfl
  text_buffer t s name r h := by rw [Thread.text, h]; rfl

def groups : Record Group where
  nameOf := Group.grName
  idOf := Group.grGid
  ofInfo := androidIinfoToGroup
  ofApp gid := ⟨.groupNameBuffer, gid, [.groupNameBuffer]⟩
  buffer := .groupNameBuffer
  setBuffer s name := { s with groupNameBuffer := name }
  put s gr := { s with group := gr }
  name_ofInfo _ := rfl
  id_ofInfo _ := rfl
  name_ofApp _ := rfl
  id_ofApp _ := rfl
  text_buffer t s name r h := by rw [Thread.text, h]; rfl

section Table

variable {ρ : Type} (R : Record ρ) (P : Platform)

/-- The loop of `android_id_to_passwd` and of `android_id_to_group`. -/
def findId (id : Word) : Option IdInfo := P.androidIds.find? fun iinfo => iinfo.aid = id

/-- The loop of `android_name_to_passwd` and of `android_name_to_group`. -/
def findName (name : CStr) : Option IdInfo := P.androidIds.find? fun iinfo => iinfo.name = name

/-! ### The names of applications -/

/-- `snprintf(buffer, 32, "app_%u", n)`. -/
def appName (n : Word) : CStr := ("app_".toList ++ Nat.toDigits 10 n.toNat).take 31

/-- `app_id_from_name`; its result 0 stands for an error. -/
def appIdFromName (name : CStr) : StateM Thread Word := do
  if ¬ "app_".toList <+: name ∨ ¬ name[4]?.any Char.isDigit then
    setErrno ENOENT
    return 0
  else
    let r := strtoul (name.drop 4) 10
    if r.range then setErrno ERANGE
    if r.value = 0 ∨ r.endptr ≠ [] then
      setErrno ENOENT
      return 0
    else
      let id := r.value + P.AID_APP
      -- the second test of the source, `(unsigned)id != id`, is about targets with a wider `unsigned long`
      if id < P.AID_APP then
        setErrno ENOENT
        return 0
      else return id

/-- `app_id_to_passwd` and `app_id_to_group`. -/
def appIdTo (id : Word) (s : StubsState) : StateM Thread (Option ρ) := do
  if id < P.AID_APP then
    setErrno ENOENT
    return none
  else
    store (R.put (R.setBuffer s (appName (id - P.AID_APP))) (R.ofApp id))
    return some (R.ofApp id)

/-! ### The interface -/

/-- The common body of `getpwuid` and `getgrgid`. -/
def byId (a : Alloc) (id : Word) : StateM Thread (Option ρ) := do
  match ← stubsState a with
  | none => return none
  | some s =>
      match findId P id with
      | some iinfo =>
          store (R.put s (R.ofInfo iinfo))
          return some (R.ofInfo iinfo)
      | none => appIdTo R P id s

/-- The common body of `getpwnam` and `getgrnam`. -/
def byName (a : Alloc) (name : CStr) : StateM Thread (Option ρ) := do
  match ← stubsState a with
  | none => return none
  | some s =>
      match findName P name with
      | some iinfo =>
          store (R.put s (R.ofInfo iinfo))
          return some (R.ofInfo iinfo)
      | none => appIdTo R P (← appIdFromName P name) s

def getpwuid (a : Alloc) (uid : Word) : StateM Thread (Option Passwd) := byId users P a uid

def getpwnam (a : Alloc) (login : CStr) : StateM Thread (Option Passwd) := byName users P a login

def getgrgid (a : Alloc) (gid : Word) : StateM Thread (Option Group) := byId groups P a gid

def getgrnam (a : Alloc) (name : CStr) : StateM Thread (Option Group) := byName groups P a name

end Table

/-! ### Numbers and names -/

section Numbers

variable {c : Char} {s : CStr} {n : ℕ}

theorem isDigit_iff : c.isDigit = true ↔ 48 ≤ c.toNat ∧ c.toNat ≤ 57 := by
  rw [Char.isDigit, Bool.and_eq_true, decide_eq_true_eq, decide_eq_true_eq]
  exact Iff.rfl

theorem digitValue_of_isDigit (h : c.isDigit = true) : digitValue c = some (c.toNat - 48) ∧ c.toNat - 48 < 10 := by
  have hc := isDigit_iff.1 h
  refine ⟨?_, by omega⟩
  rw [digitValue, if_pos h]
  rfl

theorem le_ofDigitChars (s : CStr) (acc : ℕ) : acc ≤ Nat.ofDigitChars 10 s acc := by
  induction s generalizing acc with
  | nil => simp
  | cons c s ih =>
      rw [Nat.ofDigitChars_cons]
      have h := ih (10 * acc + (c.toNat - '0'.toNat))
      omega

/-- The loop of `strtoul` on a number that fits. -/
theorem accumulate_digits (hd : ∀ c ∈ s, c.isDigit = true) (acc : ℕ) {a : Any} (ha : a ≠ .overflow)
    (hfit : Nat.ofDigitChars 10 s acc ≤ ULONG_MAX) :
    accumulate 10 s acc a = (Nat.ofDigitChars 10 s acc, if s = [] then a else .digits, []) := by
  induction s generalizing acc a with
  | nil => simp [accumulate]
  | cons c s ih =>
      obtain ⟨hv, hlt⟩ := digitValue_of_isDigit (hd c List.mem_cons_self)
      rw [Nat.ofDigitChars_cons] at hfit
      have hstep : 10 * acc + (c.toNat - '0'.toNat) = acc * 10 + (c.toNat - 48) := by
        have h0 : '0'.toNat = 48 := rfl
        omega
      have hle := le_ofDigitChars s (10 * acc + (c.toNat - '0'.toNat))
      have hguard : ¬ (acc > ULONG_MAX / 10 ∨ acc = ULONG_MAX / 10 ∧ c.toNat - 48 > ULONG_MAX % 10) := by
        unfold ULONG_MAX at *
        omega
      have hnext := ih (fun x hx => hd x (List.mem_cons_of_mem _ hx)) (10 * acc + (c.toNat - '0'.toNat))
        (a := .digits) (by decide) hfit
      simp only [accumulate, hv, if_neg (Nat.not_le.2 hlt), if_neg ha, if_neg hguard, ← hstep, hnext,
        Nat.ofDigitChars_cons, ite_self, if_neg (List.cons_ne_nil c s)]

theorem toDigits_isDigit (n : ℕ) : ∀ c ∈ Nat.toDigits 10 n, c.isDigit = true :=
  fun _ hc => Nat.isDigit_of_mem_toDigits (by omega) (by omega) hc

theorem head_toDigits (n : ℕ) : ∃ c s, Nat.toDigits 10 n = c :: s ∧ c.isDigit = true := by
  cases h : Nat.toDigits 10 n with
  | nil => exact absurd h Nat.toDigits_ne_nil
  | cons c s => exact ⟨c, s, rfl, toDigits_isDigit n c (by simp [h])⟩

theorem not_isspace (h : c.isDigit = true) : isspace c = false := by
  have hc := isDigit_iff.1 h
  rw [isspace, decide_eq_false_iff_not]
  intro hmem
  simp only [List.mem_cons, List.not_mem_nil, or_false] at hmem
  rcases hmem with rfl | rfl | rfl | rfl | rfl | rfl <;> simp at hc

theorem not_sign (h : c.isDigit = true) : c ≠ '-' ∧ c ≠ '+' := by
  have hc := isDigit_iff.1 h
  constructor
  · rintro rfl
    simp at hc
  · rintro rfl
    simp at hc

/-- `strtoul` reads back what `%u` prints. -/
theorem strtoul_toDigits (n : Word) : strtoul (Nat.toDigits 10 n.toNat) 10 = ⟨n, [], false⟩ := by
  obtain ⟨c, s, hcs, hc⟩ := head_toDigits n.toNat
  obtain ⟨hminus, hplus⟩ := not_sign hc
  have hfit : Nat.ofDigitChars 10 (c :: s) 0 ≤ ULONG_MAX := by
    have hn := n.isLt
    rw [← hcs, Nat.ofDigitChars_ten_toDigits]
    unfold ULONG_MAX
    omega
  have hrun := accumulate_digits (fun x hx => toDigits_isDigit n.toNat x (hcs ▸ hx)) 0 (a := .none) (by decide) hfit
  rw [if_neg (List.cons_ne_nil c s), ← hcs, Nat.ofDigitChars_ten_toDigits, hcs] at hrun
  have hspace := not_isspace hc
  simp [strtoul, hcs, hspace, hminus, hplus, hrun]

/-- The buffer is large enough for the name. -/
theorem appName_eq (n : Word) : appName n = "app_".toList ++ Nat.toDigits 10 n.toNat := by
  have hlen : (Nat.toDigits 10 n.toNat).length ≤ 10 := by
    have hn := n.isLt
    rw [Nat.length_toDigits_le_iff (by omega) (by omega)]
    omega
  apply List.take_of_length_le
  rw [List.length_append]
  have h4 : "app_".toList.length = 4 := rfl
  omega

theorem prefix_appName (n : Word) : "app_".toList <+: appName n := by
  rw [appName_eq]
  exact List.prefix_append _ _

end Numbers

/-! ### Round trips -/

/-- What the table of ids is known to satisfy. -/
structure Platform.Documented (P : Platform) : Prop where
  aids : (P.androidIds.map IdInfo.aid).Nodup
  names : (P.androidIds.map IdInfo.name).Nodup
  notApp : ∀ i ∈ P.androidIds, ¬ "app_".toList <+: i.name
  positive : 0 < P.AID_APP
  apart : ∀ i ∈ P.androidIds, i.aid ≠ P.AID_APP

/-- Whatever the thread has done before, if the look-up of an id returns a record, then the look-up of its name returns
a record with the same id. -/
def RoundTrips {ρ : Type} (R : Record ρ) (P : Platform) (id : Word) : Prop :=
  ∀ t a a' r t', byId R P a id t = (some r, t') →
    ∃ r' t'', byName R P a' (t'.text (R.nameOf r)) t' = (some r', t'') ∧ R.idOf r' = id

/-- `getpwnam(getpwuid(uid)->pw_name)` is the user `uid`, if `getpwuid(uid)` is not null. -/
def UserRoundTrips (P : Platform) (uid : Word) : Prop :=
  ∀ t a a' pw t', getpwuid P a uid t = (some pw, t') →
    ∃ pw' t'', getpwnam P a' (t'.text pw.pwName) t' = (some pw', t'') ∧ pw'.pwUid = uid

/-- `getgrnam(getgrgid(gid)->gr_name)` is the group `gid`, if `getgrgid(gid)` is not null. -/
def GroupRoundTrips (P : Platform) (gid : Word) : Prop :=
  ∀ t a a' gr t', getgrgid P a gid t = (some gr, t') →
    ∃ gr' t'', getgrnam P a' (t'.text gr.grName) t' = (some gr', t'') ∧ gr'.grGid = gid

section RoundTrips

variable {ρ : Type} {R : Record ρ} {P : Platform} {id : Word} {t t' : Thread} {a : Alloc}

theorem findId_eq_some {i : IdInfo} (h : findId P id = some i) : i ∈ P.androidIds ∧ i.aid = id :=
  ⟨List.mem_of_find?_eq_some h, by simpa using List.find?_some h⟩

/-- The name of an entry leads back to the entry. -/
theorem findName_name (D : P.Documented) {i : IdInfo} (hi : i ∈ P.androidIds) : findName P i.name = some i := by
  cases hf : findName P i.name with
  | none => exact absurd (List.find?_eq_none.1 hf i hi) (by simp)
  | some j =>
      have hj : j ∈ P.androidIds := List.mem_of_find?_eq_some hf
      have hname : j.name = i.name := by simpa using List.find?_some hf
      rw [List.inj_on_of_nodup_map D.names hj hi hname]

/-- No entry has the name of an application. -/
theorem findName_appName (D : P.Documented) (n : Word) : findName P (appName n) = none := by
  refine List.find?_eq_none.2 fun i hi => ?_
  rw [decide_eq_true_iff]
  intro hname
  exact D.notApp i hi (hname ▸ prefix_appName n)

/-- `app_id_from_name` takes `app_0` for an error, and decodes all other names. -/
theorem appIdFromName_appName (hle : P.AID_APP ≤ id) : appIdFromName P (appName (id - P.AID_APP)) t =
    if id = P.AID_APP then (0, { t with errno := ENOENT }) else (id, t) := by
  obtain ⟨c, s, hcs, hc⟩ := head_toDigits (id - P.AID_APP).toNat
  have hfour : (appName (id - P.AID_APP))[4]? = some c := by
    rw [appName_eq, hcs]
    rfl
  have hdrop : (appName (id - P.AID_APP)).drop 4 = Nat.toDigits 10 (id - P.AID_APP).toNat := by
    rw [appName_eq]
    rfl
  have hsum : id - P.AID_APP + P.AID_APP = id := BitVec.sub_add_cancel id P.AID_APP
  have hlt : ¬ id < P.AID_APP := BitVec.not_lt.2 hle
  have hzero : id - P.AID_APP = 0#32 ↔ id = P.AID_APP := sub_eq_zero
  have hform : ¬ (¬ "app_".toList <+: appName (id - P.AID_APP) ∨
      ¬ (appName (id - P.AID_APP))[4]?.any Char.isDigit = true) :=
    not_or.2 ⟨not_not_intro (prefix_appName _), by simp [hfour, hc]⟩
  unfold appIdFromName
  rw [if_neg hform, hdrop, strtoul_toDigits]
  by_cases hid : id = P.AID_APP
  · rw [if_pos hid]
    simp [hzero.2 hid]
    rfl
  · rw [if_neg hid]
    simp [mt hzero.1 hid, hsum, hlt]
    rfl

theorem stubsState_some {s : StubsState} (h : t.stubs = some s) : stubsState a t = (some s, t) := by
  unfold stubsState
  rw [h]

theorem stubsState_cases (t : Thread) (a : Alloc) : stubsState a t = (none, { t with errno := ENOMEM }) ∨
    ∃ s, stubsState a t = (some s, { t with stubs := some s }) := by
  unfold stubsState
  cases hs : t.stubs with
  | some s =>
      refine Or.inr ⟨s, ?_⟩
      dsimp only
      rw [← hs]
  | none =>
      dsimp only
      split
      · exact Or.inr ⟨_, rfl⟩
      · exact Or.inl rfl

/-- What the look-up of an id returns: a record of the table, or one with a name that is made up in the buffer. -/
theorem byId_eq_some {r : ρ} (h : byId R P a id t = (some r, t')) : t'.stubs ≠ none ∧
    ((∃ i ∈ P.androidIds, i.aid = id ∧ R.nameOf r = .literal i.name) ∨
      (P.AID_APP ≤ id ∧ t'.text (R.nameOf r) = appName (id - P.AID_APP))) := by
  unfold byId at h
  obtain hs | ⟨s, hs⟩ := stubsState_cases t a
  · simp only [bind, StateT.bind, hs] at h
    cases h
  · simp only [bind, StateT.bind, hs] at h
    cases hf : findId P id with
    | some i =>
        rw [hf] at h
        cases h
        obtain ⟨hi, hid⟩ := findId_eq_some hf
        exact ⟨Option.some_ne_none _, Or.inl ⟨i, hi, hid, R.name_ofInfo i⟩⟩
    | none =>
        rw [hf] at h
        dsimp only at h
        unfold appIdTo at h
        split at h
        · cases h
        · next hlt =>
          cases h
          refine ⟨Option.some_ne_none _, Or.inr ⟨BitVec.not_lt.1 hlt, ?_⟩⟩
          rw [R.name_ofApp]
          exact R.text_buffer _ s _ _ rfl

/-- A name of the table. -/
theorem byName_literal (D : P.Documented) {i : IdInfo} (hi : i ∈ P.androidIds) (hs : t.stubs ≠ none) :
    ∃ t', byName R P a i.name t = (some (R.ofInfo i), t') := by
  obtain ⟨s, hs⟩ := Option.ne_none_iff_exists'.1 hs
  unfold byName
  simp only [bind, StateT.bind, stubsState_some hs, findName_name D hi]
  exact ⟨_, rfl⟩

/-- The name of an application. -/
theorem byName_appName (D : P.Documented) (hle : P.AID_APP ≤ id) (hs : t.stubs ≠ none) :
    ∃ t', byName R P a (appName (id - P.AID_APP)) t =
      (if id = P.AID_APP then none else some (R.ofApp id), t') := by
  obtain ⟨s, hs⟩ := Option.ne_none_iff_exists'.1 hs
  unfold byName
  simp only [bind, StateT.bind, stubsState_some hs, findName_appName D, appIdFromName_appName hle]
  by_cases hid : id = P.AID_APP
  · rw [if_pos hid, if_pos hid]
    unfold appIdTo
    rw [if_pos D.positive]
    exact ⟨_, rfl⟩
  · rw [if_neg hid, if_neg hid]
    unfold appIdTo
    rw [if_neg (BitVec.not_lt.2 hle)]
    exact ⟨_, rfl⟩

theorem roundTrips_of_ne (D : P.Documented) (hid : id ≠ P.AID_APP) : RoundTrips R P id := by
  intro t a a' r t' h
  obtain ⟨hs, ⟨i, hi, rfl, hname⟩ | ⟨hle, htext⟩⟩ := byId_eq_some h
  · obtain ⟨t'', hrun⟩ := byName_literal (R := R) (a := a') D hi hs
    rw [hname]
    exact ⟨_, t'', hrun, R.id_ofInfo i⟩
  · obtain ⟨t'', hrun⟩ := byName_appName (R := R) (a := a') D hle hs
    rw [if_neg hid] at hrun
    rw [htext]
    exact ⟨_, t'', hrun, R.id_ofApp id⟩

/-- `AID_APP` has the name `app_0`, which leads nowhere. -/
theorem not_roundTrips (D : P.Documented) : ¬ RoundTrips R P P.AID_APP := by
  intro h
  have hf : findId P P.AID_APP = none := by
    refine List.find?_eq_none.2 fun i hi => ?_
    simpa using D.apart i hi
  have hrun : ∃ t', byId R P ⟨true, true⟩ P.AID_APP ⟨none, 0⟩ = (some (R.ofApp P.AID_APP), t') := by
    unfold byId
    simp only [bind, StateT.bind, hf, appIdTo, if_neg (BitVec.lt_irrefl P.AID_APP)]
    exact ⟨_, rfl⟩
  obtain ⟨t', hrun⟩ := hrun
  obtain ⟨r', t'', hback, -⟩ := h ⟨none, 0⟩ ⟨true, true⟩ ⟨true, true⟩ _ t' hrun
  obtain ⟨hs, ⟨i, hi, hid, -⟩ | ⟨hle, htext⟩⟩ := byId_eq_some hrun
  · exact D.apart i hi hid
  · obtain ⟨t₃, hnone⟩ := byName_appName (R := R) (a := ⟨true, true⟩) D hle hs
    rw [htext, hnone, if_pos rfl] at hback
    cases hback

theorem roundTrips_ne_iff (D : P.Documented) : RoundTrips R P id ↔ id ≠ P.AID_APP := by
  constructor
  · rintro h rfl
    exact not_roundTrips D h
  · exact roundTrips_of_ne D

end RoundTrips

/-- Going from an id to its name and back gives the same id for all users and groups but `AID_APP`. -/
theorem roundTrips_iff {P : Platform} (D : P.Documented) (id : Word) :
    (UserRoundTrips P id ↔ id ≠ P.AID_APP) ∧ (GroupRoundTrips P id ↔ id ≠ P.AID_APP) :=
  ⟨roundTrips_ne_iff (R := users) D, roundTrips_ne_iff (R := groups) D⟩

/-- Two fixed users, and the applications from 10000 on. -/
def rootAndSystem : Platform := ⟨[⟨"root".toList, 0⟩, ⟨"system".toList, 1000⟩], 10000⟩

theorem documented_rootAndSystem : rootAndSystem.Documented where
  aids := by decide
  names := by decide
  notApp := by decide
  positive := by decide
  apart := by decide

theorem roundTrips_rootAndSystem : UserRoundTrips rootAndSystem 10001 ∧ GroupRoundTrips rootAndSystem 1000 :=
  ⟨(roundTrips_iff documented_rootAndSystem 10001).1.2 (by decide),
    (roundTrips_iff documented_rootAndSystem 1000).2.2 (by decide)⟩

/-- The user 10000 has the name `app_0`, which `getpwnam` does not know. -/
theorem not_roundTrips_app_0 : rootAndSystem.Documented ∧
    (∃ pw t, getpwuid rootAndSystem ⟨true, true⟩ 10000 ⟨none, 0⟩ = (some pw, t) ∧
      t.text pw.pwName = "app_0".toList ∧
      (getpwnam rootAndSystem ⟨true, true⟩ (t.text pw.pwName) t).1 = none) ∧
    ¬ ∀ P : Platform, P.Documented → ∀ id, UserRoundTrips P id ∧ GroupRoundTrips P id := by
  refine ⟨documented_rootAndSystem, ⟨_, _, rfl, by decide, by decide⟩, fun h => ?_⟩
  exact not_roundTrips documented_rootAndSystem (h rootAndSystem documented_rootAndSystem 10000).1

end Bionic.UserNames
