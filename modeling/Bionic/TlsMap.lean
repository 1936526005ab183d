import Bionic.WordBits
import Bionic.Threads

/-! # Thread-specific data (`libc/bionic/pthread.c`)

The keys are the bits of a bitmap that all threads share, and each thread has an array of slots.
`pthread_key_create`, `pthread_key_delete` and `pthread_setspecific` hold the lock of the map from their first to
their last access, so each of them is one step; `pthread_getspecific` reads a slot of its own thread.  A new thread is
listed by `pthread_create` and clears its slots later, one by one, in `__init_tls`; what it finds in them is arbitrary.
Slots 0 and 1 hold addresses that nothing here reads, and are left out.

Threads do not exit here; a thread that does is the subject of `ThreadJoin`, `ThreadReclaim` and `ThreadKeys`. -/

namespace Bionic.TlsMap

open Threads (Desc initThread mainThread)

abbrev Word := BitVec 32

variable {T : Type}

/-! ### The map -/

def BIONIC_TLS_SLOTS : ℕ := 64
def TLS_SLOT_ERRNO : ℕ := 2
def TLS_SLOT_MAX_WELL_KNOWN : ℕ := TLS_SLOT_ERRNO
def TLS_DEFAULT_ALLOC_MAP : Word := 0x0000001F
def TLSMAP_START : ℕ := TLS_SLOT_MAX_WELL_KNOWN + 1
def TLSMAP_SIZE : ℕ := BIONIC_TLS_SLOTS
def TLSMAP_BITS : ℕ := 32

/-- `tlsmap_t`; a destructor is an address. -/
structure Map where
  init : Bool
  map : ℕ → Word
  dtors : ℕ → Word

namespace Map

variable (m : Map)

/-- `TLSMAP_WORD(m,k)`. -/
def word (k : ℕ) : Word := m.map (k / TLSMAP_BITS)

/-- `TLSMAP_WORD(m,k) = w`. -/
def setWord (k : ℕ) (w : Word) : Map := { m with map := Function.update m.map (k / TLSMAP_BITS) w }

end Map

/-- `TLSMAP_MASK(k)`. -/
def TLSMAP_MASK (k : ℕ) : Word := 1#32 <<< (k &&& (TLSMAP_BITS - 1))

/-- What `tlsmap_lock` does to the map. -/
def tlsmapLock (m : Map) : Map :=
  if m.init then m else { m.setWord 0 TLS_DEFAULT_ALLOC_MAP with init := true }

def tlsmapTest (m : Map) (key : ℕ) : Bool := m.word key &&& TLSMAP_MASK key ≠ 0#32

def tlsmapSet (m : Map) (key : ℕ) (dtor : Word) : Map :=
  { m.setWord key (m.word key ||| TLSMAP_MASK key) with dtors := Function.update m.dtors key dtor }

def tlsmapClear (m : Map) (key : ℕ) : Map :=
  { m.setWord key (m.word key &&& ~~~TLSMAP_MASK key) with dtors := Function.update m.dtors key 0 }

/-- The loop of `tlsmap_alloc`, from the key `key`, with `left` keys to go. -/
def tlsmapAllocFrom (m : Map) (dtor : Word) (key : ℕ) : ℕ → Option (ℕ × Map)
  | 0 => none
  | left + 1 =>
      if tlsmapTest m key then tlsmapAllocFrom m dtor (key + 1) left
      else some (key, tlsmapSet m key dtor)

def tlsmapAlloc (m : Map) (dtor : Word) : Option (ℕ × Map) :=
  tlsmapAllocFrom m dtor TLSMAP_START (TLSMAP_SIZE - TLSMAP_START)

/-- `TLSMAP_VALIDATE_KEY(key)`. -/
def validateKey (key : ℤ) : Bool := TLSMAP_START ≤ key && key < TLSMAP_SIZE

/-! ### The bits -/

theorem mask_index (k : ℕ) : k &&& (TLSMAP_BITS - 1) = k % 32 := Nat.and_two_pow_sub_one_eq_mod k 5

theorem tlsmapTest_iff (m : Map) (k : ℕ) : tlsmapTest m k = true ↔ (m.word k).getLsbD (k % 32) = true := by
  unfold tlsmapTest TLSMAP_MASK
  rw [decide_eq_true_iff, mask_index]
  exact WordBits.and_bit_ne_zero _ (Nat.mod_lt k (by decide))

theorem word_setWord (m : Map) (k j : ℕ) (w : Word) :
    (m.setWord k w).word j = if j / 32 = k / 32 then w else m.word j := by
  show Function.update m.map (k / TLSMAP_BITS) w (j / TLSMAP_BITS) = _
  rw [Function.update_apply]
  rfl

theorem tlsmapTest_set (m : Map) (k j : ℕ) (dtor : Word) :
    tlsmapTest (tlsmapSet m k dtor) j = true ↔ j = k ∨ tlsmapTest m j = true := by
  rw [tlsmapTest_iff, tlsmapTest_iff]
  have e : (tlsmapSet m k dtor).word j = if j / 32 = k / 32 then m.word k ||| TLSMAP_MASK k else m.word j :=
    word_setWord m k j _
  rw [e]
  split
  next same =>
    have hw : m.word k = m.word j := congrArg m.map same.symm
    rw [TLSMAP_MASK, mask_index, WordBits.getLsbD_or_bit _ (Nat.mod_lt k (by decide)), Bool.or_eq_true,
      decide_eq_true_iff, hw]
    have index : k % 32 = j % 32 ↔ j = k := by omega
    rw [index, or_comm]
  next other =>
    have hne : j ≠ k := fun e => other (e ▸ rfl)
    simp [hne]

theorem tlsmapTest_clear (m : Map) (k j : ℕ) :
    tlsmapTest (tlsmapClear m k) j = true ↔ j ≠ k ∧ tlsmapTest m j = true := by
  rw [tlsmapTest_iff, tlsmapTest_iff]
  have e : (tlsmapClear m k).word j = if j / 32 = k / 32 then m.word k &&& ~~~TLSMAP_MASK k else m.word j :=
    word_setWord m k j _
  rw [e]
  split
  next same =>
    have hw : m.word k = m.word j := congrArg m.map same.symm
    rw [TLSMAP_MASK, mask_index,
      WordBits.getLsbD_and_not_bit _ (Nat.mod_lt k (by decide)) (Nat.mod_lt j (by decide)), Bool.and_eq_true, hw]
    have index : k % 32 = j % 32 ↔ j = k := by omega
    simp [index, and_comm]
  next other =>
    have hne : j ≠ k := fun e => other (e ▸ rfl)
    simp [hne]

/-- The first free key. -/
theorem tlsmapAllocFrom_some {m m' : Map} {dtor : Word} {key left k : ℕ}
    (h : tlsmapAllocFrom m dtor key left = some (k, m')) :
    key ≤ k ∧ k < key + left ∧ tlsmapTest m k = false ∧ m' = tlsmapSet m k dtor := by
  induction left generalizing key with
  | zero => cases h
  | succ left ih =>
      unfold tlsmapAllocFrom at h
      split at h
      next =>
        obtain ⟨ge, lt, free, e⟩ := ih h
        exact ⟨by omega, by omega, free, e⟩
      next free =>
        cases h
        exact ⟨Nat.le_refl k, by omega, Bool.not_eq_true _ ▸ free, rfl⟩

/-! ### The functions -/

inductive Pc
  | fresh
  /-- Listed, and before `__init_tls`. -/
  | starting
  /-- In the loop of `__init_tls`, at the slot `nn`. -/
  | init (nn : ℕ)
  | running
deriving DecidableEq, Repr

structure Sys (T : Type) where
  tlsmap : Map
  /-- `gThreadList`. -/
  list : List T
  desc : T → Desc
  slots : T → ℕ → Word
  pc : T → Pc
  /-- The keys that are allocated: those of `TLS_DEFAULT_ALLOC_MAP` and those that `pthread_key_create` has returned,
  as far as no `pthread_key_delete` has deleted them. -/
  keys : List ℕ

inductive Ret
  | ok
  | EINVAL
deriving DecidableEq, Repr

section

variable [DecidableEq T] (s : Sys T)

/-- `none` stands for `ENOMEM`. -/
def pthreadKeyCreate (dtor : Word) : Option ℕ × Sys T :=
  let m := tlsmapLock s.tlsmap
  match tlsmapAlloc m dtor with
  | some (k, m') => (some k, { s with tlsmap := m', keys := k :: s.keys })
  | none => (none, { s with tlsmap := m })

/-- One round of the loop of `pthread_key_delete`. -/
def clearIn (key : ℕ) (slots : T → ℕ → Word) (thr : T) : T → ℕ → Word :=
  if (s.desc thr).joinCount < 0 ∨ (s.desc thr).tls = false then slots
  else Function.update slots thr (Function.update (slots thr) key 0)

def pthreadKeyDelete (key : ℤ) : Ret × Sys T :=
  if validateKey key then
    let m := tlsmapLock s.tlsmap
    if tlsmapTest m key.toNat then
      (.ok, { s with
        tlsmap := tlsmapClear m key.toNat
        slots := s.list.foldl (clearIn s key.toNat) s.slots
        keys := s.keys.erase key.toNat })
    else (.EINVAL, { s with tlsmap := m })
  else (.EINVAL, s)

def pthreadSetspecific (t : T) (key : ℤ) (ptr : Word) : Ret × Sys T :=
  if validateKey key then
    let m := tlsmapLock s.tlsmap
    if tlsmapTest m key.toNat then
      (.ok, { s with
        tlsmap := m
        slots := Function.update s.slots t (Function.update (s.slots t) key.toNat ptr) })
    else (.EINVAL, { s with tlsmap := m })
  else (.EINVAL, s)

omit [DecidableEq T] in
def pthreadGetspecific (t : T) (key : ℤ) : Word :=
  if validateKey key then s.slots t key.toNat else 0

/-- `pthread_create` of the thread `u`, whose TLS area has the contents `area`. -/
def pthreadCreate (u : T) (detached userStack : Bool) (area : ℕ → Word) : Sys T :=
  { s with
    list := u :: s.list
    desc := Function.update s.desc u (initThread detached userStack)
    slots := Function.update s.slots u area
    pc := Function.update s.pc u .starting }

/-- One step of `__init_tls` in the new thread `t`. -/
def initTls (t : T) : Option (Sys T) :=
  match s.pc t with
  | .starting =>
      some { s with
        desc := Function.update s.desc t { s.desc t with tls := true }
        pc := Function.update s.pc t (.init TLS_SLOT_ERRNO) }
  | .init nn =>
      if nn < BIONIC_TLS_SLOTS then
        some { s with
          slots := Function.update s.slots t (Function.update (s.slots t) nn 0)
          pc := Function.update s.pc t (.init (nn + 1)) }
      else some { s with pc := Function.update s.pc t .running }
  | _ => none

end

/-- The calls, made by running threads, and the steps of new threads.  `pthread_getspecific` changes nothing. -/
inductive Step [DecidableEq T] (s : Sys T) : Sys T → Prop
  | keyCreate (t : T) (dtor : Word) (running : s.pc t = .running) : Step s (pthreadKeyCreate s dtor).2
  | keyDelete (t : T) (key : ℤ) (running : s.pc t = .running) : Step s (pthreadKeyDelete s key).2
  | setspecific (t : T) (key : ℤ) (ptr : Word) (running : s.pc t = .running) :
      Step s (pthreadSetspecific s t key ptr).2
  | create (t u : T) (detached userStack : Bool) (area : ℕ → Word) (running : s.pc t = .running)
      (fresh : s.pc u = .fresh) : Step s (pthreadCreate s u detached userStack area)
  | initTls (t : T) (s' : Sys T) (h : initTls s t = some s') : Step s s'

/-- After `__libc_init_common`; the map has not been used. -/
def start [DecidableEq T] (main : T) : Sys T where
  tlsmap := ⟨false, fun _ => 0, fun _ => 0⟩
  list := [main]
  desc := Function.update (fun _ => initThread false false) main mainThread
  slots := fun _ _ => 0
  pc := Function.update (fun _ => .fresh) main .running
  keys := [3, 4]

inductive Reach [DecidableEq T] (main : T) : Sys T → Prop
  | start : Reach main (start main)
  | step {s s' : Sys T} : Reach main s → Step s s' → Reach main s'

/-! ### The invariant -/

/-- The key is in the range of the keys. -/
def InRange (k : ℕ) : Prop := TLSMAP_START ≤ k ∧ k < TLSMAP_SIZE

theorem validateKey_iff (key : ℤ) : validateKey key = true ↔ InRange key.toNat := by
  unfold validateKey InRange
  rw [Bool.and_eq_true, decide_eq_true_iff, decide_eq_true_iff]
  have start : TLSMAP_START = 3 := rfl
  have size : TLSMAP_SIZE = 64 := rfl
  omega

/-- The map, and the keys it stands for. -/
structure Allocated (m : Map) (keys : List ℕ) : Prop where
  nodup : keys.Nodup
  range : ∀ k ∈ keys, InRange k
  bits : ∀ k, InRange k → (tlsmapTest (tlsmapLock m) k = true ↔ k ∈ keys)

/-- What is known of a thread. -/
structure ThreadOk (s : Sys T) (t : T) : Prop where
  listed : s.pc t ≠ .fresh → t ∈ s.list ∧ (s.desc t).joinCount = 0
  tls : s.pc t ≠ .fresh → s.pc t ≠ .starting → (s.desc t).tls = true
  /-- The slots that `__init_tls` has cleared. -/
  cleared : ∀ nn, s.pc t = .init nn → ∀ k, TLS_SLOT_ERRNO ≤ k → k < nn → s.slots t k = 0
  null : s.pc t = .running → ∀ k, InRange k → k ∉ s.keys → s.slots t k = 0

structure Inv (s : Sys T) : Prop where
  allocated : Allocated s.tlsmap s.keys
  thread : ∀ t, ThreadOk s t

theorem tlsmapLock_init (m : Map) : (tlsmapLock m).init = true := by
  unfold tlsmapLock
  split
  next h => exact h
  next => rfl

theorem tlsmapLock_of_init {m : Map} (h : m.init = true) : tlsmapLock m = m := by
  rw [tlsmapLock, if_pos h]

variable {m : Map} {keys : List ℕ}

theorem Allocated.lock (h : Allocated m keys) : Allocated (tlsmapLock m) keys := by
  refine ⟨h.nodup, h.range, ?_⟩
  rw [tlsmapLock_of_init (tlsmapLock_init m)]
  exact h.bits

theorem Allocated.set (h : Allocated m keys) (init : m.init = true) {k : ℕ} (hk : InRange k)
    (free : k ∉ keys) (dtor : Word) : Allocated (tlsmapSet m k dtor) (k :: keys) := by
  refine ⟨List.nodup_cons.2 ⟨free, h.nodup⟩, ?_, ?_⟩
  · intro j hj
    cases List.mem_cons.1 hj with
    | inl e => exact e ▸ hk
    | inr hj => exact h.range j hj
  · intro j hj
    have bits := h.bits j hj
    rw [tlsmapLock_of_init init] at bits
    rw [tlsmapLock_of_init (m := tlsmapSet m k dtor) init, tlsmapTest_set, bits, List.mem_cons]

theorem Allocated.clear (h : Allocated m keys) (init : m.init = true) (k : ℕ) :
    Allocated (tlsmapClear m k) (keys.erase k) := by
  refine ⟨h.nodup.erase k, fun j hj => h.range j (List.mem_of_mem_erase hj), ?_⟩
  intro j hj
  have bits := h.bits j hj
  rw [tlsmapLock_of_init init] at bits
  rw [tlsmapLock_of_init (m := tlsmapClear m k) init, tlsmapTest_clear, bits, h.nodup.mem_erase_iff]

/-! ### The loop of `pthread_key_delete` -/

variable [DecidableEq T] {s s' : Sys T} {main : T}

/-- The loop writes into the slots of the thread. -/
def Sys.Clearable (s : Sys T) (thr : T) : Prop := ¬ ((s.desc thr).joinCount < 0 ∨ (s.desc thr).tls = false)

theorem clearIn_other (s : Sys T) (key : ℕ) (slots : T → ℕ → Word) (thr u : T) (k : ℕ)
    (h : ¬ (k = key ∧ u = thr)) : clearIn s key slots thr u k = slots u k := by
  unfold clearIn
  split
  next => rfl
  next =>
    by_cases hu : u = thr
    · subst hu
      have hk : k ≠ key := fun e => h ⟨e, rfl⟩
      rw [Function.update_self, Function.update_of_ne hk]
    · rw [Function.update_of_ne hu]

theorem clearIn_self (s : Sys T) (key : ℕ) (slots : T → ℕ → Word) (thr : T) (h : s.Clearable thr) :
    clearIn s key slots thr thr key = 0 := by
  rw [clearIn, if_neg h, Function.update_self, Function.update_self]

/-- A slot that is NULL stays so. -/
theorem clearIn_null (s : Sys T) (key : ℕ) (slots : T → ℕ → Word) (thr u : T) (k : ℕ)
    (h : slots u k = 0) : clearIn s key slots thr u k = 0 := by
  by_cases same : k = key ∧ u = thr
  · obtain ⟨rfl, rfl⟩ := same
    by_cases hc : s.Clearable u
    · exact clearIn_self s k slots u hc
    · rw [clearIn, if_pos (not_not.1 hc)]
      exact h
  · rw [clearIn_other s key slots thr u k same]
    exact h

theorem foldl_clearIn_null (s : Sys T) (key : ℕ) (list : List T) (u : T) (k : ℕ) (slots : T → ℕ → Word)
    (h : slots u k = 0) : list.foldl (clearIn s key) slots u k = 0 := by
  induction list generalizing slots with
  | nil => exact h
  | cons thr list ih => exact ih _ (clearIn_null s key slots thr u k h)

/-- The slot of the key is NULL in every listed thread that the loop does not leave out. -/
theorem foldl_clearIn_self (s : Sys T) (key : ℕ) {list : List T} {u : T} (listed : u ∈ list)
    (h : s.Clearable u) (slots : T → ℕ → Word) : list.foldl (clearIn s key) slots u key = 0 := by
  induction list generalizing slots with
  | nil => cases listed
  | cons thr list ih =>
      rw [List.foldl_cons]
      cases List.mem_cons.1 listed with
      | inl e =>
          subst e
          exact foldl_clearIn_null s key list u key _ (clearIn_self s key slots u h)
      | inr listed => exact ih listed _

/-! ### Each step -/

omit [DecidableEq T] in
/-- What happens to the slots is no matter if those that are NULL stay so and those of keys deleted become so. -/
theorem ThreadOk.of_slots {t : T} (h : ThreadOk s t) (list : s'.list = s.list) (desc : s'.desc = s.desc)
    (pc : s'.pc = s.pc) (cleared : s.pc t ≠ .running → ∀ k, s.slots t k = 0 → s'.slots t k = 0)
    (null : s.pc t = .running → ∀ k, InRange k → k ∉ s'.keys → s'.slots t k = 0) : ThreadOk s' t where
  listed := by rw [pc, list, desc]; exact h.listed
  tls := by rw [pc, desc]; exact h.tls
  cleared := by
    rw [pc]
    intro nn ht k ge lt
    exact cleared (by simp [ht]) k (h.cleared nn ht k ge lt)
  null := by rw [pc]; exact null

omit [DecidableEq T] in
/-- The key that `tlsmap_alloc` finds. -/
theorem Inv.alloc (hi : Inv s) {dtor : Word} {k : ℕ} {m' : Map}
    (h : tlsmapAlloc (tlsmapLock s.tlsmap) dtor = some (k, m')) :
    InRange k ∧ k ∉ s.keys ∧ m' = tlsmapSet (tlsmapLock s.tlsmap) k dtor := by
  obtain ⟨ge, lt, free, e⟩ := tlsmapAllocFrom_some h
  have range : InRange k := ⟨ge, lt⟩
  refine ⟨range, ?_, e⟩
  rw [← hi.allocated.bits k range, free]
  exact Bool.false_ne_true

omit [DecidableEq T] in
theorem Inv.keyCreate (hi : Inv s) (dtor : Word) : Inv (pthreadKeyCreate s dtor).2 := by
  unfold pthreadKeyCreate
  dsimp only
  split
  next k m' e =>
    obtain ⟨range, unused, rfl⟩ := hi.alloc e
    refine ⟨hi.allocated.lock.set (tlsmapLock_init _) range unused dtor, fun t => ?_⟩
    refine (hi.thread t).of_slots rfl rfl rfl (fun _ _ => id) fun running j hj out => ?_
    exact (hi.thread t).null running j hj fun hm => out (List.mem_cons_of_mem k hm)
  next =>
    refine ⟨hi.allocated.lock, fun t => ?_⟩
    exact (hi.thread t).of_slots rfl rfl rfl (fun _ _ => id) (hi.thread t).null

theorem Inv.keyDelete (hi : Inv s) (key : ℤ) : Inv (pthreadKeyDelete s key).2 := by
  unfold pthreadKeyDelete
  split
  next valid =>
    dsimp only
    split
    next used =>
      refine ⟨hi.allocated.lock.clear (tlsmapLock_init _) _, fun t => ?_⟩
      refine (hi.thread t).of_slots rfl rfl rfl ?_ fun running k hk out => ?_
      · exact fun _ k h => foldl_clearIn_null s _ _ t k _ h
      · by_cases same : k = key.toNat
        · subst same
          obtain ⟨listed, count⟩ := (hi.thread t).listed (by simp [running])
          refine foldl_clearIn_self s _ listed ?_ _
          have tls := (hi.thread t).tls (by simp [running]) (by simp [running])
          simp [Sys.Clearable, count, tls]
        · apply foldl_clearIn_null
          apply (hi.thread t).null running k hk
          exact fun hm => out ((List.mem_erase_of_ne same).2 hm)
    next =>
      refine ⟨hi.allocated.lock, fun t => ?_⟩
      exact (hi.thread t).of_slots rfl rfl rfl (fun _ _ => id) (hi.thread t).null
  next => exact hi

theorem Inv.setspecific (hi : Inv s) {t : T} (running : s.pc t = .running) (key : ℤ) (ptr : Word) :
    Inv (pthreadSetspecific s t key ptr).2 := by
  unfold pthreadSetspecific
  split
  next valid =>
    dsimp only
    split
    next used =>
      have allocated : key.toNat ∈ s.keys := (hi.allocated.bits _ ((validateKey_iff key).1 valid)).1 used
      have kept (u : T) (k : ℕ) (h : u ≠ t ∨ k ≠ key.toNat) :
          Function.update s.slots t (Function.update (s.slots t) key.toNat ptr) u k = s.slots u k := by
        by_cases hu : u = t
        · subst hu
          rw [Function.update_self, Function.update_of_ne (h.resolve_left fun h => h rfl)]
        · rw [Function.update_of_ne hu]
      refine ⟨hi.allocated.lock, fun u => ?_⟩
      refine (hi.thread u).of_slots rfl rfl rfl (fun hu k h => ?_) fun hu k hk out => ?_
      · have hut : u ≠ t := fun e => hu (e ▸ running)
        exact (kept u k (.inl hut)).trans h
      · have hne : k ≠ key.toNat := fun e => out (e ▸ allocated)
        exact (kept u k (.inr hne)).trans ((hi.thread u).null hu k hk out)
    next =>
      refine ⟨hi.allocated.lock, fun u => ?_⟩
      exact (hi.thread u).of_slots rfl rfl rfl (fun _ _ => id) (hi.thread u).null
  next => exact hi

theorem Inv.create (hi : Inv s) {u : T} (fresh : s.pc u = .fresh) (detached userStack : Bool)
    (area : ℕ → Word) : Inv (pthreadCreate s u detached userStack area) := by
  refine ⟨hi.allocated, fun t => ?_⟩
  by_cases ht : t = u
  · subst ht
    refine ⟨fun _ => ⟨List.mem_cons_self, ?_⟩, ?_, ?_, ?_⟩
    · simp [pthreadCreate, initThread]
    · simp [pthreadCreate]
    · simp [pthreadCreate]
    · simp [pthreadCreate]
  · have h := hi.thread t
    refine ⟨?_, ?_, ?_, ?_⟩
    · intro hp
      have hp : s.pc t ≠ .fresh := by simpa [pthreadCreate, ht] using hp
      obtain ⟨listed, count⟩ := h.listed hp
      exact ⟨List.mem_cons_of_mem u listed, by simpa [pthreadCreate, ht] using count⟩
    · simpa [pthreadCreate, ht] using h.tls
    · simpa [pthreadCreate, ht] using h.cleared
    · simpa [pthreadCreate, ht] using h.null

theorem Inv.initTls (hi : Inv s) {t : T} (h : initTls s t = some s') : Inv s' := by
  have other {d : T → Desc} {slots : T → ℕ → Word} {pc : Pc} (hd : ∀ u, u ≠ t → d u = s.desc u)
      (hs : ∀ u, u ≠ t → slots u = s.slots u) (u : T) (hu : u ≠ t) :
      ThreadOk { s with desc := d, slots := slots, pc := Function.update s.pc t pc } u := by
    have hpc : Function.update s.pc t pc u = s.pc u := Function.update_of_ne hu _ _
    have ok := hi.thread u
    refine ⟨?_, ?_, ?_, ?_⟩
    · simpa only [hpc, hd u hu] using ok.listed
    · simpa only [hpc, hd u hu] using ok.tls
    · simpa only [hpc, hs u hu] using ok.cleared
    · simpa only [hpc, hs u hu] using ok.null
  have ok := hi.thread t
  unfold TlsMap.initTls at h
  split at h
  next pc =>
    cases h
    refine ⟨hi.allocated, fun u => ?_⟩
    by_cases hu : u = t
    · subst hu
      obtain ⟨listed, count⟩ := ok.listed (by simp [pc])
      refine ⟨fun _ => ⟨listed, by simpa using count⟩, by simp, ?_, by simp⟩
      intro nn hn k ge lt
      have hn : TLS_SLOT_ERRNO = nn := by simpa using hn
      omega
    · exact other (fun v hv => Function.update_of_ne hv _ _) (fun _ _ => rfl) u hu
  next nn pc =>
    obtain ⟨listed, count⟩ := ok.listed (by simp [pc])
    have tls := ok.tls (by simp [pc]) (by simp [pc])
    split at h <;> cases h
    next lt =>
      refine ⟨hi.allocated, fun u => ?_⟩
      by_cases hu : u = t
      · subst hu
        refine ⟨fun _ => ⟨listed, count⟩, fun _ _ => tls, ?_, by simp⟩
        intro next hn k ge lt
        have hn : nn + 1 = next := by simpa using hn
        show Function.update s.slots u (Function.update (s.slots u) nn 0) u k = 0
        rw [Function.update_self]
        by_cases hk : k = nn
        · rw [hk, Function.update_self]
        · rw [Function.update_of_ne hk]
          exact ok.cleared nn pc k ge (by omega)
      · exact other (fun _ _ => rfl) (fun v hv => Function.update_of_ne hv _ _) u hu
    next ge =>
      refine ⟨hi.allocated, fun u => ?_⟩
      by_cases hu : u = t
      · subst hu
        refine ⟨fun _ => ⟨listed, count⟩, fun _ _ => tls, by simp, fun _ k hk _ => ?_⟩
        have size : k < BIONIC_TLS_SLOTS := hk.2
        exact ok.cleared nn pc k (Nat.le_of_succ_le hk.1) (by omega)
      · exact other (fun _ _ => rfl) (fun _ _ => rfl) u hu
  next => cases h

theorem Inv.step (hi : Inv s) (h : Step s s') : Inv s' := by
  cases h with
  | keyCreate t dtor running => exact hi.keyCreate dtor
  | keyDelete t key running => exact hi.keyDelete key
  | setspecific t key ptr running => exact hi.setspecific running key ptr
  | create t u detached userStack area running fresh => exact hi.create fresh detached userStack area
  | initTls t s' h => exact hi.initTls h

/-- Bits 0 to 4 of the map are set at its first use. -/
theorem allocated_start : Allocated ⟨false, fun _ => 0, fun _ => 0⟩ [3, 4] := by
  refine ⟨by decide, by simp [InRange, TLSMAP_START, TLSMAP_SIZE, TLS_SLOT_MAX_WELL_KNOWN, TLS_SLOT_ERRNO,
    BIONIC_TLS_SLOTS], fun k hk => ?_⟩
  have all : ∀ k < 64, 3 ≤ k →
      tlsmapTest (tlsmapLock ⟨false, fun _ => 0, fun _ => 0⟩) k = decide (k ∈ [3, 4]) := by decide
  have size : k < 64 := hk.2
  rw [all k size hk.1, decide_eq_true_iff]

theorem Inv.reach (h : Reach main s) : Inv s := by
  induction h with
  | start =>
      refine ⟨allocated_start, fun t => ?_⟩
      by_cases ht : t = main
      · subst ht
        refine ⟨fun _ => ⟨List.mem_singleton_self t, ?_⟩, fun _ _ => ?_, fun _ _ _ _ _ => rfl, fun _ _ _ _ => rfl⟩
        · simp [start, mainThread]
        · simp [start, mainThread]
      · have fresh : (start main).pc t = .fresh := by simp [start, ht]
        refine ⟨fun h => absurd fresh h, fun h => absurd fresh h, fun _ _ _ _ _ => rfl, fun _ _ _ _ => rfl⟩
  | step _ step ih => exact ih.step step

/-- For every interleaving: the keys allocated at the same time are different and in the range of the keys, and they
are what the map says; the slot of a key that is not allocated is NULL in every running thread; and the key that
`pthread_key_create` returns was not allocated and reads NULL in every running thread. -/
theorem keys_distinct_and_null (h : Reach main s) :
    s.keys.Nodup ∧ (∀ k ∈ s.keys, TLSMAP_START ≤ k ∧ k < BIONIC_TLS_SLOTS) ∧
      (∀ k, InRange k → (tlsmapTest (tlsmapLock s.tlsmap) k = true ↔ k ∈ s.keys)) ∧
      (∀ t, s.pc t = .running → ∀ k, InRange k → k ∉ s.keys → s.slots t k = 0) ∧
      ∀ dtor k s', pthreadKeyCreate s dtor = (some k, s') →
        k ∉ s.keys ∧ ∀ t, s'.pc t = .running → pthreadGetspecific s' t k = 0 := by
  have inv := Inv.reach h
  refine ⟨inv.allocated.nodup, inv.allocated.range, inv.allocated.bits, fun t => (inv.thread t).null, ?_⟩
  intro dtor k s' e
  unfold pthreadKeyCreate at e
  dsimp only at e
  split at e
  next j m' alloc =>
    cases e
    obtain ⟨range, unused, -⟩ := inv.alloc alloc
    refine ⟨unused, fun t running => ?_⟩
    unfold pthreadGetspecific
    split
    next => exact (inv.thread t).null running k range unused
    next => rfl
  next => cases e

/-- The main thread has created a key, has set its slot and has deleted the key. -/
def reused : Sys Unit :=
  (pthreadKeyDelete (pthreadSetspecific (pthreadKeyCreate (start ()) 0).2 () 5 7).2 5).2

theorem keys_distinct_and_null_reused :
    (pthreadKeyCreate reused 0).1 = some 5 ∧ pthreadGetspecific (pthreadKeyCreate reused 0).2 () 5 = 0 := by
  have first : Reach () (pthreadKeyCreate (start ()) 0).2 := Reach.start.step (.keyCreate () 0 rfl)
  have second := first.step (.setspecific () 5 7 rfl)
  have third : Reach () reused := second.step (.keyDelete () 5 (by decide))
  have created : (pthreadKeyCreate reused 0).1 = some 5 := by decide
  exact ⟨created, ((keys_distinct_and_null third).2.2.2.2 0 5 _ (Prod.ext created rfl)).2 () (by decide)⟩

end Bionic.TlsMap
