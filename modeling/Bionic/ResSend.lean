import Bionic.DnsReads

/-! # Sending a query (`libc/netbsd/resolv/res_send.c`)

`res_nsend` asks the servers one after another, over datagrams or over a stream, and adds the reply that it accepts to
the cache.  What the sockets and the hooks answer is an input: what happens at each server in each round is an
`Attempt`.  The addresses of the servers, the times, `errno` and the closing of the sockets are left out.

The bytes behind a reply in the buffer of the caller are left out too: `stored` are the bytes of the reply that the
buffer holds, and the cache copies the first `anslen` of them.  A datagram is cut to the buffer and its length with it;
a reply over a stream is cut too, but keeps the length that the server has announced (`added_iff`). -/

namespace Bionic.ResSend

open DnsPacket (Byte byteAt int16At)
open DnsReads (readBytes readBytes_eq)

def HFIXEDSZ : ℕ := 12

def PACKETSZ : ℕ := 512

/-! ### Streams -/

/-- The bytes that a connection still delivers.  Read number `i` from here on returns at most `more i + 1` bytes. -/
structure Stream where
  bytes : List Byte
  more : ℕ → ℕ

/-- `read`, which returns no byte at the end. -/
def Stream.read (s : Stream) (len : ℕ) : List Byte × Stream :=
  let n := min len (s.more 0 + 1)
  (s.bytes.take n, ⟨s.bytes.drop n, fun i => s.more (i + 1)⟩)

/-- The loops of `send_vc` that read `len` bytes into `ans`.  None if a read fails. -/
def readLoop (len : ℕ) (s : Stream) : Option (List Byte × Stream) :=
  if len = 0 then some ([], s)
  else
    let (l, s) := s.read len
    if l.length = 0 then none
    else (readLoop (len - l.length) s).map fun (l', s) => (l ++ l', s)
termination_by len

/-- The loop of `send_vc` that reads the rest of a long reply into `junk`. -/
def flush (len : ℕ) (s : Stream) : Stream :=
  if len = 0 then s
  else
    let (l, s) := s.read (min len PACKETSZ)
    if l.length = 0 then s else flush (len - l.length) s
termination_by len

/-! ### Replies -/

/-- A reply as the transport delivers it. -/
inductive Reply
  | datagram (data : List Byte)
  /-- The length in front of the reply, and what has been read of it into the buffer. -/
  | stream (announced : ℕ) (head : List Byte)
deriving DecidableEq, Repr

/-- A reply that a transport has accepted: the bytes of it in the buffer, and `resplen`. -/
structure Accepted where
  reply : Reply
  stored : List Byte
  resplen : ℕ
deriving DecidableEq, Repr

/-- `anhp->tc = 1` -/
def setTc (ans : List Byte) : List Byte := ans.set 2 (byteAt ans 2 ||| 2)

/-- `anhp->tc` -/
def tc (ans : List Byte) : Bool := byteAt ans 2 &&& 2 ≠ 0

/-- `anhp->rcode` -/
def rcode (ans : List Byte) : Byte := byteAt ans 3 &&& 15

/-- `hp->id`, in the order of the packet. -/
def ident (packet : List Byte) : ℕ := int16At packet 0

/-! ### `send_vc` -/

/-- How a call of `socket`, `connect` and `writev` ends. -/
inductive Opening
  | failed
  | fatal
  /-- The query is sent.  `reset` says that a read that fails leaves `ECONNRESET`. -/
  | connected (s : Stream) (reset : Bool)

/-- What a transport returns: `0`, `-1`, or a length. -/
inductive Sent
  | failed
  | fatal
  | accepted (a : Accepted)
deriving DecidableEq, Repr

/-- `len = resplen - anssiz`, a `u_short`. -/
def restLength (resplen anssiz : ℕ) : ℕ := (((resplen : ℤ) - anssiz) % 65536).toNat

/-- From `read_len` on; `truncating` stays set for the replies that follow.  The number bounds the replies to other
queries; none if the length of a reply cannot be read. -/
def receive (buf : List Byte) (anssiz : ℕ) : ℕ → Bool → Stream → Option Sent
  | 0, _, _ => none
  | fuel + 1, truncating, s =>
      match readLoop 2 s with
      | none => none
      | some (lengthBytes, s) =>
          let resplen := int16At lengthBytes 0
          let truncating := truncating || resplen > anssiz
          let len := if resplen > anssiz then anssiz else resplen
          if len < HFIXEDSZ then some .failed
          else
            match readLoop len s with
            | none => some .failed
            | some (head, s) =>
                let ans := if truncating then setTc head else head
                let s := if truncating then flush (restLength resplen anssiz) s else s
                if ident buf ≠ ident ans then receive buf anssiz fuel truncating s
                else some (.accepted ⟨.stream resplen head, ans, resplen⟩)

/-- `send_vc`.  The connection is opened once more if it is reset before the first byte of a reply. -/
def sendVc (buf : List Byte) (anssiz : ℕ) (first second : Opening) : Sent :=
  match first with
  | .failed => .failed
  | .fatal => .fatal
  | .connected s reset =>
      match receive buf anssiz (s.bytes.length + 1) false s with
      | some r => r
      | none =>
          if reset = false then .failed
          else
            match second with
            | .failed => .failed
            | .fatal => .fatal
            | .connected s _ => (receive buf anssiz (s.bytes.length + 1) false s).getD .failed

/-! ### `send_dg` -/

structure Options where
  useVc : Bool
  ignTc : Bool
  insecure1 : Bool
  insecure2 : Bool
  useEdns0 : Bool
  pfcode : Bool
deriving DecidableEq, Repr

/-- What `pselect` and `recvfrom` answer. -/
inductive DgEvent
  | timeout
  | interrupted
  | failed
  /-- A datagram, and what `res_ourserver_p` and `res_queriesmatch` say of it. -/
  | datagram (data : List Byte) (ours matching : Bool)
deriving DecidableEq, Repr

/-- What `send_dg` returns; `truncated` is `1`, with `*v_circuit` set. -/
inductive SentDg
  | failed
  | fatal
  | truncated
  | accepted (a : Accepted)
deriving DecidableEq, Repr

/-- `recvfrom` into the buffer. -/
def recvfrom (data : List Byte) (anssiz : ℕ) : List Byte := data.take anssiz

/-- From `wait` on. -/
def await (o : Options) (buf : List Byte) (anssiz : ℕ) : List DgEvent → SentDg
  | [] => .failed
  | .timeout :: _ => .failed
  | .interrupted :: events => await o buf anssiz events
  | .failed :: _ => .failed
  | .datagram data ours matching :: events =>
      let ans := recvfrom data anssiz
      let resplen := ans.length
      if resplen = 0 then .failed
      else if resplen < HFIXEDSZ then .failed
      else if ident buf ≠ ident ans then await o buf anssiz events
      else if ¬ o.insecure1 ∧ ¬ ours then await o buf anssiz events
      else if rcode ans = 1 ∧ o.useEdns0 then .failed
      else if ¬ o.insecure2 ∧ ¬ matching then await o buf anssiz events
      else if (rcode ans = 2 ∨ rcode ans = 4 ∨ rcode ans = 5) ∧ ¬ o.pfcode then .failed
      else if ¬ o.ignTc ∧ tc ans then .truncated
      else .accepted ⟨.datagram data, ans, resplen⟩

/-- How `socket`, `connect` and `send` end, and what comes then. -/
inductive DgOpening
  | failed
  | fatal
  | sent (events : List DgEvent)
deriving DecidableEq, Repr

/-- `send_dg` -/
def sendDg (o : Options) (buf : List Byte) (anssiz : ℕ) : DgOpening → SentDg
  | .failed => .failed
  | .fatal => .fatal
  | .sent events => await o buf anssiz events

/-! ### `res_nsend` -/

inductive HookAct
  | goahead
  | nextns
  | done
  | modified
  | error
deriving DecidableEq, Repr

/-- A call of a hook: what it returns, the query that it leaves, and `resplen`. -/
structure HookCall where
  act : HookAct
  buf : List Byte
  resplen : ℤ

/-- The loop around a hook, which ends with a call, or none to fail.  `calls i` is the call behind which `i` more may
come. -/
def hookLoop (calls : ℕ → HookCall) : ℕ → Option HookCall
  | 0 => none
  | loops + 1 =>
      match (calls loops).act with
      | .modified => hookLoop calls loops
      | .error => none
      | _ => some (calls loops)

/-- What happens at a server: the calls of `qhook`, the datagrams, the calls of `qhook` before a virtual circuit that
follows, the virtual circuit, and the calls of `rhook`. -/
structure Attempt where
  qhook : Option (ℕ → HookCall)
  dg : DgOpening
  qhookVc : Option (ℕ → HookCall)
  first : Opening
  second : Opening
  rhook : Option (ℕ → HookCall)

/-- A call of `_resolv_cache_add`. -/
structure Add where
  query : List Byte
  answer : Accepted
deriving DecidableEq, Repr

/-- The variables `buf` and `v_circuit`, whether `try` has been set to the number of retries, and the calls of
`_resolv_cache_add`. -/
structure State where
  buf : List Byte
  vCircuit : Bool
  last : Bool
  adds : List Add

/-- How the code for a server ends. -/
inductive Exit
  | nextNs
  | fail
  | ret (n : ℤ)
deriving DecidableEq, Repr

structure Call where
  options : Options
  anssiz : ℕ
  /-- `cache_status` is `RESOLV_CACHE_NOTFOUND`. -/
  notFound : Bool

/-- What follows a reply: the cache, and `rhook`. -/
def accept (c : Call) (a : Attempt) (r : Accepted) (s : State) : Exit × State :=
  let s := if c.notFound then { s with adds := s.adds ++ [⟨s.buf, r⟩] } else s
  match a.rhook with
  | none => (.ret r.resplen, s)
  | some calls =>
      match hookLoop calls 42 with
      | none => (.fail, s)
      | some call => if call.act = .nextns then (.nextNs, s) else (.ret call.resplen, s)

/-- The calls of `qhook`, which may end the code for a server. -/
def askQhook (hook : Option (ℕ → HookCall)) (s : State) : Option Exit × State :=
  match hook with
  | none => (none, s)
  | some calls =>
      match hookLoop calls 42 with
      | none => (some .fail, s)
      | some call =>
          (match call.act with
            | .nextns => some .nextNs
            | .done => some (.ret call.resplen)
            | _ => none, { s with buf := call.buf })

/-- A server, by a virtual circuit. -/
def circuit (c : Call) (a : Attempt) (s : State) : Exit × State :=
  let s := { s with last := true }
  match sendVc s.buf c.anssiz a.first a.second with
  | .fatal => (.fail, s)
  | .failed => (.nextNs, s)
  | .accepted r => accept c a r s

/-- A server, from `same_ns` on. -/
def askServer (c : Call) (a : Attempt) (s : State) : Exit × State :=
  match askQhook a.qhook s with
  | (some e, s) => (e, s)
  | (none, s) =>
      if s.vCircuit then circuit c a s
      else
        match sendDg c.options s.buf c.anssiz a.dg with
        | .fatal => (.fail, s)
        | .failed => (.nextNs, s)
        | .truncated =>
            match askQhook a.qhookVc { s with vCircuit := true } with
            | (some e, s) => (e, s)
            | (none, s) => circuit c a s
        | .accepted r => accept c a r s

/-- The loop over the servers. -/
def forServers (c : Call) : List Attempt → State → Exit × State
  | [], s => (.nextNs, s)
  | a :: servers, s =>
      match askServer c a s with
      | (.nextNs, s) => forServers c servers s
      | r => r

/-- The loop over the retries. -/
def forTries (c : Call) : List (List Attempt) → State → Exit × State
  | [], s => (.fail, s)
  | servers :: tries, s =>
      match forServers c servers s with
      | (.nextNs, s) => if s.last then (.fail, s) else forTries c tries s
      | r => r

/-- What `_resolv_cache_lookup` returns, with `anslen`. -/
inductive CacheStatus
  | unsupported
  | notFound
  | found (anslen : ℕ)
deriving DecidableEq, Repr

/-- `res_nsend`, with the calls of `_resolv_cache_add`.  The status is `unsupported` if there is no cache, and `tries`
are the servers in each round. -/
def resNsend (o : Options) (nscount : ℕ) (buf : List Byte) (anssiz : ℕ) (status : CacheStatus)
    (tries : List (List Attempt)) : ℤ × List Add :=
  if nscount = 0 then (-1, [])
  else if anssiz < HFIXEDSZ then (-1, [])
  else
    match status with
    | .found anslen => (anslen, [])
    | status =>
        let s : State := ⟨buf, o.useVc || PACKETSZ < buf.length, false, []⟩
        match forTries ⟨o, anssiz, status = .notFound⟩ tries s with
        | (.ret n, s) => (n, s.adds)
        | (_, s) => (-1, s.adds)

/-! ### Reading from a stream -/

section

variable {s s' : Stream} {len : ℕ} {l : List Byte}

theorem read_split (s : Stream) (len : ℕ) : s.bytes = (s.read len).1 ++ (s.read len).2.bytes :=
  (List.take_append_drop _ _).symm

theorem read_length_le (s : Stream) (len : ℕ) : (s.read len).1.length ≤ len := by
  show (s.bytes.take (min len (s.more 0 + 1))).length ≤ len
  rw [List.length_take]
  omega

/-- A loop that ends has read all the bytes, however many each read has returned. -/
theorem readLoop_split (h : readLoop len s = some (l, s')) : s.bytes = l ++ s'.bytes ∧ l.length = len := by
  induction len using Nat.strong_induction_on generalizing s l with
  | _ len ih =>
      rw [readLoop] at h
      split at h
      next zero =>
        cases h
        exact ⟨rfl, zero.symm⟩
      next =>
        have split := read_split s len
        have le := read_length_le s len
        generalize s.read len = r at h split le
        dsimp only at h
        split at h
        next => cases h
        next some =>
          obtain ⟨⟨l', s''⟩, run, e⟩ := Option.map_eq_some_iff.1 h
          cases e
          obtain ⟨rest, length⟩ := ih (len - r.1.length) (by omega) run
          refine ⟨?_, ?_⟩
          · rw [split, rest, List.append_assoc]
          · rw [List.length_append, length]
            omega

theorem flush_split (len : ℕ) (s : Stream) : ∃ l, s.bytes = l ++ (flush len s).bytes := by
  induction len using Nat.strong_induction_on generalizing s with
  | _ len ih =>
      rw [flush]
      split
      next => exact ⟨[], rfl⟩
      next =>
        have split := read_split s (min len PACKETSZ)
        have le := read_length_le s (min len PACKETSZ)
        generalize s.read (min len PACKETSZ) = r at split le
        dsimp only
        split
        next => exact ⟨r.1, split⟩
        next some =>
          obtain ⟨l, rest⟩ := ih (len - r.1.length) (by omega) r.2
          exact ⟨r.1 ++ l, by rw [split, rest, List.append_assoc]⟩

end

/-! ### Accepted replies -/

/-- The stream delivers two bytes with the number `n`, and then `head`. -/
def Stream.Delivers (s : Stream) (n : ℕ) (head : List Byte) : Prop :=
  ∃ old high low rest, s.bytes = old ++ high :: low :: (head ++ rest) ∧ n = high.toNat * 256 + low.toNat

theorem Stream.Delivers.append {s s' : Stream} {n : ℕ} {head l : List Byte} (h : s'.Delivers n head)
    (split : s.bytes = l ++ s'.bytes) : s.Delivers n head := by
  obtain ⟨old, high, low, rest, bytes, number⟩ := h
  exact ⟨l ++ old, high, low, rest, by rw [split, bytes, List.append_assoc], number⟩

/-- What an opened connection delivers. -/
def Opening.Delivers (n : ℕ) (head : List Byte) : Opening → Prop
  | .connected s _ => s.Delivers n head
  | _ => False

/-- What a datagram socket delivers. -/
def DgOpening.Delivers (data : List Byte) : DgOpening → Prop
  | .sent events => ∃ ours matching, .datagram data ours matching ∈ events
  | _ => False

/-- The reply comes from the server. -/
def Attempt.Delivers (a : Attempt) : Reply → Prop
  | .datagram data => a.dg.Delivers data
  | .stream n head => a.first.Delivers n head ∨ a.second.Delivers n head

/-- `resplen` and the bytes in the buffer, for a reply. -/
def Accepted.Ok (anssiz : ℕ) (r : Accepted) : Prop :=
  match r.reply with
  | .datagram data => r.stored = data.take anssiz ∧ r.resplen = r.stored.length
  | .stream n head => r.resplen = n ∧ r.stored.length = head.length ∧ head.length = min n anssiz

section

variable {o : Options} {buf : List Byte} {anssiz fuel : ℕ} {truncating : Bool} {s : Stream} {r : Accepted}

theorem setTc_if_length (p : Prop) [Decidable p] (head : List Byte) :
    (if p then setTc head else head).length = head.length := by
  split
  next => exact List.length_set
  next => rfl

theorem flush_if_split (p : Prop) [Decidable p] (len : ℕ) (s : Stream) :
    ∃ l, s.bytes = l ++ (if p then flush len s else s).bytes := by
  split
  next => exact flush_split len s
  next => exact ⟨[], rfl⟩

/-- A message that a stream delivers, and its length. -/
theorem receive_ok (h : receive buf anssiz fuel truncating s = some (.accepted r)) :
    r.Ok anssiz ∧ ∃ n head, r.reply = .stream n head ∧ s.Delivers n head := by
  induction fuel generalizing s truncating with
  | zero => cases h
  | succ fuel ih =>
      unfold receive at h
      dsimp only at h
      split at h
      next => cases h
      next lengthBytes s₁ run =>
        obtain ⟨first, two⟩ := readLoop_split run
        obtain ⟨high, low, rfl⟩ := List.length_eq_two.1 two
        set n := int16At [high, low] 0 with number
        generalize len_eq : (if n > anssiz then anssiz else n) = len at h
        have len_min : len = min n anssiz := by
          rw [← len_eq]
          split <;> omega
        split at h
        next => cases h
        next =>
          split at h
          next => cases h
          next head s₂ run =>
            obtain ⟨second, length⟩ := readLoop_split run
            have delivers : s.Delivers n head := ⟨[], high, low, s₂.bytes, by rw [first, second]; rfl, rfl⟩
            generalize (truncating || decide (n > anssiz)) = truncating at h
            obtain ⟨l, split⟩ := flush_if_split (truncating = true) (restLength n anssiz) s₂
            have same := setTc_if_length (truncating = true) head
            generalize (if truncating = true then flush (restLength n anssiz) s₂ else s₂) = s₃ at h split
            generalize (if truncating = true then setTc head else head) = ans at h same
            split at h
            next =>
              obtain ⟨ok, n', head', reply, later⟩ := ih h
              refine ⟨ok, n', head', reply, later.append (l := high :: low :: (head ++ l)) ?_⟩
              rw [first, second, split]
              simp
            next =>
              cases h
              exact ⟨⟨rfl, same, length.trans len_min⟩, n, head, rfl, delivers⟩

theorem sendVc_ok {first second : Opening} (h : sendVc buf anssiz first second = .accepted r) :
    r.Ok anssiz ∧ ∃ n head, r.reply = .stream n head ∧ (first.Delivers n head ∨ second.Delivers n head) := by
  unfold sendVc at h
  split at h
  next => cases h
  next => cases h
  next s reset =>
    split at h
    next sent run =>
      subst h
      obtain ⟨ok, n, head, reply, delivers⟩ := receive_ok run
      exact ⟨ok, n, head, reply, .inl delivers⟩
    next =>
      split at h
      next => cases h
      next =>
        split at h
        next => cases h
        next => cases h
        next s' _ =>
          cases run : receive buf anssiz (s'.bytes.length + 1) false s' with
          | none =>
              rw [run] at h
              cases h
          | some sent =>
              rw [run] at h
              cases h
              obtain ⟨ok, n, head, reply, delivers⟩ := receive_ok run
              exact ⟨ok, n, head, reply, .inr delivers⟩

/-- A datagram that the socket delivers, cut to the buffer. -/
theorem await_ok {events : List DgEvent} (h : await o buf anssiz events = .accepted r) :
    r.Ok anssiz ∧ ∃ data ours matching, r.reply = .datagram data ∧ .datagram data ours matching ∈ events := by
  induction events with
  | nil => cases h
  | cons event events ih =>
      have later (h : await o buf anssiz events = .accepted r) :
          r.Ok anssiz ∧ ∃ data ours matching,
            r.reply = .datagram data ∧ .datagram data ours matching ∈ event :: events := by
        obtain ⟨ok, data, ours, matching, reply, mem⟩ := ih h
        exact ⟨ok, data, ours, matching, reply, List.mem_cons_of_mem _ mem⟩
      cases event with
      | timeout => cases h
      | interrupted => exact later h
      | failed => cases h
      | datagram data ours matching =>
          rw [await] at h
          repeat' split at h
          all_goals first
            | exact later h
            | cases h
          exact ⟨⟨rfl, rfl⟩, data, ours, matching, rfl, List.mem_cons_self⟩

theorem sendDg_ok {dg : DgOpening} (h : sendDg o buf anssiz dg = .accepted r) :
    r.Ok anssiz ∧ ∃ data, r.reply = .datagram data ∧ dg.Delivers data := by
  unfold sendDg at h
  split at h
  next => cases h
  next => cases h
  next events =>
    obtain ⟨ok, data, ours, matching, reply, mem⟩ := await_ok h
    exact ⟨ok, data, reply, ours, matching, mem⟩

end

/-! ### What is added to the cache -/

/-- The reply has come from the server, and is in the buffer. -/
def Add.From (anssiz : ℕ) (a : Attempt) (add : Add) : Prop :=
  add.answer.Ok anssiz ∧ a.Delivers add.answer.reply

section

variable {c : Call} {a : Attempt} {s : State} {add : Add}

theorem accept_adds {r : Accepted} (h : add ∈ (accept c a r s).2.adds) : add ∈ s.adds ∨ add.answer = r := by
  have state : (accept c a r s).2 = if c.notFound then { s with adds := s.adds ++ [⟨s.buf, r⟩] } else s := by
    unfold accept
    dsimp only
    split
    next => rfl
    next =>
      split
      next => rfl
      next => exact apply_ite Prod.snd _ _ _ |>.trans (ite_self _)
  rw [state] at h
  split at h
  next =>
    rcases List.mem_append.1 h with old | new
    · exact .inl old
    · rw [List.mem_singleton.1 new]
      exact .inr rfl
  next => exact .inl h

theorem askQhook_adds (hook : Option (ℕ → HookCall)) (s : State) : (askQhook hook s).2.adds = s.adds := by
  unfold askQhook
  split
  next => rfl
  next => split <;> rfl

theorem circuit_adds (h : add ∈ (circuit c a s).2.adds) : add ∈ s.adds ∨ add.From c.anssiz a := by
  unfold circuit at h
  dsimp only at h
  split at h
  next => exact .inl h
  next => exact .inl h
  next r sent =>
    rcases accept_adds h with old | rfl
    · exact .inl old
    · obtain ⟨ok, n, head, reply, delivers⟩ := sendVc_ok sent
      refine .inr ⟨ok, ?_⟩
      rw [reply]
      exact delivers

theorem askServer_adds (h : add ∈ (askServer c a s).2.adds) : add ∈ s.adds ∨ add.From c.anssiz a := by
  unfold askServer at h
  have first := askQhook_adds a.qhook s
  split at h
  next e s' asked =>
    rw [asked] at first
    exact .inl (first ▸ h)
  next s' asked =>
    rw [asked] at first
    change s'.adds = s.adds at first
    rw [← first]
    split at h
    next => exact circuit_adds h
    next =>
      split at h
      next => exact .inl h
      next => exact .inl h
      next =>
        have again := askQhook_adds a.qhookVc { s' with vCircuit := true }
        split at h
        next e s'' asked =>
          rw [asked] at again
          exact .inl (again ▸ h)
        next s'' asked =>
          rw [asked] at again
          change s''.adds = s'.adds at again
          rw [← again]
          exact circuit_adds h
      next r sent =>
        rcases accept_adds h with old | rfl
        · exact .inl old
        · obtain ⟨ok, data, reply, delivers⟩ := sendDg_ok sent
          refine .inr ⟨ok, ?_⟩
          rw [reply]
          exact delivers

theorem forServers_adds {servers : List Attempt} (h : add ∈ (forServers c servers s).2.adds) :
    add ∈ s.adds ∨ ∃ a ∈ servers, add.From c.anssiz a := by
  induction servers generalizing s with
  | nil => exact .inl h
  | cons a servers ih =>
      have step : ∀ {s'}, s' = (askServer c a s).2 → add ∈ s'.adds →
          add ∈ s.adds ∨ ∃ a' ∈ a :: servers, add.From c.anssiz a' := by
        rintro s' rfl h
        rcases askServer_adds h with old | new
        · exact .inl old
        · exact .inr ⟨a, List.mem_cons_self, new⟩
      rw [forServers] at h
      split at h
      next s' asked =>
        rcases ih h with mid | ⟨a', mem, new⟩
        · exact step (by rw [asked]) mid
        · exact .inr ⟨a', List.mem_cons_of_mem _ mem, new⟩
      next => exact step rfl h

theorem forTries_adds {tries : List (List Attempt)} (h : add ∈ (forTries c tries s).2.adds) :
    add ∈ s.adds ∨ ∃ a ∈ tries.flatten, add.From c.anssiz a := by
  induction tries generalizing s with
  | nil => exact .inl h
  | cons servers tries ih =>
      have step : ∀ {s'}, s' = (forServers c servers s).2 → add ∈ s'.adds →
          add ∈ s.adds ∨ ∃ a ∈ (servers :: tries).flatten, add.From c.anssiz a := by
        rintro s' rfl h
        rcases forServers_adds h with old | ⟨a, mem, new⟩
        · exact .inl old
        · exact .inr ⟨a, List.mem_flatten.2 ⟨servers, List.mem_cons_self, mem⟩, new⟩
      rw [forTries] at h
      split at h
      next s' asked =>
        split at h
        next => exact step (by rw [asked]) h
        next =>
          rcases ih h with mid | ⟨a, mem, new⟩
          · exact step (by rw [asked]) mid
          · exact .inr ⟨a, List.mem_append_right _ mem, new⟩
      next => exact step rfl h

/-- All that is added has come from a server. -/
theorem resNsend_adds {o : Options} {nscount : ℕ} {buf : List Byte} {anssiz : ℕ} {status : CacheStatus}
    {tries : List (List Attempt)} (h : add ∈ (resNsend o nscount buf anssiz status tries).2) :
    ∃ a ∈ tries.flatten, add.From anssiz a := by
  unfold resNsend at h
  split at h
  next => cases h
  next =>
    split at h
    next => cases h
    next =>
      split at h
      next => cases h
      next =>
        dsimp only at h
        set s₀ : State := ⟨buf, o.useVc || decide (PACKETSZ < buf.length), false, []⟩
        generalize call : Call.mk o anssiz _ = c at h
        have mem : add ∈ (forTries c tries s₀).2.adds := by
          split at h <;> rename_i run <;> rw [run] <;> exact h
        rcases forTries_adds mem with old | new
        · cases old
        · rw [← call] at new
          exact new

end

/-- What `entry_alloc` copies of the answer. -/
def entryAlloc (answer : List Byte) (answerlen : ℕ) : DnsReads.Read (List Byte) := readBytes answer 0 answerlen

/-- The length that is passed on is at most the size of the buffer, and the copy reads what has been stored there. -/
def Add.WithinBuffer (anssiz : ℕ) (add : Add) : Prop :=
  add.answer.resplen ≤ anssiz ∧ ∃ copy, entryAlloc add.answer.stored add.answer.resplen = .ok copy

/-- A datagram, or a reply whose length in front is at most the size of the buffer. -/
def Reply.Fits (anssiz : ℕ) : Reply → Prop
  | .datagram _ => True
  | .stream announced _ => announced ≤ anssiz

theorem Accepted.Ok.fits_iff {anssiz : ℕ} {query : List Byte} {r : Accepted} (h : r.Ok anssiz) :
    Add.WithinBuffer anssiz ⟨query, r⟩ ↔ r.reply.Fits anssiz := by
  obtain ⟨reply, stored, resplen⟩ := r
  cases reply with
  | datagram data =>
      obtain ⟨cut, length⟩ := h
      dsimp only at cut length
      have le : stored.length ≤ anssiz := by
        rw [cut]
        exact List.length_take_le _ _
      refine ⟨fun _ => trivial, fun _ => ⟨?_, _, readBytes_eq ?_⟩⟩ <;> dsimp only <;> omega
  | stream n head =>
      obtain ⟨number, same, length⟩ := h
      dsimp only at number same length
      subst number
      refine ⟨fun within => within.1, fun fits => ⟨fits, _, readBytes_eq ?_⟩⟩
      change resplen ≤ anssiz at fits
      dsimp only
      omega

/-- Every reply that is added to the cache comes from a server; the length that is passed on is within the buffer if
and only if the reply is a datagram or fits. -/
theorem added_iff (o : Options) (nscount : ℕ) (buf : List Byte) (anssiz : ℕ) (status : CacheStatus)
    (tries : List (List Attempt)) :
    ∀ add ∈ (resNsend o nscount buf anssiz status tries).2,
      (∃ a ∈ tries.flatten, a.Delivers add.answer.reply) ∧
        (add.WithinBuffer anssiz ↔ add.answer.reply.Fits anssiz) := by
  intro add h
  obtain ⟨a, mem, ok, delivers⟩ := resNsend_adds h
  exact ⟨⟨a, mem, delivers⟩, ok.fits_iff⟩

/-- A call with one server, which answers the query `[0, 1]` over a stream that delivers the bytes at once. -/
def streamCall (bytes : List Byte) : ℤ × List Add :=
  resNsend ⟨true, false, false, false, false, false⟩ 1 [0, 1] 12 .notFound
    [[⟨none, .failed, none, .connected ⟨bytes, fun _ => 100⟩ false, .failed, none⟩]]

/-- A reply of twelve bytes. -/
theorem added_iff_fits :
    let add : Add := ⟨[0, 1], .stream 12 (0 :: 1 :: List.replicate 10 0), 0 :: 1 :: List.replicate 10 0, 12⟩
    add ∈ (streamCall (0 :: 12 :: 0 :: 1 :: List.replicate 10 0)).2 ∧ add.WithinBuffer 12 := by
  have mem : (⟨[0, 1], ⟨.stream 12 (0 :: 1 :: List.replicate 10 0), 0 :: 1 :: List.replicate 10 0, 12⟩⟩ : Add) ∈
      (streamCall (0 :: 12 :: 0 :: 1 :: List.replicate 10 0)).2 := by
    decide +kernel
  exact ⟨mem, (added_iff _ _ _ _ _ _ _ mem).2.2 (Nat.le_refl 12)⟩

/-- A reply of thirteen bytes is cut to the buffer, and thirteen bytes are copied. -/
theorem added_beyond_buffer :
    ∃ add ∈ (streamCall (0 :: 13 :: 0 :: 1 :: List.replicate 11 0)).2,
      add.answer.stored.length = 12 ∧ entryAlloc add.answer.stored add.answer.resplen = .error ⟨12⟩ ∧
        ¬ add.WithinBuffer 12 := by
  have mem : (⟨[0, 1], ⟨.stream 13 (0 :: 1 :: List.replicate 10 0), 0 :: 1 :: 2 :: List.replicate 9 0, 13⟩⟩ : Add) ∈
      (streamCall (0 :: 13 :: 0 :: 1 :: List.replicate 11 0)).2 := by
    decide +kernel
  refine ⟨_, mem, rfl, by decide, ?_⟩
  rintro ⟨le, -⟩
  exact absurd le (by decide)

end Bionic.ResSend
