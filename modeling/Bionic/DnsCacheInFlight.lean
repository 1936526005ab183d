import Bionic.DnsCache

/-! # Requests in flight while the DNS cache is flushed (`res_send.c`)

`res_nsend` looks for an answer in the cache, and if there is none it sends a request, waits for the answer and adds it.
Between the lookup and the addition the lock of the cache is free.  A flush that comes in between does not know of the
request, and `_resolv_cache_add` does not know of the flush: an answer from before the flush enters the new cache.

Each flush starts an epoch.  If answers are added in the epoch of their request only, a lookup finds no answer to a
request from before the last flush (`served_current`). -/

namespace Bionic.DnsCache.InFlight

open DnsPacket StateExcept

/-! ### The system -/

/-- Where a thread is in `res_nsend`.  The requests that it has sent are given by their epochs. -/
inductive Request
  | idle
  /-- The lookup has found nothing. -/
  | waiting (query : List Byte) (sent : List ℕ)
  /-- The answer to the request of `epoch` has arrived. -/
  | answered (query answer : List Byte) (epoch : ℕ) (sent : List ℕ)
deriving DecidableEq, Repr

/-- An answer from the cache: the epochs of its request and of the lookup. -/
structure Served where
  sent : ℕ
  epoch : ℕ
deriving DecidableEq, Repr

/-- The cache and the threads.  The last three fields record the number of flushes, the epoch of the request of each
entry, and the answers of the cache. -/
structure System where
  cache : Cache
  request : ℕ → Request
  epoch : ℕ
  origin : Addr → ℕ
  served : List Served

def System.init : System where
  cache := resolvCacheCreate
  request _ := .idle
  epoch := 0
  origin _ := 0
  served := []

namespace System

variable (s : System)

def setRequest (t : ℕ) (r : Request) : System := { s with request := Function.update s.request t r }

/-- The entries that an addition has changed come from a request of `epoch`. -/
def afterAdd (cache : Cache) (epoch : ℕ) : System :=
  { s with cache := cache, origin := fun x => if cache.heap x = s.cache.heap x then s.origin x else epoch }

/-- A flush starts an epoch. -/
def afterReset (cache : Cache) (g : BitVec 32) : System :=
  { s with cache := cache, epoch := if s.cache.generation ≠ g then s.epoch + 1 else s.epoch }

end System

/-- The steps that the condition is about. -/
inductive Label
  | add (query : List Byte) (calloc : Option Addr) (epoch : ℕ)
  | other
deriving DecidableEq, Repr

inductive Step (s : System) : Label → System → Prop
  | found {t query size now r cache x e} (idle : s.request t = .idle) (header : 12 ≤ query.length)
      (hit : Hit s.cache query x e) (run : resolvCacheLookup s.cache query size now = .ok (r, cache))
      (status : r.status = .found) :
      Step s .other { s with cache := cache, served := s.served ++ [⟨s.origin x, s.epoch⟩] }
  | unsupported {t query size now r cache} (idle : s.request t = .idle) (header : 12 ≤ query.length)
      (run : resolvCacheLookup s.cache query size now = .ok (r, cache)) (status : r.status = .unsupported) :
      Step s .other { s with cache := cache }
  | missed {t query size now r cache} (idle : s.request t = .idle) (header : 12 ≤ query.length)
      (run : resolvCacheLookup s.cache query size now = .ok (r, cache)) (status : r.status = .notFound) :
      Step s .other { s.setRequest t (.waiting query []) with cache := cache }
  | send {t query sent} (waiting : s.request t = .waiting query sent) :
      Step s .other (s.setRequest t (.waiting query (s.epoch :: sent)))
  | receive {t query sent answer epoch} (waiting : s.request t = .waiting query sent) (reply : epoch ∈ sent) :
      Step s .other (s.setRequest t (.answered query answer epoch sent))
  | giveUp {t query sent} (waiting : s.request t = .waiting query sent) : Step s .other (s.setRequest t .idle)
  | add {t query answer epoch sent now calloc cache next} (answered : s.request t = .answered query answer epoch sent)
      (allowed : Allowed s.cache (.add query answer now calloc))
      (run : resolvCacheAdd s.cache query answer now calloc = .ok cache)
      (return_or_next : next = .idle ∨ next = .waiting query sent) :
      Step s (.add query calloc epoch) ((s.afterAdd cache epoch).setRequest t next)
  | reset {g cache} (run : resolvCacheReset s.cache g = .ok cache) : Step s .other (s.afterReset cache g)

/-- An answer is added only if its request was sent after the last flush.  The call does nothing if the query fails the
check, if its key is in the cache, or if there is no memory. -/
def Current (s : System) : Label → Prop
  | .add query calloc epoch =>
      (checkQuery query).isSome → (∀ x e, ¬ Hit s.cache query x e) → calloc ≠ none → epoch = s.epoch
  | .other => True

/-- The states of the runs whose steps meet the condition. -/
inductive Reach (P : System → Label → Prop) : System → Prop
  | init : Reach P .init
  | step {s l s'} (h : Reach P s) (step : Step s l s') (good : P s l) : Reach P s'

/-! ### The answers of a run -/

/-- All entries come from requests after the last flush, and so did all that were found. -/
structure AllCurrent (s : System) : Prop where
  inv : ∃ mru chain, Inv s.cache mru chain
  origin : ∀ x e, s.cache.heap x = some e → s.origin x = s.epoch
  served : ∀ v ∈ s.served, v.sent = v.epoch

theorem allCurrent_init : AllCurrent .init :=
  ⟨⟨_, _, inv_create⟩, (fun _ _ he => nomatch he), fun _ hv => absurd hv List.not_mem_nil⟩

/-- A lookup adds no entry. -/
theorem heap_of_lookup {s s' : Cache} {mru mru' : List Addr} {query : List Byte} {size : ℕ} {now : BitVec 32}
    {r : Option Result} (h : Effect s s' mru (.lookup query size now) r mru') {x : Addr} {e : Entry}
    (he : s'.heap x = some e) : s.heap x = some e := by
  cases h with
  | malformed _ same => rwa [same] at he
  | miss _ _ same => rwa [same] at he
  | long _ _ _ _ same => rwa [same] at he
  | found _ _ _ _ _ heap _ => rwa [heap] at he
  | @stale _ _ _ _ _ y _ _ _ _ _ heap _ =>
      rw [heap] at he
      by_cases hx : x = y
      · rw [hx, Function.update_self] at he
        cases he
      · rwa [Function.update_of_ne hx] at he

/-- An addition that changes a live entry has put it in. -/
theorem heap_of_add {s s' : Cache} {mru mru' : List Addr} {query answer : List Byte} {now : BitVec 32}
    {calloc : Option Addr} {r : Option Result} (h : Effect s s' mru (.add query answer now calloc) r mru') {x : Addr}
    {e : Entry} (he : s'.heap x = some e) (changed : s'.heap x ≠ s.heap x) :
    (checkQuery query).isSome ∧ (∀ x e, ¬ Hit s query x e) ∧ calloc ≠ none := by
  cases h with
  | invalid _ same => exact absurd (congrArg (·.heap x) same) changed
  | present _ _ same => exact absurd (congrArg (·.heap x) same) changed
  | added checked absent => exact ⟨checked, absent, nofun⟩
  | noMemory _ _ evicts _ =>
      rcases evicts with ⟨-, -, heap⟩ | ⟨y, -, -, heap⟩
      · exact absurd (congrFun heap x) changed
      · rw [heap] at he changed
        by_cases hx : x = y
        · rw [hx, Function.update_self] at he
          cases he
        · exact absurd (Function.update_of_ne hx _ _) changed

theorem AllCurrent.lookup {s : System} (h : AllCurrent s) {query : List Byte} {size : ℕ} {now : BitVec 32} {r : Result}
    {cache : Cache} (run : resolvCacheLookup s.cache query size now = .ok (r, cache)) (request : ℕ → Request)
    {served : List Served} (hserved : ∀ v ∈ served, v.sent = v.epoch) :
    AllCurrent { s with cache := cache, request := request, served := served } := by
  obtain ⟨mru, chain, inv⟩ := h.inv
  obtain ⟨_, _, mru', chain', run', inv', effect⟩ := inv.resolvCacheLookup_spec query size now
  obtain ⟨rfl, rfl⟩ := Prod.mk.inj (Except.ok.inj (run.symm.trans run'))
  exact ⟨⟨mru', chain', inv'⟩, fun x e he => h.origin x e (heap_of_lookup effect he), hserved⟩

theorem AllCurrent.step {s s' : System} {l : Label} (h : AllCurrent s) (step : Step s l s') (current : Current s l) :
    AllCurrent s' := by
  cases step with
  | @found t query size now r cache x e idle header hit run status =>
      refine h.lookup run s.request fun v hv => ?_
      rcases List.mem_append.1 hv with hv | hv
      · exact h.served v hv
      · rw [List.mem_singleton.1 hv]
        exact h.origin x e hit.entry
  | unsupported idle header run status => exact h.lookup run s.request h.served
  | @missed t query size now r cache idle header run status =>
      exact h.lookup run (Function.update s.request t (.waiting query [])) h.served
  | send waiting => exact ⟨h.inv, h.origin, h.served⟩
  | receive waiting reply => exact ⟨h.inv, h.origin, h.served⟩
  | giveUp waiting => exact ⟨h.inv, h.origin, h.served⟩
  | @add t query answer epoch sent now calloc cache next answered allowed run _ =>
      obtain ⟨mru, chain, inv⟩ := h.inv
      obtain ⟨_, mru', chain', run', inv', effect⟩ := inv.resolvCacheAdd_spec allowed
      obtain rfl := Except.ok.inj (run.symm.trans run')
      refine ⟨⟨mru', chain', inv'⟩, fun x e he => ?_, h.served⟩
      show (if cache.heap x = s.cache.heap x then s.origin x else epoch) = s.epoch
      split
      · next same => exact h.origin x e (same ▸ he)
      · next changed =>
        obtain ⟨checked, absent, memory⟩ := heap_of_add effect he changed
        exact current checked absent memory
  | @reset g cache run =>
      obtain ⟨mru, chain, inv⟩ := h.inv
      obtain ⟨_, mru', chain', run', inv', effect⟩ := inv.resolvCacheReset_spec g
      obtain rfl := Except.ok.inj (run.symm.trans run')
      refine ⟨⟨mru', chain', inv'⟩, fun x e (he : cache.heap x = some e) => ?_, h.served⟩
      show s.origin x = if s.cache.generation ≠ g then s.epoch + 1 else s.epoch
      cases effect with
      | sameGeneration same =>
          rw [if_neg (not_not.2 rfl)]
          rw [same] at he
          exact h.origin x e he
      | flushed _ empty _ =>
          rw [empty x] at he
          cases he

/-- If every answer is added in the epoch of its request, every answer that a lookup finds has been requested since the
last flush. -/
theorem served_current {s : System} (h : Reach Current s) : ∀ v ∈ s.served, v.sent = v.epoch := by
  have all : AllCurrent s := by
    induction h with
    | init => exact allCurrent_init
    | step _ step current ih => exact ih.step step current
  exact all.served

/-! ### An answer that arrives after a flush -/

/-- A thread that finds nothing sends a request. -/
theorem Reach.sent {P : System → Label → Prop} (other : ∀ s, P s .other) {s : System} (h : Reach P s) {t : ℕ}
    (idle : s.request t = .idle) (query : List Byte) (header : 12 ≤ query.length) {cache : Cache}
    (run : resolvCacheLookup s.cache query 100 0 = .ok (⟨.notFound, none, none⟩, cache)) :
    Reach P ({ s with cache := cache }.setRequest t (.waiting query [s.epoch])) := by
  have missed := h.step (.missed idle header run rfl) (other _)
  have waiting : ({ s.setRequest t (.waiting query []) with cache := cache } : System).request t = .waiting query [] :=
    Function.update_self _ _ _
  have sent := missed.step (.send waiting) (other _)
  simpa only [System.setRequest, Function.update_idem] using sent

/-- The answer arrives and is added, and the next thread finds it. -/
theorem Reach.served {P : System → Label → Prop} (other : ∀ s, P s .other) {s : System} (h : Reach P s) {t epoch : ℕ}
    {query answer : List Byte} (header : 12 ≤ query.length) (waiting : s.request t = .waiting query [epoch])
    (current : P (s.setRequest t (.answered query answer epoch [epoch])) (.add query (some 0) epoch))
    (free : s.cache.heap 0 = none) {cache cache' : Cache} {e : Entry}
    (add : resolvCacheAdd s.cache query answer 0 (some 0) = .ok cache) (hit : Hit cache query 0 e)
    (lookup : resolvCacheLookup cache query 100 0 =
      .ok (⟨.found, some answer.length, some answer⟩, cache')) :
    ∃ s', Reach P s' ∧ s'.served = s.served ++ [⟨epoch, s.epoch⟩] := by
  have receive : Step s .other (s.setRequest t (.answered query answer epoch [epoch])) :=
    .receive waiting List.mem_cons_self
  have answered := h.step receive (other _)
  have allowed : Allowed s.cache (.add query answer 0 (some 0)) :=
    ⟨header, fun a ha => .inl (Option.some.inj ha ▸ free)⟩
  have add : Step (s.setRequest t (.answered query answer epoch [epoch])) (.add query (some 0) epoch)
      (((s.setRequest t (.answered query answer epoch [epoch])).afterAdd cache epoch).setRequest t .idle) :=
    .add (Function.update_self _ _ _) allowed add (.inl rfl)
  have added := answered.step add current
  have served := added.step (.found (t := t) (Function.update_self _ _ _) header hit lookup rfl) (other _)
  have changed : cache.heap 0 ≠ s.cache.heap 0 := by
    rw [hit.entry, free]
    nofun
  refine ⟨_, served, ?_⟩
  show s.served ++ [⟨if cache.heap 0 = s.cache.heap 0 then s.origin 0 else epoch, s.epoch⟩] = _
  rw [if_neg changed]

section Empty

variable {c : Cache} {chain : Chains} {query : List Byte}

theorem lookup_empty (h : Inv c [] chain) (checked : (checkQuery query).isSome) :
    resolvCacheLookup c query 100 0 = .ok (⟨.notFound, none, none⟩, c) := by
  have free (x : Addr) (e : Entry) : ¬ Hit c query x e := fun hit =>
    absurd ((h.live x).1 (Option.isSome_iff_exists.2 ⟨e, hit.entry⟩)) List.not_mem_nil
  obtain ⟨r, c', mru', chain', run, -, effect⟩ := h.resolvCacheLookup_spec query 100 0
  rw [run]
  cases effect with
  | malformed unchecked _ => rw [unchecked] at checked; cases checked
  | miss _ _ same => rw [same]
  | stale _ _ hit => exact absurd hit (free _ _)
  | long _ hit => exact absurd hit (free _ _)
  | found _ _ hit => exact absurd hit (free _ _)

theorem add_empty (h : Inv c [] chain) (checked : (checkQuery query).isSome) (header : 12 ≤ query.length)
    (answer : List Byte) (fits : answer.length ≤ 100) :
    c.heap 0 = none ∧ ∃ c₁ e c₂, resolvCacheAdd c query answer 0 (some 0) = .ok c₁ ∧ Hit c₁ query 0 e ∧
      resolvCacheLookup c₁ query 100 0 = .ok (⟨.found, some answer.length, some answer⟩, c₂) := by
  have free (x : Addr) : c.heap x = none := by
    rw [Option.eq_none_iff_forall_not_mem]
    intro e he
    exact absurd ((h.live x).1 (Option.isSome_iff_exists.2 ⟨e, he⟩)) List.not_mem_nil
  have allowed : Allowed c (.add query answer 0 (some 0)) := ⟨header, fun a _ => .inl (free a)⟩
  obtain ⟨c₁, mru, chain', run, inv, effect⟩ := h.resolvCacheAdd_spec allowed
  have new : ∃ id, c₁.heap = Function.update c.heap 0 (some ⟨entryHash query, query, answer, 0, id⟩) := by
    cases effect with
    | invalid unchecked _ => rw [unchecked] at checked; cases checked
    | present _ hit _ => exact absurd ((free _).symm.trans hit.entry) nofun
    | @added _ _ _ _ _ _ id _ _ evicts _ new _ =>
        rcases evicts with ⟨-, -, rfl⟩ | ⟨_, full, -, -⟩
        · exact ⟨id, new⟩
        · exact absurd full (by decide)
  obtain ⟨id, new⟩ := new
  have entry : c₁.heap 0 = some ⟨entryHash query, query, answer, 0, id⟩ := by rw [new, Function.update_self]
  obtain ⟨_, hq⟩ := Option.isSome_iff_exists.1 checked
  have hit : Hit c₁ query 0 ⟨entryHash query, query, answer, 0, id⟩ := ⟨entry, rfl, entryEquals_refl hq⟩
  have only {x : Addr} {e : Entry} (he : Hit c₁ query x e) : e = ⟨entryHash query, query, answer, 0, id⟩ := by
    by_cases hx : x = 0
    · rw [hx] at he
      exact Option.some.inj (he.entry.symm.trans entry)
    · have old := he.entry
      rw [new, Function.update_of_ne hx, free] at old
      cases old
  obtain ⟨r, c₂, _, _, lookup, -, effect⟩ := inv.resolvCacheLookup_spec query 100 0
  refine ⟨free 0, c₁, _, c₂, run, hit, lookup.trans ?_⟩
  cases effect with
  | malformed unchecked _ => rw [unchecked] at checked; cases checked
  | miss _ absent _ => exact absurd hit (absent _ _)
  | stale _ _ hit old =>
      rw [only hit] at old
      have young : ¬ CONFIG_SECONDS ≤ 0 - 0 := by decide
      exact absurd old young
  | long _ hit _ length _ =>
      rw [only hit] at length
      exact absurd length (Nat.not_lt_of_le fits)
  | found _ _ hit => rw [only hit]

/-- The first flush. -/
theorem reset_create : ∃ c, resolvCacheReset resolvCacheCreate 1 = .ok c ∧ Inv c [] fun _ => [] := by
  obtain ⟨c, run, inv, -⟩ := inv_create.flush
  exact ⟨{ c with generation := 1 }, bind_eq_ok.2 ⟨c, run, rfl⟩, { inv with }⟩

end Empty

/-- A request and its answer after the first flush. -/
theorem served_current_queryA : ∃ s, Reach Current s ∧ s.served = [⟨1, 1⟩] ∧ ∀ v ∈ s.served, v.sent = v.epoch := by
  have checked : (checkQuery queryA).isSome := by decide
  obtain ⟨c, reset, inv⟩ := reset_create
  obtain ⟨free, c₁, e, c₂, add, hit, lookup⟩ := add_empty inv checked (by decide) [7] (by decide)
  have h := (Reach.init (P := Current)).step (.reset reset) trivial
  have h := h.sent (t := 0) (fun _ => trivial) rfl queryA (by decide) (lookup_empty inv checked)
  obtain ⟨s, h, served⟩ := h.served (t := 0) (fun _ => trivial) (by decide) rfl (fun _ _ _ => rfl) free add hit lookup
  exact ⟨s, h, served, served_current h⟩

/-- Without the condition: a request before the first flush, and its answer after it. -/
theorem served_stale_queryA : ∃ s, Reach (fun _ _ => True) s ∧ s.served = [⟨0, 1⟩] := by
  have checked : (checkQuery queryA).isSome := by decide
  obtain ⟨c, reset, inv⟩ := reset_create
  obtain ⟨free, c₁, e, c₂, add, hit, lookup⟩ := add_empty inv checked (by decide) [7] (by decide)
  have h := (Reach.init (P := fun _ _ => True)).sent (t := 0) (fun _ => trivial) rfl queryA (by decide)
    (lookup_empty inv_create checked)
  have h := h.step (.reset reset) trivial
  obtain ⟨s, h, served⟩ := h.served (t := 0) (fun _ => trivial) (by decide) rfl trivial free add hit lookup
  exact ⟨s, h, served⟩

end Bionic.DnsCache.InFlight
