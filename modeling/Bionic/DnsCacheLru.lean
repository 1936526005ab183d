import Bionic.DnsCache
import Bionic.LruMap

/-! # The DNS cache is a map that forgets what was used least recently

For queries without bytes behind their last question the comparison and the hash of the cache look at the same data:
the bit RD, the number of questions and their bytes.  Over these keys the cache is a map of at most
`CONFIG_MAX_ENTRIES` answers, from which a full map loses the key used least recently, and a lookup removes an answer
that is too old (`run_refines`).

The age of an answer is a difference of two values of `time_t`.  The code compares it as an unsigned number, so that an
answer from the future is too old as well. -/

namespace Bionic.DnsCache

open DnsPacket LruMap StateExcept

/-! ### Keys -/

abbrev Key := Byte × ℕ × List Byte

/-- What distinguishes two queries: the bit RD, the number of questions, and their bytes. -/
def queryKey (query : List Byte) : Key := (byteAt query 2 &&& 1, int16At query 4, query.drop 12)

/-- The query passes the check, and ends with its last question. -/
def Plain (query : List Byte) : Prop := checkQuery query = some []

theorem entryEquals_iff_key {q q' : List Byte} (h : Plain q) (h' : Plain q') :
    entryEquals q q' = true ↔ queryKey q = queryKey q' := by
  obtain ⟨hd, s, hq⟩ := checkQuery_eq_some.1 h
  obtain ⟨hd', s', hq'⟩ := checkQuery_eq_some.1 h'
  have key {q hd s : List Byte} (hq : Query q hd s []) : queryKey q = (byteAt hd 2 &&& 1, int16At hd 4, s) := by
    unfold queryKey
    rw [hq.eq, byteAt_append (by rw [hq.length]; decide), int16At_append (by rw [hq.length]; decide),
      List.drop_left' hq.length, List.append_nil]
  have length {q hd s : List Byte} (hq : Query q hd s []) : q.length = 12 + s.length := by
    rw [hq.eq, List.append_nil, List.length_append, hq.length]
  rw [hq.entryEquals_iff hq', key hq, key hq', Prod.mk.injEq, Prod.mk.injEq]
  refine ⟨And.right, fun he => ⟨?_, he⟩⟩
  rw [length hq, length hq', he.2.2]

/-- The entry that a lookup finds is the one with the same key. -/
theorem hit_iff_key {s : Cache} {mru : List Addr} {chain : Chains} (h : Inv s mru chain) {query : List Byte}
    {x : Addr} {e : Entry} (he : s.heap x = some e) (hq : Plain query) (he' : Plain e.query) :
    Hit s query x e ↔ queryKey e.query = queryKey query := by
  rw [← entryEquals_iff_key he' hq]
  refine ⟨Hit.equals, fun equals => ⟨he, ?_, equals⟩⟩
  rw [(h.keyed x e he).1]
  exact entryHash_eq_of_nil he' hq equals

/-! ### The map -/

/-- The answers of the cache by their keys, and the generation. -/
structure Spec where
  map : Lru Key (List Byte) (BitVec 32)
  generation : BitVec 32

def Spec.init : Spec := ⟨.empty, BitVec.allOnes 32⟩

/-- The age of an answer is from 0 up to `CONFIG_SECONDS`. -/
def Fresh (now since : BitVec 32) : Prop := 0 ≤ (now - since).toInt ∧ (now - since).toInt < 600

instance (now : BitVec 32) : DecidablePred (Fresh now) := fun _ => inferInstanceAs (Decidable (_ ∧ _))

/-- What a call returns, and what it does to the map. -/
noncomputable def Spec.exec (a : Spec) : Op → Option Result × Spec
  | .lookup query answersize now =>
      match a.map.lookup (Fresh now) (fun answer => answer.length ≤ answersize) (queryKey query) with
      | (.missing, m) => (some ⟨.notFound, none, none⟩, { a with map := m })
      | (.unfit answer, m) => (some ⟨.unsupported, some answer.length, none⟩, { a with map := m })
      | (.found answer, m) => (some ⟨.found, some answer.length, some answer⟩, { a with map := m })
  | .add query answer now _ => (none, { a with map := a.map.insert CONFIG_MAX_ENTRIES (queryKey query) answer now })
  | .reset g => (none, if a.generation = g then a else ⟨.empty, g⟩)

/-- The results of a sequence of calls. -/
noncomputable def Spec.run (a : Spec) : List Op → List (Option Result)
  | [] => []
  | op :: ops => (a.exec op).1 :: (a.exec op).2.run ops

/-- A call with a plain query, and with memory for a new entry. -/
def PlainOp : Op → Prop
  | .lookup query _ _ => Plain query
  | .add query _ _ calloc => Plain query ∧ calloc ≠ none
  | .reset _ => True

instance : DecidablePred PlainOp
  | .lookup query _ _ => inferInstanceAs (Decidable (checkQuery query = some []))
  | .add query _ _ calloc => inferInstanceAs (Decidable (checkQuery query = some [] ∧ calloc ≠ none))
  | .reset _ => inferInstanceAs (Decidable True)

/-! ### The map as a list -/

/-- The answers in the order of use, and the generation. -/
structure RecentSpec where
  map : Recent Key (List Byte) (BitVec 32)
  generation : BitVec 32

def RecentSpec.init : RecentSpec := ⟨⟨[], 0⟩, BitVec.allOnes 32⟩

def RecentSpec.exec (b : RecentSpec) : Op → Option Result × RecentSpec
  | .lookup query answersize now =>
      match b.map.lookup (Fresh now) (fun answer => answer.length ≤ answersize) (queryKey query) with
      | (.missing, m) => (some ⟨.notFound, none, none⟩, { b with map := m })
      | (.unfit answer, m) => (some ⟨.unsupported, some answer.length, none⟩, { b with map := m })
      | (.found answer, m) => (some ⟨.found, some answer.length, some answer⟩, { b with map := m })
  | .add query answer now _ => (none, { b with map := b.map.insert CONFIG_MAX_ENTRIES (queryKey query) answer now })
  | .reset g => (none, if b.generation = g then b else ⟨⟨[], 0⟩, g⟩)

def RecentSpec.run (b : RecentSpec) : List Op → List (Option Result)
  | [] => []
  | op :: ops => (b.exec op).1 :: (b.exec op).2.run ops

def RecentSpec.Of (b : RecentSpec) (a : Spec) : Prop := b.map.Of a.map ∧ b.generation = a.generation

/-- A call gives the same result on the list and on the map. -/
theorem RecentSpec.Of.exec {b : RecentSpec} {a : Spec} (h : b.Of a) (op : Op) :
    (b.exec op).1 = (a.exec op).1 ∧ (b.exec op).2.Of (a.exec op).2 := by
  obtain ⟨map, generation⟩ := h
  cases op with
  | lookup query answersize now =>
      obtain ⟨answer, next⟩ := map.lookup (Fresh now) (fun answer => answer.length ≤ answersize) (queryKey query)
      unfold RecentSpec.exec Spec.exec
      dsimp only
      generalize b.map.lookup (Fresh now) (fun answer => answer.length ≤ answersize) (queryKey query) = x at answer next
      generalize a.map.lookup (Fresh now) (fun answer => answer.length ≤ answersize) (queryKey query) = y at answer next
      obtain ⟨x, m⟩ := x
      obtain ⟨y, m'⟩ := y
      obtain rfl : x = y := answer
      cases x with
      | missing => exact ⟨rfl, next, generation⟩
      | unfit answer => exact ⟨rfl, next, generation⟩
      | found answer => exact ⟨rfl, next, generation⟩
  | add query answer now calloc => exact ⟨rfl, map.insert (by decide) _ _ _, generation⟩
  | reset g =>
      refine ⟨rfl, ?_⟩
      unfold RecentSpec.exec Spec.exec
      dsimp only
      rw [generation]
      split
      next => exact ⟨map, generation⟩
      next => exact ⟨⟨represents_empty, rfl⟩, rfl⟩

theorem RecentSpec.Of.run {b : RecentSpec} {a : Spec} (h : b.Of a) (ops : List Op) : b.run ops = a.run ops := by
  induction ops generalizing a b with
  | nil => rfl
  | cons op ops ih =>
      obtain ⟨result, next⟩ := h.exec op
      rw [RecentSpec.run, Spec.run, result, ih next]

theorem recentSpec_init_of : RecentSpec.init.Of Spec.init := ⟨⟨represents_empty, rfl⟩, rfl⟩

/-! ### The simulation -/

/-- The item of an entry that was last used at `u`. -/
def recordOf (e : Entry) (u : ℕ) : Key × Item (List Byte) (BitVec 32) := (queryKey e.query, ⟨e.answer, e.when, u⟩)

def recordAt (heap : Addr → Option Entry) (used : Addr → ℕ) (x : Addr) : Key × Item (List Byte) (BitVec 32) :=
  recordOf ((heap x).getD ⟨0, [], [], 0, 0⟩) (used x)

/-- The entries in the order of the ring represent the map. -/
structure Sim (s : Cache) (mru : List Addr) (a : Spec) : Prop where
  generation : s.generation = a.generation
  plain : ∀ x e, s.heap x = some e → Plain e.query
  items : ∃ used, Represents a.map (mru.map (recordAt s.heap used))

theorem recordAt_eq {heap : Addr → Option Entry} {used : Addr → ℕ} {x : Addr} {e : Entry} (h : heap x = some e) :
    recordAt heap used x = recordOf e (used x) := by
  rw [recordAt, h, Option.getD_some]

theorem map_recordAt_congr {heap heap' : Addr → Option Entry} {used used' : Addr → ℕ} {l : List Addr}
    (hheap : ∀ x ∈ l, heap' x = heap x) (hused : ∀ x ∈ l, used' x = used x) :
    l.map (recordAt heap' used') = l.map (recordAt heap used) := by
  refine List.map_congr_left fun x hx => ?_
  rw [recordAt, recordAt, hheap x hx, hused x hx]

theorem fresh_iff {now since : BitVec 32} : Fresh now since ↔ ¬ CONFIG_SECONDS ≤ now - since := by
  unfold Fresh CONFIG_SECONDS
  rw [BitVec.le_def, BitVec.toInt_eq_toNat_cond]
  have hlt := (now - since).isLt
  have h600 : (600#32).toNat = 600 := rfl
  rw [h600]
  split <;> omega

section Sim

variable {s s' : Cache} {mru mru' m₁ m₂ : List Addr} {chain : Chains} {a : Spec} {query : List Byte} {x : Addr}
  {e : Entry} {used : Addr → ℕ}

/-- A key without an entry is not in the map. -/
theorem Inv.item_eq_none (h : Inv s mru chain) (plain : ∀ x e, s.heap x = some e → Plain e.query)
    (rep : Represents a.map (mru.map (recordAt s.heap used))) (hq : Plain query) (absent : ∀ x e, ¬ Hit s query x e) :
    a.map.item (queryKey query) = none := by
  rw [Option.eq_none_iff_forall_not_mem]
  intro i hi
  obtain ⟨x, hx, hrec⟩ := List.mem_map.1 (rep.mem_of_item hi)
  obtain ⟨e, he⟩ := Option.isSome_iff_exists.1 ((h.live x).2 hx)
  rw [recordAt_eq he] at hrec
  exact absent x e ((hit_iff_key h he hq (plain x e he)).2 (Prod.mk.inj hrec).1)

/-- A hit is the item of its key. -/
theorem Inv.item_of_hit (h : Inv s mru chain) (plain : ∀ x e, s.heap x = some e → Plain e.query)
    (rep : Represents a.map (mru.map (recordAt s.heap used))) (hq : Plain query) (hit : Hit s query x e) :
    a.map.item (queryKey query) = some ⟨e.answer, e.when, used x⟩ := by
  have hx : x ∈ mru := (h.live x).1 (Option.isSome_iff_exists.2 ⟨e, hit.entry⟩)
  rw [rep.item, ← (hit_iff_key h hit.entry hq (plain x e hit.entry)).1 hit]
  exact List.mem_map.2 ⟨x, hx, recordAt_eq hit.entry⟩

theorem map_split (he : s.heap x = some e) (hkey : queryKey e.query = queryKey query) :
    (m₁ ++ x :: m₂).map (recordAt s.heap used) = m₁.map (recordAt s.heap used) ++
      (queryKey query, ⟨e.answer, e.when, used x⟩) :: m₂.map (recordAt s.heap used) := by
  rw [List.map_append, List.map_cons, recordAt_eq he, recordOf, hkey]

theorem map_others (used : Addr → ℕ) (v : Option Entry) (n : ℕ) (nodup : (m₁ ++ x :: m₂).Nodup) :
    (m₁ ++ m₂).map (recordAt (Function.update s.heap x v) (Function.update used x n)) =
      m₁.map (recordAt s.heap used) ++ m₂.map (recordAt s.heap used) := by
  rw [← List.map_append]
  have ne : ∀ y ∈ m₁ ++ m₂, y ≠ x := fun y hy => ((mem_remove nodup).1 hy).2
  exact map_recordAt_congr (fun y hy => Function.update_of_ne (ne y hy) _ _)
    fun y hy => Function.update_of_ne (ne y hy) _ _

/-- What an eviction leaves represents what it leaves of the map. -/
theorem Inv.evict (h : Inv s mru chain) {kept : List Addr} {heap : Addr → Option Entry}
    (rep : Represents a.map (mru.map (recordAt s.heap used))) (evicts : Evicts s mru kept heap)
    (none : a.map.item (queryKey query) = none) (answer : List Byte) (now : BitVec 32) :
    ∃ m, a.map.insert CONFIG_MAX_ENTRIES (queryKey query) answer now = m.use (queryKey query) answer now ∧
      Represents m (kept.map (recordAt heap used)) ∧ m.item (queryKey query) = .none ∧
      (∀ x ∈ kept, (heap x).isSome) ∧ ∀ x e, heap x = some e → s.heap x = some e := by
  have notMem : queryKey query ∉ a.map.keys := by
    intro hk
    have hk : (a.map.item (queryKey query)).isSome := hk
    rw [none] at hk
    cases hk
  have count : a.map.keys.ncard = mru.length := by rw [rep.ncard_keys, List.length_map]
  unfold Lru.insert
  rw [if_neg notMem, count]
  rcases evicts with ⟨room, rfl, rfl⟩ | ⟨x, full, rfl, rfl⟩
  · exact ⟨a.map, if_neg (Nat.not_le_of_lt room), rep, none, fun x hx => (h.live x).2 hx, fun _ _ => id⟩
  · obtain ⟨e, he⟩ := Option.isSome_iff_exists.1 ((h.live x).2 (List.mem_append_right _ List.mem_cons_self))
    have ne : ∀ y ∈ kept, y ≠ x := fun y hy =>
      ((mem_remove (r := []) h.nodup).1 (List.mem_append_left [] hy)).2
    have heap : ∀ y ∈ kept, Function.update s.heap x Option.none y = s.heap y := fun y hy =>
      Function.update_of_ne (ne y hy) _ _
    rw [map_split he rfl] at rep
    refine ⟨a.map.evict, if_pos full, ?_, ?_, fun y hy => ?_, fun y f hf => ?_⟩
    · rw [map_recordAt_congr heap fun _ _ => rfl]
      exact rep.evict
    · exact item_evict_of_none none
    · rw [heap y hy]
      exact (h.live y).2 (List.mem_append_left _ hy)
    · by_cases hy : y = x
      · rw [hy, Function.update_self] at hf
        cases hf
      · rwa [Function.update_of_ne hy] at hf

/-- A call of the cache is a call of the map. -/
theorem Sim.exec (h : Sim s mru a) (inv : Inv s mru chain) {op : Op} {r : Option Result} (plainOp : PlainOp op)
    (effect : Effect s s' mru op r mru') : (a.exec op).1 = r ∧ Sim s' mru' (a.exec op).2 := by
  obtain ⟨generation, plain, used, rep⟩ := h
  cases effect with
  | malformed unchecked _ => exact absurd (unchecked.symm.trans plainOp) nofun
  | invalid unchecked _ => exact absurd (unchecked.symm.trans plainOp.1) nofun
  | @miss query size now checked absent same =>
      have none := inv.item_eq_none plain rep plainOp absent
      have run : a.exec (.lookup query size now) = (some ⟨.notFound, .none, .none⟩, a) := by
        simp only [Spec.exec, Lru.lookup, none]
      rw [run, same]
      exact ⟨rfl, generation, plain, used, rep⟩
  | @stale query size now m₁ m₂ x e checked split hit old heap generation' =>
      have item := inv.item_of_hit plain rep plainOp hit
      have hkey := (hit_iff_key inv hit.entry plainOp (plain x e hit.entry)).1 hit
      have run : a.exec (.lookup query size now) =
          (some ⟨.notFound, .none, .none⟩, { a with map := a.map.remove (queryKey query) }) := by
        have notFresh : ¬ Fresh now e.when := fun hf => fresh_iff.1 hf old
        simp only [Spec.exec, Lru.lookup, item, if_pos notFresh]
      rw [run]
      subst split
      rw [map_split hit.entry hkey] at rep
      refine ⟨rfl, generation'.trans generation, fun y f hf => ?_, used, ?_⟩
      · rw [heap] at hf
        by_cases hy : y = x
        · rw [hy, Function.update_self] at hf
          cases hf
        · rw [Function.update_of_ne hy] at hf
          exact plain y f hf
      · have others := map_others (s := s) used .none (used x) inv.nodup
        rw [Function.update_eq_self] at others
        rw [heap, others]
        exact rep.remove
  | @long query size now x e checked hit young length same =>
      have item := inv.item_of_hit plain rep plainOp hit
      have run : a.exec (.lookup query size now) =
          (some ⟨.unsupported, some e.answer.length, .none⟩, a) := by
        simp only [Spec.exec, Lru.lookup, item, if_neg (not_not.2 (fresh_iff.2 young)),
          if_pos (Nat.not_le_of_lt length)]
      rw [run, same]
      exact ⟨rfl, generation, plain, used, rep⟩
  | @found query size now m₁ m₂ x e checked split hit young length heap generation' =>
      have item := inv.item_of_hit plain rep plainOp hit
      have hkey := (hit_iff_key inv hit.entry plainOp (plain x e hit.entry)).1 hit
      have run : a.exec (.lookup query size now) = (some ⟨.found, some e.answer.length, some e.answer⟩,
          { a with map := a.map.use (queryKey query) e.answer e.when }) := by
        simp only [Spec.exec, Lru.lookup, item, if_neg (not_not.2 (fresh_iff.2 young)), if_neg (not_not.2 length)]
      rw [run]
      subst split
      rw [map_split hit.entry hkey] at rep
      refine ⟨rfl, generation'.trans generation, fun y f hf => plain y f (heap ▸ hf),
        Function.update used x a.map.clock, ?_⟩
      have others := map_others (s := s) used (s.heap x) a.map.clock inv.nodup
      rw [Function.update_eq_self] at others
      rw [heap, List.map_cons, others, recordAt_eq hit.entry, recordOf, Function.update_self, hkey]
      exact rep.use e.answer e.when
  | @present query answer now calloc x e checked hit same =>
      have item := inv.item_of_hit plain rep plainOp.1 hit
      have hmem : queryKey query ∈ a.map.keys := Option.isSome_iff_exists.2 ⟨_, item⟩
      have run : a.exec (.add query answer now calloc) = (none, a) := by
        simp only [Spec.exec, Lru.insert, if_pos hmem]
      rw [run, same]
      exact ⟨rfl, generation, plain, used, rep⟩
  | noMemory => exact absurd rfl plainOp.2
  | @added query answer now kept heap y id checked absent evicts fresh new generation' =>
      have none := inv.item_eq_none plain rep plainOp.1 absent
      obtain ⟨m, insert, rep', none', live, sub⟩ := inv.evict rep evicts none answer now
      have run : a.exec (.add query answer now (some y)) =
          (.none, { a with map := m.use (queryKey query) answer now }) := by
        simp only [Spec.exec, insert]
      rw [run]
      have ne : ∀ x ∈ kept, x ≠ y := by
        rintro x hx rfl
        have hlive := live x hx
        rw [fresh] at hlive
        cases hlive
      refine ⟨rfl, generation'.trans generation, fun x f hf => ?_, Function.update used y m.clock, ?_⟩
      · rw [new] at hf
        by_cases hx : x = y
        · rw [hx, Function.update_self] at hf
          rw [← Option.some.inj hf]
          exact plainOp.1
        · rw [Function.update_of_ne hx] at hf
          exact plain x f (sub x f hf)
      · have front : recordAt s'.heap (Function.update used y m.clock) y =
            (queryKey query, ⟨answer, now, m.clock⟩) := by
          rw [new, recordAt, Function.update_self, Function.update_self]
          rfl
        have others : ∀ x ∈ kept, s'.heap x = heap x := fun x hx => by rw [new, Function.update_of_ne (ne x hx)]
        rw [List.map_cons, front, map_recordAt_congr others fun x hx => Function.update_of_ne (ne x hx) _ used]
        exact rep'.use_new none' answer now
  | sameGeneration same =>
      have run : a.exec (.reset s.generation) = (none, a) := by
        simp only [Spec.exec, if_pos generation.symm]
      rw [run, same]
      exact ⟨rfl, generation, plain, used, rep⟩
  | @flushed g other empty generation' =>
      have run : a.exec (.reset g) = (none, ⟨.empty, g⟩) := by
        have ne : a.generation ≠ g := generation ▸ other
        simp only [Spec.exec, if_neg ne]
      rw [run]
      refine ⟨rfl, generation', fun x e he => ?_, used, represents_empty⟩
      rw [empty x] at he
      cases he

end Sim

theorem sim_create : Sim resolvCacheCreate [] Spec.init where
  generation := rfl
  plain _ _ he := nomatch he
  items := ⟨fun _ => 0, represents_empty⟩

theorem Sim.run {s s' : Cache} {mru : List Addr} {chain : Chains} {a : Spec} {calls : List (Op × Option Result)}
    (h : Sim s mru a) (inv : Inv s mru chain) (run : Run s calls s') (plain : ∀ c ∈ calls, PlainOp c.1) :
    a.run (calls.map Prod.fst) = calls.map Prod.snd := by
  induction run generalizing mru chain a with
  | nil s => rfl
  | @cons s s' s'' op r calls allowed run _ ih =>
      obtain ⟨_, _, mru', chain', run', inv', effect⟩ := inv.exec allowed
      obtain ⟨rfl, rfl⟩ := Prod.mk.inj (Except.ok.inj (run.symm.trans run'))
      obtain ⟨result, sim⟩ := h.exec inv (plain _ List.mem_cons_self) effect
      have rest := ih sim inv' fun c hc => plain c (List.mem_cons_of_mem _ hc)
      rw [List.map_cons, List.map_cons, Spec.run, rest, result]

/-- Every sequence of plain calls that is allowed has a run, and the results of each of its runs are those of the
map. -/
theorem run_refines {ops : List Op} (allowed : AllowedFrom resolvCacheCreate ops) (plain : ∀ op ∈ ops, PlainOp op) :
    (∃ calls s, Run resolvCacheCreate calls s ∧ calls.map Prod.fst = ops) ∧
      ∀ calls s, Run resolvCacheCreate calls s → calls.map Prod.fst = ops →
        calls.map Prod.snd = Spec.init.run ops := by
  refine ⟨inv_create.exists_run allowed, fun calls s run same => ?_⟩
  subst same
  exact (sim_create.run inv_create run fun c hc => plain _ (List.mem_map_of_mem hc)).symm

/-- The results are a hit, none for the evicted query and none for the stale one, a hit, and none after the reset. -/
theorem run_refines_busy : ∃ calls s, Run resolvCacheCreate calls s ∧ calls.map Prod.fst = busy ∧
    calls.map Prod.snd = List.replicate CONFIG_MAX_ENTRIES none ++
      [some ⟨.found, some 1, some [0]⟩, none, some ⟨.notFound, none, none⟩, some ⟨.notFound, none, none⟩,
        some ⟨.notFound, none, none⟩, some ⟨.found, some 1, some [3]⟩, none, some ⟨.notFound, none, none⟩] := by
  have refines := run_refines allowedFrom_busy (by decide)
  obtain ⟨calls, s, run, ops⟩ := refines.1
  refine ⟨calls, s, run, ops, (refines.2 calls s run ops).trans ?_⟩
  rw [← recentSpec_init_of.run]
  decide +kernel

end Bionic.DnsCache
