import Bionic.DnsCache

/-! # Flushes of the DNS cache (`res_state.c`, `_resolv_cache_reset`)

Each thread compares the serial number of `net.change` with the one it has seen, takes the new one, and then calls
`_resolv_cache_reset` with it.  The cache compares that number for inequality with its generation only.  A thread that
is late with an old number therefore flushes the cache, and the next call with the new number flushes it once more.

`flush_once_iff` says that every generation is flushed at most once if and only if the calls for no generation have a
call for another one between them. -/

namespace Bionic.DnsCache

open StateExcept

/-! ### Flushes of a sequence of calls -/

section Flushes

variable {α : Type} [DecidableEq α] {c g h h' x : α} {gs : List α}

/-- The calls that differ from the generation they meet. -/
def flushes (c : α) : List α → List α
  | [] => []
  | g :: gs => if c ≠ g then g :: flushes g gs else flushes c gs

theorem flushes_concat (c g : α) (gs : List α) :
    flushes c (gs ++ [g]) = flushes c gs ++ if (c :: gs).getLast (by simp) ≠ g then [g] else [] := by
  induction gs generalizing c with
  | nil => rfl
  | cons x gs ih =>
      have hlast : (c :: x :: gs).getLast (by simp) = (x :: gs).getLast (by simp) := List.getLast_cons _
      rw [List.cons_append, flushes, flushes, hlast]
      by_cases hx : c = x
      · subst hx
        rw [if_neg (not_not.2 rfl), if_neg (not_not.2 rfl), ih]
      · rw [if_pos hx, if_pos hx, ih, List.cons_append]

theorem flushes_cons_self : flushes c (c :: gs) = flushes c gs := if_neg (not_not.2 rfl)

theorem flushes_cons_of_ne (hne : c ≠ x) : flushes c (x :: gs) = x :: flushes x gs := if_pos hne

/-- A call with another generation than `g` leaves the flushes for `g` to the calls behind it. -/
theorem count_flushes_cons (gs : List α) (hc : c ≠ g) (hx : x ≠ g) :
    ∃ d, d ≠ g ∧ (flushes c (x :: gs)).count g = (flushes d gs).count g := by
  by_cases hcx : c = x
  · subst hcx
    exact ⟨c, hc, by rw [flushes_cons_self]⟩
  · exact ⟨x, hx, by rw [flushes_cons_of_ne hcx, List.count_cons_of_ne hx]⟩

theorem one_le_count_flushes (hc : c ≠ g) : 1 ≤ (flushes c gs).count g ↔ g ∈ gs := by
  induction gs generalizing c with
  | nil => simp [flushes]
  | cons x gs ih =>
      by_cases hx : x = g
      · subst hx
        rw [flushes_cons_of_ne hc, List.count_cons_self]
        exact ⟨fun _ => List.mem_cons_self, fun _ => Nat.le_add_left 1 _⟩
      · obtain ⟨d, hd, count⟩ := count_flushes_cons gs hc hx
        rw [count, ih hd, List.mem_cons]
        exact ⟨.inr, fun hm => hm.resolve_left fun he => hx he.symm⟩

theorem one_le_count_flushes_self :
    1 ≤ (flushes g gs).count g ↔ ∃ h, h ≠ g ∧ [h, g].Sublist gs := by
  induction gs with
  | nil => simp [flushes]
  | cons x gs ih =>
      by_cases hx : x = g
      · subst hx
        rw [flushes_cons_self, ih]
        refine exists_congr fun h => and_congr_right fun hne => ?_
        exact ⟨.cons x, fun hs => (List.Sublist.of_cons_of_ne hne hs)⟩
      · rw [flushes_cons_of_ne (Ne.symm hx), List.count_cons_of_ne hx, one_le_count_flushes hx]
        constructor
        · exact fun hm => ⟨x, hx, (List.singleton_sublist.2 hm).cons_cons x⟩
        · rintro ⟨h, -, hs⟩
          have hm : g ∈ x :: gs := hs.subset (List.mem_cons_of_mem _ List.mem_cons_self)
          exact (List.mem_cons.1 hm).resolve_left fun he => hx he.symm

theorem two_le_count_flushes (hc : c ≠ g) :
    2 ≤ (flushes c gs).count g ↔ ∃ h, h ≠ g ∧ [g, h, g].Sublist gs := by
  induction gs generalizing c with
  | nil => simp [flushes]
  | cons x gs ih =>
      by_cases hx : x = g
      · subst hx
        rw [flushes_cons_of_ne hc, List.count_cons_self, Nat.succ_le_succ_iff, one_le_count_flushes_self]
        exact exists_congr fun h => and_congr_right fun _ => List.cons_sublist_cons.symm
      · obtain ⟨d, hd, count⟩ := count_flushes_cons gs hc hx
        rw [count, ih hd]
        refine exists_congr fun h => and_congr_right fun _ => ?_
        exact ⟨.cons x, fun hs => List.Sublist.of_cons_of_ne (Ne.symm hx) hs⟩

theorem two_le_count_flushes_self :
    2 ≤ (flushes g gs).count g ↔ ∃ h h', h ≠ g ∧ h' ≠ g ∧ [h, g, h', g].Sublist gs := by
  induction gs with
  | nil => simp [flushes]
  | cons x gs ih =>
      by_cases hx : x = g
      · subst hx
        rw [flushes_cons_self, ih]
        refine exists_congr fun h => exists_congr fun h' => and_congr_right fun hne => and_congr_right fun _ => ?_
        exact ⟨.cons x, fun hs => List.Sublist.of_cons_of_ne hne hs⟩
      · rw [flushes_cons_of_ne (Ne.symm hx), List.count_cons_of_ne hx, two_le_count_flushes hx]
        constructor
        · rintro ⟨h', hne, hs⟩
          exact ⟨x, h', hx, hne, hs.cons_cons x⟩
        · rintro ⟨h, h', -, hne, hs⟩
          exact ⟨h', hne, List.Sublist.of_cons_of_ne (Ne.symm hx) ((List.sublist_cons_self h _).trans hs)⟩

/-- A generation is flushed twice if and only if calls for it have another generation before them, and between them. -/
theorem two_le_count_flushes_iff :
    2 ≤ (flushes c gs).count g ↔ ∃ h h', h ≠ g ∧ h' ≠ g ∧ [h, g, h', g].Sublist (c :: gs) := by
  by_cases hc : c = g
  · subst hc
    rw [two_le_count_flushes_self]
    refine exists_congr fun h => exists_congr fun h' => and_congr_right fun hne => and_congr_right fun _ => ?_
    exact ⟨.cons c, fun hs => List.Sublist.of_cons_of_ne hne hs⟩
  · rw [two_le_count_flushes hc]
    constructor
    · rintro ⟨h', hne, hs⟩
      exact ⟨c, h', hc, hne, hs.cons_cons c⟩
    · rintro ⟨h, h', -, hne, hs⟩
      exact ⟨h', hne, List.Sublist.of_cons_of_ne (Ne.symm hc) ((List.sublist_cons_self h _).trans hs)⟩

end Flushes

/-! ### The threads -/

/-- Where a thread is in `_res_thread_get`. -/
inductive Phase
  | idle
  /-- `rt->_serial` differs from the serial number of the property. -/
  | changed
  /-- `rt->_serial` is the new number, `_resolv_cache_reset` has not been called. -/
  | taken
deriving DecidableEq, Repr

structure ResThread where
  serial : BitVec 32
  phase : Phase
deriving DecidableEq, Repr

/-- The property `net.change`, the threads and the cache.  The last two fields record the calls of
`_resolv_cache_reset`, and those that have flushed the cache. -/
structure System where
  netChange : Option (BitVec 32)
  thread : ℕ → ResThread
  cache : Cache
  calls : List (BitVec 32)
  flushed : List (BitVec 32)

def System.init : System where
  netChange := none
  thread _ := ⟨0, .idle⟩
  cache := resolvCacheCreate
  calls := []
  flushed := []

namespace System

variable (s : System)

def setThread (t : ℕ) (r : ResThread) : System := { s with thread := Function.update s.thread t r }

/-- The thread `t` has called `_resolv_cache_reset`, which leaves the cache `cache`. -/
def afterReset (t : ℕ) (cache : Cache) : System :=
  { s.setThread t ⟨(s.thread t).serial, .idle⟩ with
    cache := cache
    calls := s.calls ++ [(s.thread t).serial]
    flushed := s.flushed ++ if s.cache.generation ≠ (s.thread t).serial then [(s.thread t).serial] else [] }

end System

/-- A step of one thread, or a new serial number. -/
inductive System.Step (s : System) : System → Prop
  | change {v} (grows : ∀ old ∈ s.netChange, old.toNat < v.toNat) : Step s { s with netChange := some v }
  | compare {t v} (idle : (s.thread t).phase = .idle) (found : s.netChange = some v)
      (differs : (s.thread t).serial ≠ v) : Step s (s.setThread t ⟨(s.thread t).serial, .changed⟩)
  | take {t v} (changed : (s.thread t).phase = .changed) (found : s.netChange = some v) :
      Step s (s.setThread t ⟨v, .taken⟩)
  | reset {t cache} (taken : (s.thread t).phase = .taken)
      (run : resolvCacheReset s.cache (s.thread t).serial = .ok cache) : Step s (s.afterReset t cache)
  | use {op r cache} (other : ∀ g, op ≠ .reset g) (allowed : Allowed s.cache op)
      (run : exec s.cache op = .ok (r, cache)) : Step s { s with cache := cache }

inductive System.Reach : System → Prop
  | init : Reach .init
  | step {s s'} (h : Reach s) (step : System.Step s s') : Reach s'

/-! ### The flushes of a run -/

theorem resolvCacheReset_generation {s s' : Cache} {g : BitVec 32} (h : resolvCacheReset s g = .ok s') :
    s'.generation = g := by
  unfold resolvCacheReset at h
  split at h
  · obtain ⟨t, -, h⟩ := bind_eq_ok.1 h
    rw [← pure_eq_ok.1 h]
  · next hg =>
    rw [← pure_eq_ok.1 h]
    exact not_not.1 hg

/-- Only `_resolv_cache_reset` changes the generation. -/
theorem Effect.generation {s s' : Cache} {mru mru' : List Addr} {op : Op} {r : Option Result}
    (h : Effect s s' mru op r mru') (other : ∀ g, op ≠ .reset g) : s'.generation = s.generation := by
  cases h with
  | malformed _ same => rw [same]
  | miss _ _ same => rw [same]
  | stale _ _ _ _ _ generation => exact generation
  | long _ _ _ _ same => rw [same]
  | found _ _ _ _ _ _ generation => exact generation
  | invalid _ same => rw [same]
  | present _ _ same => rw [same]
  | noMemory _ _ _ generation => exact generation
  | added _ _ _ _ _ generation => exact generation
  | sameGeneration => exact absurd rfl (other _)
  | flushed => exact absurd rfl (other _)

/-- The cache is well formed, has the generation of the last call, and was flushed by the calls that differed. -/
structure Recorded (s : System) : Prop where
  inv : ∃ mru chain, Inv s.cache mru chain
  generation : s.cache.generation = (BitVec.allOnes 32 :: s.calls).getLast (by simp)
  flushed : s.flushed = flushes (BitVec.allOnes 32) s.calls

theorem Recorded.step {s s' : System} (h : Recorded s) (step : System.Step s s') : Recorded s' := by
  obtain ⟨⟨mru, chain, inv⟩, generation, flushed⟩ := h
  cases step with
  | change grows => exact ⟨⟨mru, chain, inv⟩, generation, flushed⟩
  | compare idle found differs => exact ⟨⟨mru, chain, inv⟩, generation, flushed⟩
  | take changed found => exact ⟨⟨mru, chain, inv⟩, generation, flushed⟩
  | @reset t cache taken run =>
      obtain ⟨cache', mru', chain', run', inv', -⟩ := inv.resolvCacheReset_spec (s.thread t).serial
      obtain rfl : cache = cache' := Except.ok.inj (run.symm.trans run')
      refine ⟨⟨mru', chain', inv'⟩, ?_, ?_⟩
      · apply (resolvCacheReset_generation run).trans
        simp [System.afterReset]
      · show s.flushed ++ _ = flushes (BitVec.allOnes 32) (s.calls ++ [(s.thread t).serial])
        rw [flushes_concat, flushed, generation]
  | @use op r cache other allowed run =>
      obtain ⟨r', cache', mru', chain', run', inv', effect⟩ := inv.exec allowed
      obtain ⟨rfl, rfl⟩ := Prod.mk.inj (Except.ok.inj (run.symm.trans run'))
      exact ⟨⟨mru', chain', inv'⟩, (effect.generation other).trans generation, flushed⟩

theorem System.Reach.recorded {s : System} (h : s.Reach) : Recorded s := by
  induction h with
  | init => exact ⟨⟨_, _, inv_create⟩, rfl, rfl⟩
  | step _ step ih => exact ih.step step

/-- Each generation has been flushed at most once, if and only if the calls for no generation have another one before
them and another one between them.  The generation that the cache starts with counts as a call. -/
theorem flush_once_iff {s : System} (h : s.Reach) : (∀ g, s.flushed.count g ≤ 1) ↔
    ∀ g h h', h ≠ g → h' ≠ g → ¬ [h, g, h', g].Sublist (BitVec.allOnes 32 :: s.calls) := by
  refine forall_congr' fun g => ?_
  rw [h.recorded.flushed, ← Nat.not_lt]
  apply (not_congr (Iff.trans Nat.succ_le_iff.symm two_le_count_flushes_iff)).trans
  simp only [not_exists, not_and]

/-! ### A late thread -/

theorem System.Reach.take {s : System} (h : s.Reach) {t : ℕ} {v : BitVec 32} (idle : (s.thread t).phase = .idle)
    (found : s.netChange = some v) (differs : (s.thread t).serial ≠ v) : (s.setThread t ⟨v, .taken⟩).Reach := by
  have changed : ((s.setThread t ⟨(s.thread t).serial, .changed⟩).thread t).phase = .changed := by
    simp [System.setThread]
  have taken := (h.step (.compare idle found differs)).step (.take changed found)
  simpa only [System.setThread, Function.update_idem] using taken

theorem System.Reach.reset {s : System} (h : s.Reach) {t : ℕ} (taken : (s.thread t).phase = .taken) :
    ∃ cache, (s.afterReset t cache).Reach := by
  obtain ⟨mru, chain, inv⟩ := h.recorded.inv
  obtain ⟨cache, -, -, run, -⟩ := inv.resolvCacheReset_spec (s.thread t).serial
  exact ⟨cache, h.step (.reset taken run)⟩

/-- One thread resets the cache. -/
theorem flush_once_single : ∃ s : System, s.Reach ∧ s.calls = [1] ∧ ∀ g, s.flushed.count g ≤ 1 := by
  have h := (System.Reach.init.step (.change (v := 1) nofun)).take (t := 0) rfl rfl (by decide)
  obtain ⟨cache, h⟩ := h.reset (t := 0) rfl
  refine ⟨_, h, rfl, (flush_once_iff h).2 fun g h h' _ _ hs => ?_⟩
  have four : 4 ≤ 2 := hs.length_le
  exact absurd four (by decide)

/-- The thread 0 takes the number 1, the thread 1 takes 2 and resets the cache, then the thread 0 resets it, and a
third thread that has seen the number 2 flushes it once more. -/
theorem flush_twice : ∃ s : System, s.Reach ∧ s.calls = [2, 1, 2] ∧ s.flushed.count 2 = 2 := by
  have h := (System.Reach.init.step (.change (v := 1) nofun)).take (t := 0) rfl rfl (by decide)
  have h := (h.step (.change (v := 2) (by rintro _ ⟨⟩; decide))).take (t := 1) rfl rfl (by decide)
  obtain ⟨cache₁, h⟩ := h.reset (t := 1) rfl
  obtain ⟨cache₀, h⟩ := h.reset (t := 0) rfl
  have differs : (0 : BitVec 32) ≠ 2 := by decide
  have h := h.take (t := 2) rfl rfl differs
  obtain ⟨cache₂, h⟩ := h.reset (t := 2) rfl
  have count : (flushes (BitVec.allOnes 32) [2, 1, 2]).count (2 : BitVec 32) = 2 := by decide
  exact ⟨_, h, rfl, h.recorded.flushed ▸ count⟩

end Bionic.DnsCache
