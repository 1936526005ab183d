import Bionic.ThreadKeys

/-! # The end of a descriptor

A descriptor is taken out of the list and freed by its own thread if that is detached, by the last joiner, or by the
join of a zombie.  `reclaimed_once` says that this happens once, and that it has happened when the thread is over and
has been joined or detached, provided that each `pthread_detach` comes in time for the thread to see it or leaves the
descriptor to the joiners.  If, besides, the last joiner of a thread always comes back after the thread has stored its
value, then no freed descriptor is accessed (`Reach.tidy`). -/

namespace Bionic.Threads

variable {T : Type} [DecidableEq T]

/-! ### Freed once -/

/-- A thread is detached before it has tested the flag and while nobody waits for it, or after that test and while
somebody waits for it. -/
def detachesInTime (s : Sys T) : Act T → Bool
  | .detach _ u =>
      !(u ∈ s.list && !(s.desc u).detached) ||
        (s.desc u).joinCount == 0 && (s.pc u).phase.untested ||
        decide (0 < (s.desc u).joinCount) && !(s.pc u).phase.untested
  | _ => true

namespace Life

variable {l l' : Life T} {k : Kind}

/-- `detachesInTime`, seen from the descriptor. -/
def DetachedInTime (k : Kind) (l : Life T) : Prop :=
  k = .detach → l.listed → l.desc.detached = false →
    l.desc.joinCount = 0 ∧ l.phase.untested = true ∨ 0 < l.desc.joinCount ∧ l.phase.untested = false

/-- Somebody is there to remove the descriptor, or it is removed. -/
def Cared (l : Life T) : Prop := 0 < l.desc.joinCount ∨ ¬ l.listed

/-- A join of the thread has got its value. -/
def HasJoined (l : Life T) : Prop := 0 < l.joins ∨ ∃ t v, l.joiner t = .done v

/-- Who frees the descriptor. -/
structure Reclaimed (l : Life T) : Prop extends Inv l where
  removed : l.removed = 0 ∨ ¬ l.listed ∧ l.removed = 1
  freed : l.freed = 0 ∨ ¬ l.listed ∧ l.phase ≠ .free ∧ l.freed = 1
  /-- A thread that will free its own descriptor. -/
  owner : l.desc.detached = true → l.phase.untested = true ∨ l.phase = .remove →
    l.listed ∧ l.desc.joinCount = 0
  path : l.Detached → l.desc.detached = true ∧ l.desc.joinCount = 0
  listed : 0 < l.desc.joinCount → l.listed
  detached : l.desc.detached = true → l.phase = .lock ∨ l.stored ≠ none → l.Cared
  joined : l.HasJoined → l.Cared
  new : l.phase = .fresh → l.removed = 0 ∧ l.freed = 0 ∧ l.joins = 0

omit [DecidableEq T] in
theorem Reclaimed.of_out (inv : Inv l) (joiner : ∀ t, l.joiner t = .out) (stored : l.stored = none)
    (counts : l.removed = 0 ∧ l.freed = 0 ∧ l.joins = 0) (count : l.desc.joinCount = 0)
    (phase : l.phase ≠ .lock ∧ ¬ l.Detached) (owner : l.desc.detached = true → l.listed) : Reclaimed l where
  toInv := inv
  removed := .inl counts.1
  freed := .inl counts.2.1
  owner := fun hd _ => ⟨owner hd, count⟩
  path := fun h => absurd h phase.2
  listed := fun h => by omega
  detached := fun _ h => h.elim (fun h => absurd h phase.1) fun h => absurd stored h
  joined := fun h => by
    cases h with
    | inl pos => exact absurd counts.2.2 (Nat.ne_of_gt pos)
    | inr done =>
        obtain ⟨t, v, e⟩ := done
        rw [joiner t] at e
        cases e
  new := fun _ => counts

omit [DecidableEq T] in
/-- Only the place of the thread changes, or the value and what goes with it. -/
theorem Reclaimed.of_phase (hi : Reclaimed l) (inv : Inv l') (joiner : l'.joiner = l.joiner)
    (listed : l'.listed = l.listed) (count : l'.desc.joinCount = l.desc.joinCount)
    (flag : l'.desc.detached = l.desc.detached)
    (counts : l'.removed = l.removed ∧ l'.freed = l.freed ∧ l'.joins = l.joins) (new : l'.phase ≠ .fresh)
    (free : l'.phase ≠ .free)
    (owner : l.desc.detached = true → l'.phase.untested = true ∨ l'.phase = .remove →
      l.phase.untested = true ∨ l.phase = .remove)
    (path : l'.Detached → l.desc.detached = true ∧ l.desc.joinCount = 0)
    (detached : l.desc.detached = true → l'.phase = .lock ∨ l'.stored ≠ none → l.Cared) : Reclaimed l' where
  toInv := inv
  removed := by rw [counts.1, listed]; exact hi.removed
  freed := by
    rw [counts.2.1, listed]
    exact hi.freed.imp_right fun h => ⟨h.1, free, h.2.2⟩
  owner := by
    rw [flag, listed, count]
    exact fun hd h => hi.owner hd (owner hd h)
  path := by rw [flag, count]; exact path
  listed := by rw [count, listed]; exact hi.listed
  detached := by
    unfold Cared
    rw [flag, count, listed]
    exact detached
  joined := by
    unfold Cared HasJoined
    rw [counts.2.2, joiner, count, listed]
    exact hi.joined
  new := fun h => absurd h new

omit [DecidableEq T] in
/-- A joiner moves, and nothing is removed. -/
theorem Reclaimed.of_joiner (hi : Reclaimed l) (inv : Inv l') (fresh : l.phase ≠ .fresh)
    (listed : l'.listed = l.listed) (phase : l'.phase = l.phase) (stored : l'.stored = l.stored)
    (flag : l'.desc.detached = l.desc.detached) (counts : l'.removed = l.removed ∧ l'.freed = l.freed)
    (count : l'.desc.joinCount = l.desc.joinCount ∨
      0 < l'.desc.joinCount ∧ l.listed ∧ (l.desc.detached = true → l.desc.joinCount ≠ 0))
    (joined : l'.HasJoined → l.HasJoined ∨ 0 < l'.desc.joinCount) : Reclaimed l' := by
  have kept (hd : l.desc.detached = true) (zero : l.desc.joinCount = 0) :
      l'.desc.joinCount = l.desc.joinCount := by
    cases count with
    | inl e => exact e
    | inr h => exact absurd zero (h.2.2 hd)
  have cared : l.Cared → l'.Cared := by
    unfold Cared
    rw [listed]
    cases count with
    | inl e => rw [e]; exact id
    | inr h => exact fun _ => .inl h.1
  refine ⟨inv, ?_, ?_, ?_, ?_, ?_, ?_, ?_, fun h => absurd (phase ▸ h) fresh⟩
  · rw [counts.1, listed]
    exact hi.removed
  · rw [counts.2, listed, phase]
    exact hi.freed
  · rw [flag, listed, phase]
    intro hd h
    obtain ⟨hl, zero⟩ := hi.owner hd h
    exact ⟨hl, (kept hd zero).trans zero⟩
  · unfold Detached Over
    rw [flag, phase, stored]
    intro h
    obtain ⟨hd, zero⟩ := hi.path h
    exact ⟨hd, (kept hd zero).trans zero⟩
  · rw [listed]
    cases count with
    | inl e => rw [e]; exact hi.listed
    | inr h => exact fun _ => h.2.1
  · rw [flag, phase, stored]
    exact fun hd h => cared (hi.detached hd h)
  · intro h
    cases joined h with
    | inl h => exact cared (hi.joined h)
    | inr h => exact .inl h

omit [DecidableEq T] in
/-- A joiner removes and frees the descriptor. -/
theorem Reclaimed.of_unlink (hi : Reclaimed l) (inv : Inv l') (was : l.listed) (listed : l'.listed = False)
    (phase : l'.phase = l.phase) (stored : l'.stored = l.stored) (flag : l'.desc.detached = l.desc.detached)
    (counts : l'.removed = l.removed + 1 ∧ l'.freed = l.freed + 1) (count : l'.desc.joinCount ≤ 0)
    (held : l.desc.detached = true → l.desc.joinCount ≠ 0) : Reclaimed l' := by
  have out : ¬ l'.listed := by rw [listed]; exact id
  have removed : l.removed = 0 := hi.removed.resolve_right fun h => h.1 was
  have freed : l.freed = 0 := hi.freed.resolve_right fun h => h.1 was
  refine ⟨inv, .inr ⟨out, by rw [counts.1, removed]⟩, .inr ⟨out, ?_, by rw [counts.2, freed]⟩, ?_, ?_, ?_,
    fun _ _ => .inr out, fun _ => .inr out, ?_⟩
  · rw [phase]
    exact fun h => hi.own (.inl h) was
  · rw [flag, phase]
    exact fun hd h => absurd (hi.owner hd h).2 (held hd)
  · unfold Detached Over
    rw [flag, phase, stored]
    exact fun h => absurd (hi.path h).2 (held (hi.path h).1)
  · exact fun h => absurd h (Int.not_lt.2 count)
  · rw [phase]
    exact fun h => absurd was (hi.fresh h).1

/-- A joiner moves, and has not got its value. -/
theorem HasJoined.of_setJoiner {t : T} {j : Joiner} (hj : ∀ v, j ≠ .done v) (h : (l.setJoiner t j).HasJoined) :
    l.HasJoined := by
  cases h with
  | inl pos => exact .inl pos
  | inr done =>
      obtain ⟨r, v, hr⟩ := done
      have hr : Function.update l.joiner t j r = .done v := hr
      by_cases hrt : r = t
      · rw [hrt, Function.update_self] at hr
        exact absurd hr (hj v)
      · rw [Function.update_of_ne hrt] at hr
        exact .inr ⟨r, v, hr⟩

theorem Reclaimed.step (hi : Reclaimed l) (h : Step l k l') (allowed : DetachedInTime k l) : Reclaimed l' := by
  have inv := hi.toInv.step h
  cases h with
  | create detached userStack h =>
      refine .of_out inv (hi.fresh h).2 (hi.early (by rw [h]; rfl)) (hi.new h) rfl ⟨by rintro ⟨⟩, ?_⟩ fun _ => trivial
      simp [Detached, Over, setPhase]
  | initTls h =>
      have none : l.stored = none := hi.early (by rw [h]; rfl)
      exact hi.of_phase inv rfl rfl rfl rfl ⟨rfl, rfl, rfl⟩ (by rintro ⟨⟩) (by rintro ⟨⟩)
        (fun _ _ => .inl (by rw [h]; rfl)) (by simp [Detached, Over, setPhase]) (by simp [setPhase, setDesc, none])
  | exit h =>
      have none : l.stored = none := hi.early (by rw [h]; rfl)
      exact hi.of_phase inv rfl rfl rfl rfl ⟨rfl, rfl, rfl⟩ (by rintro ⟨⟩) (by rintro ⟨⟩)
        (fun _ _ => .inl (by rw [h]; rfl)) (by simp [Detached, Over, setPhase]) (by simp [setPhase, none])
  | testDetached h flag =>
      have none : l.stored = none := hi.early (by rw [h]; rfl)
      have owner := hi.owner flag (.inl (by rw [h]; rfl))
      exact hi.of_phase inv rfl rfl rfl rfl ⟨rfl, rfl, rfl⟩ (by rintro ⟨⟩) (by rintro ⟨⟩)
        (fun _ _ => .inl (by rw [h]; rfl)) (fun _ => ⟨flag, owner.2⟩) (by simp [setPhase, none])
  | testJoinable h joinable =>
      exact hi.of_phase inv rfl rfl rfl rfl ⟨rfl, rfl, rfl⟩ (by rintro ⟨⟩) (by rintro ⟨⟩) (by simp [joinable])
        (by simp [Detached, Over, setPhase]) (by simp [joinable])
  | remove h was =>
      have none : l.stored = none := hi.early (by rw [h]; rfl)
      have removed : l.removed = 0 := hi.removed.resolve_right fun h => h.1 was
      have freed : l.freed = 0 := hi.freed.resolve_right fun h => h.1 was
      have path := hi.path (.inl h)
      refine ⟨inv, .inr ⟨id, congrArg (· + 1) removed⟩, .inl freed, by simp [setPhase, Phase.untested],
        fun _ => path, fun pos => ?_, fun _ _ => .inr id, fun _ => .inr id, by rintro ⟨⟩⟩
      have pos : 0 < l.desc.joinCount := pos
      omega
  | removeTwice h unlisted =>
      have path := hi.path (.inl h)
      exact absurd (hi.owner path.1 (.inr h)).1 unlisted
  | free h =>
      have none : l.stored = none := hi.early (by rw [h]; rfl)
      have unlisted : ¬ l.listed := hi.own (.inl h)
      have freed : l.freed = 0 := hi.freed.resolve_right fun hf => hf.2.1 h
      have path := hi.path (.inr (.inl h))
      refine ⟨inv, hi.removed, .inr ⟨unlisted, by rintro ⟨⟩, congrArg (· + 1) freed⟩,
        by simp [setPhase, Phase.untested], fun _ => path, hi.listed, fun _ _ => .inr unlisted, hi.joined, by rintro ⟨⟩⟩
  | storeWaited retval h waited =>
      exact hi.of_phase inv rfl rfl rfl rfl ⟨rfl, rfl, rfl⟩ (by rintro ⟨⟩) (by rintro ⟨⟩)
        (by simp [setPhase, Phase.untested]) (by simp [Detached, Over, setPhase]) (fun _ _ => .inl waited)
  | storeZombie retval h alone =>
      refine ⟨inv, hi.removed, hi.freed.imp_right fun h => ⟨h.1, by rintro ⟨⟩, h.2.2⟩,
        by simp [setPhase, Phase.untested], by simp [Detached, Over, setPhase], by rintro ⟨⟩, fun flag _ => ?_,
        fun joined => ?_, by rintro ⟨⟩⟩
      · exact .inr ((hi.detached flag (.inl h)).resolve_left alone)
      · exact .inr ((hi.joined joined).resolve_left alone)
  | broadcast h =>
      have stored : l.stored ≠ none := hi.storing (by rw [h]; rfl)
      exact hi.of_phase inv rfl rfl rfl rfl ⟨rfl, rfl, rfl⟩ (by rintro ⟨⟩) (by rintro ⟨⟩)
        (by simp [setPhase, Phase.untested]) (by simp [Detached, Over, setPhase]) (fun flag _ => hi.detached flag (.inr stored))
  | wake h =>
      have stored : l.stored ≠ none := hi.storing (by rw [h]; rfl)
      refine ⟨inv, hi.removed, hi.freed.imp_right fun h => ⟨h.1, by rintro ⟨⟩, h.2.2⟩,
        by simp [setPhase, Phase.untested], by simp [Detached, Over, setPhase], hi.listed,
        fun flag _ => hi.detached flag (.inr stored), fun hj => hi.joined ?_, by rintro ⟨⟩⟩
      refine hj.imp_right fun done => ?_
      obtain ⟨t, v, ht⟩ := done
      have ht : (if l.joiner t = .asleep then Joiner.lock else l.joiner t) = .done v := ht
      split at ht
      next => cases ht
      next => exact ⟨t, v, ht⟩
  | unlock h =>
      have stored : l.stored ≠ none := hi.storing (by rw [h]; rfl)
      exact hi.of_phase inv rfl rfl rfl rfl ⟨rfl, rfl, rfl⟩ (by rintro ⟨⟩) (by rintro ⟨⟩)
        (by simp [setPhase, Phase.untested]) (by simp [Detached, Over, setPhase, stored]) (fun flag _ => hi.detached flag (.inr stored))
  | leave h =>
      refine hi.of_phase inv rfl rfl rfl rfl ⟨rfl, rfl, rfl⟩ (by rintro ⟨⟩) (by rintro ⟨⟩)
        (by simp [setPhase, Phase.untested]) (fun hd => hi.path ?_)
        fun flag hs => hi.detached flag (.inr (hs.resolve_left (by rintro ⟨⟩)))
      have none : l.stored = none := by simpa [Detached, Over, setPhase] using hd
      exact .inr (.inr ⟨.inl h, none⟩)
  | detach listed joinable =>
      have inTime := allowed rfl listed joinable
      refine ⟨inv, hi.removed, hi.freed, fun _ h => ?_, fun h => ⟨rfl, (hi.path h).2⟩, hi.listed, fun _ h => ?_,
        hi.joined, hi.new⟩
      · cases h with
        | inl untested =>
            cases inTime with
            | inl early => exact ⟨listed, early.1⟩
            | inr late => exact absurd (late.2.symm.trans untested) Bool.false_ne_true
        | inr remove =>
            rw [(hi.path (.inl remove)).1] at joinable
            cases joinable
      · have tested : l.phase.untested = false := hi.tested h
        cases inTime with
        | inl early =>
            rw [tested] at early
            cases early.2
        | inr late => exact .inl late.1
  | wait t h listed joinable count =>
      refine hi.of_joiner inv (fun fresh => (hi.fresh fresh).1 listed) rfl rfl rfl rfl ⟨rfl, rfl⟩
        (.inr ⟨?_, listed, fun hd => ?_⟩) fun _ => .inr ?_
      · show 0 < l.desc.joinCount + 1
        omega
      · rw [joinable] at hd
        cases hd
      · show 0 < l.desc.joinCount + 1
        omega
  | zombie t h listed joinable count =>
      refine hi.of_unlink inv listed rfl rfl rfl rfl ⟨rfl, rfl⟩ (Int.le_of_lt count) fun hd => ?_
      rw [joinable] at hd
      cases hd
  | sleep t h =>
      exact hi.of_joiner inv (hi.not_fresh (t := t) (by simp [h])) rfl rfl rfl rfl ⟨rfl, rfl⟩ (.inl rfl)
        fun hj => .inl (hj.of_setJoiner (by simp))
  | again t w h =>
      exact hi.of_joiner inv (hi.not_fresh (t := t) (by simp [h])) rfl rfl rfl rfl ⟨rfl, rfl⟩ (.inl rfl)
        fun hj => .inl (hj.of_setJoiner (by simp))
  | spurious t h =>
      exact hi.of_joiner inv (hi.not_fresh (t := t) (by simp [h])) rfl rfl rfl rfl ⟨rfl, rfl⟩ (.inl rfl)
        fun hj => .inl (hj.of_setJoiner (by simp))
  | last t h count listed =>
      have pos := hi.pos (t := t) (by rw [h]; rfl)
      exact hi.of_unlink inv listed rfl rfl rfl rfl ⟨rfl, rfl⟩ count fun _ => Int.ne_of_gt pos
  | lastTwice t h count unlisted =>
      have pos := hi.pos (t := t) (by rw [h]; rfl)
      exact absurd (hi.listed pos) unlisted
  | more t h count =>
      have pos := hi.pos (t := t) (by rw [h]; rfl)
      refine hi.of_joiner inv (hi.not_fresh (t := t) (by simp [h])) rfl rfl rfl rfl ⟨rfl, rfl⟩
        (.inr ⟨Int.not_le.1 count, hi.listed pos, fun _ => Int.ne_of_gt pos⟩) fun _ => .inr (Int.not_le.1 count)
  | returns t value h =>
      exact hi.of_joiner inv (hi.not_fresh (t := t) (by simp [h])) rfl rfl rfl rfl ⟨rfl, rfl⟩ (.inl rfl)
        fun _ => .inl (.inr ⟨t, value, h⟩)

end Life

variable {main : T} {s s' : Sys T}

theorem detachesInTime_labels {a : Act T} {u : T} {k : Kind} (ok : detachesInTime s a = true)
    (label : Labels s a u k) : Life.DetachedInTime k (life s u) := by
  rintro rfl listed joinable
  obtain ⟨t, rfl⟩ := label
  have listed : u ∈ s.list := listed
  have joinable : (s.desc u).detached = false := joinable
  have inTime : (s.desc u).joinCount = 0 ∧ (s.pc u).phase.untested = true ∨
      0 < (s.desc u).joinCount ∧ (s.pc u).phase.untested = false := by
    simpa [detachesInTime, listed, joinable] using ok
  exact inTime

theorem Reach.reclaimed (h : Reach main detachesInTime s) (u : T) : (life s u).Reclaimed :=
  life_invariant Life.DetachedInTime
    (.of_out Life.inv_ofMain (fun _ => rfl) rfl ⟨rfl, rfl, rfl⟩ rfl
      ⟨nofun, by simp [Life.Detached, Life.Over, Life.ofMain]⟩ nofun)
    (.of_out Life.inv_unborn (fun _ => rfl) rfl ⟨rfl, rfl, rfl⟩ rfl
      ⟨nofun, by simp [Life.Detached, Life.Over, Life.unborn]⟩ nofun)
    (fun _ _ _ hi h allowed => hi.step h allowed) (fun _ _ _ _ ok label => detachesInTime_labels ok label) h u

/-- Each descriptor is removed and freed at most once; and if the descriptor of a thread is listed that is over and has
been joined or detached, then a `pthread_join` on it is under way. -/
def ReclaimedOnce (s : Sys T) : Prop :=
  ∀ u, s.removed u ≤ 1 ∧ s.freed u ≤ 1 ∧
    (s.pc u = .gone → (s.desc u).detached = true ∨ 0 < s.joins u → u ∈ s.list →
      ∃ t, ((s.pc t).joiner u).counted = true)

/-- In every run in which threads are detached in time, whatever sleeps end by themselves. -/
theorem reclaimed_once (h : Reach main detachesInTime s) : ReclaimedOnce s := by
  intro u
  have hi := h.reclaimed u
  refine ⟨?_, ?_, fun gone ended listed => ?_⟩
  · cases hi.removed with
    | inl e => exact Nat.le_trans (Nat.le_of_eq e) (Nat.zero_le 1)
    | inr e => exact Nat.le_of_eq e.2
  · cases hi.freed with
    | inl e => exact Nat.le_trans (Nat.le_of_eq e) (Nat.zero_le 1)
    | inr e => exact Nat.le_of_eq e.2.2
  · have phase : (life s u).phase = .gone := by simp only [life, gone]; rfl
    have stored : (life s u).stored ≠ none := fun none => hi.own (.inr ⟨.inr phase, none⟩) listed
    have cared : (life s u).Cared := by
      cases ended with
      | inl flag => exact hi.detached flag (.inr stored)
      | inr joined => exact hi.joined (.inl joined)
    exact hi.exists_waiting (cared.resolve_right fun out => out listed)

/-! ### Nothing freed is accessed -/

/-- The last joiner of a thread does not come back before the thread has stored its value. -/
def freesAfterStore (s : Sys T) : Act T → Bool
  | .exec t =>
      match s.pc t with
      | .joinLock u => decide (1 < (s.desc u).joinCount) || (s.stored u).isSome
      | _ => true
  | _ => true

def orderly (s : Sys T) (a : Act T) : Bool := detachesInTime s a && freesAfterStore s a

namespace Life

variable {l l' : Life T} {k : Kind}

/-- `freesAfterStore`, seen from the descriptor. -/
def FreesAfterStore (k : Kind) (l : Life T) : Prop := k = .last → l.desc.joinCount ≤ 1 → l.stored ≠ none

/-- A thread that has not yet stored its value has its descriptor. -/
structure Unfreed (l : Life T) : Prop extends Inv l where
  unfreed : l.phase.early = true → l.freed = 0

theorem Unfreed.step (hi : Unfreed l) (h : Step l k l') (allowed : FreesAfterStore k l) : Unfreed l' := by
  refine ⟨hi.toInv.step h, fun early => ?_⟩
  cases h with
  | zombie t h listed joinable count => exact absurd (hi.early early) (hi.dead count)
  | last t h count listed => exact absurd (hi.early early) (allowed rfl (by omega))
  | free => cases early
  | storeWaited => cases early
  | storeZombie => cases early
  | broadcast => cases early
  | wake => cases early
  | unlock => cases early
  | leave => cases early
  | create detached userStack h => exact hi.unfreed (by rw [h]; rfl)
  | initTls h => exact hi.unfreed (by rw [h]; rfl)
  | exit h => exact hi.unfreed (by rw [h]; rfl)
  | testDetached h => exact hi.unfreed (by rw [h]; rfl)
  | testJoinable h => exact hi.unfreed (by rw [h]; rfl)
  | remove h => exact hi.unfreed (by rw [h]; rfl)
  | _ => exact hi.unfreed early

end Life

theorem freesAfterStore_labels {a : Act T} {u : T} {k : Kind} (ok : freesAfterStore s a = true)
    (label : Labels s a u k) : Life.FreesAfterStore k (life s u) := by
  rintro rfl count
  obtain ⟨t, rfl, pc⟩ := label
  have count : ¬ 1 < (s.desc u).joinCount := Int.not_lt.2 count
  show s.stored u ≠ none
  simpa [freesAfterStore, pc, count, Option.isSome_iff_ne_none] using ok

theorem Reach.mono {ok ok' : Sys T → Act T → Bool} (le : ∀ s a, ok s a = true → ok' s a = true) (h : Reach main ok s) :
    Reach main ok' s := by
  induction h with
  | start => exact .start
  | step _ allowed hs ih => exact ih.step (le _ _ allowed) hs

theorem Reach.inTime (h : Reach main orderly s) : Reach main detachesInTime s :=
  h.mono fun _ _ ok => (Bool.and_eq_true_iff.1 ok).1

theorem Reach.unfreed (h : Reach main orderly s) (u : T) : (life s u).Unfreed :=
  life_invariant Life.FreesAfterStore ⟨Life.inv_ofMain, fun _ => rfl⟩ ⟨Life.inv_unborn, fun _ => rfl⟩
    (fun _ _ _ hi h allowed => hi.step h allowed)
    (fun _ _ _ _ ok label => freesAfterStore_labels ok label)
    (h.mono fun _ _ ok => (Bool.and_eq_true_iff.1 ok).2) u

theorem Life.Step.waited {l l' : Life T} {k : Kind} (h : Life.Step l k l')
    (phase : l'.phase = .broadcast ∨ l'.phase = .wake) :
    0 < l'.desc.joinCount ∨ l.phase = .broadcast ∨ l.phase = .wake := by
  cases h with
  | storeWaited retval h waited => exact .inl waited
  | broadcast h => exact .inr (.inl h)
  | create => exact absurd phase (by simp [Life.setPhase])
  | initTls => exact absurd phase (by simp [Life.setPhase])
  | exit => exact absurd phase (by simp [Life.setPhase])
  | testDetached => exact absurd phase (by simp [Life.setPhase])
  | testJoinable => exact absurd phase (by simp [Life.setPhase])
  | remove => exact absurd phase (by simp [Life.setPhase])
  | free => exact absurd phase (by simp [Life.setPhase])
  | storeZombie => exact absurd phase (by simp [Life.setPhase])
  | wake => exact absurd phase (by simp [Life.setPhase])
  | unlock => exact absurd phase (by simp [Life.setPhase])
  | leave => exact absurd phase (by simp [Life.setPhase])
  | _ => exact .inr phase

omit [DecidableEq T] in
theorem Pc.role_of_phase {pc : Pc T} (h : pc.phase = .broadcast ∨ pc.phase = .wake) : pc.role ≠ .free := by
  cases pc <;> simp_all [Pc.phase, Pc.role]

/-- A thread that is at its broadcast has joiners: it holds the lock. -/
theorem Reach.waited {ok : Sys T → Act T → Bool} (h : Reach main ok s) (u : T)
    (phase : (s.pc u).phase = .broadcast ∨ (s.pc u).phase = .wake) : 0 < (s.desc u).joinCount := by
  induction h with
  | start =>
      cases life_start main u with
      | inl e =>
          have live : ((Threads.start main).pc u).phase = .live := congrArg Life.phase e
          simp [live] at phase
      | inr e =>
          have fresh : ((Threads.start main).pc u).phase = .fresh := congrArg Life.phase e
          simp [fresh] at phase
  | @step s s' a before _ hs ih =>
      cases life_step hs u with
      | same e =>
          rw [show (s'.pc u).phase = (s.pc u).phase from congrArg Life.phase e] at phase
          rw [show s'.desc u = s.desc u from congrArg Life.desc e]
          exact ih phase
      | step k own _ =>
          obtain now | before' := own.waited phase
          · exact now
          · obtain ⟨t, roles⟩ := roleStep hs
            cases roles with
            | unlocked free =>
                have held := before.walking.lock u (Pc.role_of_phase before')
                rw [free] at held
                cases held
            | locked _ count =>
                rw [count u]
                exact ih before'

/-- The thread goes on to read or write its own descriptor. -/
def Phase.needsSelf : Phase → Bool
  | .starting | .test | .remove | .free | .lock | .broadcast | .wake => true
  | _ => false

/-- The thread has been created and its descriptor is not freed. -/
def Held (s : Sys T) (u : T) : Prop := s.pc u ≠ .fresh ∧ s.freed u = 0

/-- Whatever is still to be accessed is not freed. -/
structure Tidy (s : Sys T) : Prop where
  listed : ∀ u ∈ s.list, Held s u
  waiting : ∀ t u, ((s.pc t).joiner u).counted = true → u ∈ s.list
  joiner : ∀ t u, (s.pc t).joiner u ≠ .out → s.pc u ≠ .fresh
  own : ∀ t, (s.pc t).phase.needsSelf = true → Held s t
  removes : ∀ t, s.pc t = .exitRemove → t ∈ s.list

omit [DecidableEq T] in
theorem Pc.phase_eq_fresh {pc : Pc T} : pc.phase = .fresh ↔ pc = .fresh := by
  cases pc <;> simp [Pc.phase]

theorem Reach.tidy (h : Reach main orderly s) : Tidy s := by
  have inv (u : T) := h.inTime.reclaimed u
  have listed (u : T) (hu : u ∈ s.list) : Held s u := by
    refine ⟨fun fresh => ((inv u).fresh (Pc.phase_eq_fresh.2 fresh)).1 hu, ?_⟩
    exact (inv u).freed.resolve_right fun out => out.1 hu
  refine ⟨listed, fun t u counted => ?_, fun t u out fresh => ?_, fun t phase => ?_, fun t pc => ?_⟩
  · exact (inv u).listed ((inv u).pos counted)
  · exact out (((inv u).fresh (Pc.phase_eq_fresh.2 fresh)).2 t)
  · by_cases late : (s.pc t).phase = .broadcast ∨ (s.pc t).phase = .wake
    · exact listed t ((inv t).listed (h.waited t late))
    · refine ⟨fun fresh => ?_, (h.unfreed t).unfreed ?_⟩
      · rw [fresh] at phase
        cases phase
      · show (s.pc t).phase.early = true
        revert phase late
        cases (s.pc t).phase <;> simp [Phase.needsSelf, Phase.early]
  · have phase : (life s t).phase = .remove := by simp only [life, pc]; rfl
    exact ((inv t).owner ((inv t).path (.inl phase)).1 (.inr phase)).1

end Bionic.Threads
