import Mathlib.Data.Set.Card
import Bionic.ThreadLife

/-! # `pthread_join`

What holds of every descriptor in every run (`Life.Inv`): `join_count` counts the threads that wait, -1 stands for a
zombie, the condition variable moves only after the value has been stored, and a thread that is over is still listed
only as a zombie or for the joiners that it has woken.

`pthread_join` does not test anything after its wait.  If no sleep ends by itself before the thread has stored its
value, a join returns that value (`joins_after_store`).  If nobody begins to wait too late and no thread is detached
under its joiners, no joiner sleeps forever (`no_joiner_stranded`). -/

namespace Bionic.Threads

variable {T : Type} [DecidableEq T]

/-! ### Counting joiners -/

/-- The threads whose value has the property `p`. -/
def holders {α : Type} (f : T → α) (p : α → Bool) : Set T := {t | p (f t) = true}

section

variable {α : Type} {f : T → α} {p : α → Bool} {t : T} {x : α}

omit [DecidableEq T] in
theorem holders_eq_empty : holders f p = ∅ ↔ ∀ t, p (f t) = false := by
  simp [holders, Set.eq_empty_iff_forall_notMem]

theorem holders_update (h : p x = p (f t)) : holders (Function.update f t x) p = holders f p := by
  ext r
  by_cases hr : r = t
  · subst hr
    simp [holders, h]
  · simp [holders, hr]

/-- Each value after an update is the new one or an old one. -/
theorem eq_or_of_update {r : T} {y : α} (h : Function.update f t x r = y) : x = y ∨ f r = y := by
  by_cases hr : r = t
  · rw [hr, Function.update_self] at h
    exact .inl h
  · rw [Function.update_of_ne hr] at h
    exact .inr h

theorem holders_enter (h : p (f t) = false) (hx : p x = true) :
    (holders (Function.update f t x) p).encard = (holders f p).encard + 1 := by
  have e : holders (Function.update f t x) p = insert t (holders f p) := by
    ext r
    by_cases hr : r = t
    · subst hr
      simp [holders, hx]
    · simp [holders, hr]
  rw [e, Set.encard_insert_of_notMem]
  simp [holders, h]

theorem holders_leave (h : p (f t) = true) (hx : p x = false) :
    (holders (Function.update f t x) p).encard + 1 = (holders f p).encard := by
  have e : holders (Function.update f t x) p = holders f p \ {t} := by
    ext r
    by_cases hr : r = t
    · subst hr
      simp [holders, hx]
    · simp [holders, hr]
  rw [e]
  exact Set.encard_sdiff_singleton_add_one h

end

/-! ### The invariant -/

/-- The thread has not yet stored a value in `pthread_exit`. -/
def Phase.early : Phase → Bool
  | .fresh | .starting | .live | .test | .remove | .free | .lock => true
  | _ => false

/-- The thread is at its store, or has made it and is not yet at the end of `pthread_exit`. -/
def Phase.storing : Phase → Bool
  | .broadcast | .wake | .unlock => true
  | _ => false

namespace Life

/-- The thread is at the end of `pthread_exit`, or over. -/
def Over (l : Life T) : Prop := l.phase = .leave ∨ l.phase = .gone

/-- The threads that wait, as `join_count` should have it. -/
structure Counted (l : Life T) : Prop where
  count : 0 ≤ l.desc.joinCount → (holders l.joiner Joiner.counted).encard = l.desc.joinCount.toNat
  zombie : l.desc.joinCount < 0 → ∀ t, (l.joiner t).counted = false
  fresh : l.phase = .fresh → ¬ l.listed ∧ ∀ t, l.joiner t = .out

/-- What the thread has stored. -/
structure Stored (l : Life T) : Prop where
  early : l.phase.early = true → l.stored = none
  storing : l.phase.storing = true → l.stored ≠ none
  value : ∀ v, l.stored = some v → l.desc.returnValue = v
  dead : l.desc.joinCount < 0 → l.stored ≠ none
  wait : ∀ t w, l.joiner t = .wait w → l.stored = none → w = l.desc.joinCond

/-- Which descriptors stay in the list when their thread is over. -/
structure Remains (l : Life T) : Prop where
  own : l.phase = .free ∨ l.Over ∧ l.stored = none → ¬ l.listed
  waited : l.listed → l.stored ≠ none → l.desc.joinCount ≠ 0
  unmapped : l.unmapped = true ↔ l.phase = .gone ∧ l.desc.userStack = false

variable {l l' : Life T} {k : Kind}

omit [DecidableEq T] in
theorem Counted.of_eq (hi : Counted l) (count : l'.desc.joinCount = l.desc.joinCount)
    (joiner : holders l'.joiner Joiner.counted = holders l.joiner Joiner.counted)
    (fresh : l'.phase ≠ .fresh) : Counted l' := by
  refine ⟨?_, ?_, fun h => absurd h fresh⟩
  · rw [count, joiner]
    exact hi.count
  · rw [count]
    intro h t
    have none := holders_eq_empty.2 (hi.zombie h)
    exact holders_eq_empty.1 (joiner.trans none) t

omit [DecidableEq T] in
theorem Counted.not_fresh (hi : Counted l) {t : T} (h : l.joiner t ≠ .out) : l.phase ≠ .fresh :=
  fun fresh => h ((hi.fresh fresh).2 t)

omit [DecidableEq T] in
/-- A thread that waits is counted. -/
theorem Counted.pos (hi : Counted l) {t : T} (h : (l.joiner t).counted = true) : 0 < l.desc.joinCount := by
  by_contra neg
  by_cases zero : l.desc.joinCount = 0
  · have none := hi.count (Int.le_of_eq zero.symm)
    rw [zero, Int.toNat_zero, Nat.cast_zero, Set.encard_eq_zero, holders_eq_empty] at none
    rw [none t] at h
    contradiction
  · rw [hi.zombie (by omega) t] at h
    contradiction

omit [DecidableEq T] in
/-- Somebody waits if `join_count` is positive. -/
theorem Counted.exists_waiting (hi : Counted l) (h : 0 < l.desc.joinCount) :
    ∃ t, (l.joiner t).counted = true := by
  by_contra none
  have empty : holders l.joiner Joiner.counted = ∅ := by
    rw [holders_eq_empty]
    intro t
    by_contra ht
    exact none ⟨t, by simpa using ht⟩
  have e := hi.count (Int.le_of_lt h)
  rw [empty, Set.encard_empty] at e
  have : l.desc.joinCount.toNat = 0 := by exact_mod_cast e.symm
  omega

/-- A joiner that is counted leaves. -/
theorem Counted.leave (hi : Counted l) {t : T} {j : Joiner} (h : (l.joiner t).counted = true)
    (hj : j.counted = false) (joiner : l'.joiner = Function.update l.joiner t j)
    (count : l'.desc.joinCount = l.desc.joinCount - 1) (phase : l'.phase = l.phase) : Counted l' := by
  have pos := hi.pos h
  have out : l.joiner t ≠ .out := by
    intro e
    rw [e] at h
    contradiction
  refine ⟨fun _ => ?_, fun neg => ?_, fun fresh => absurd (phase ▸ fresh) (hi.not_fresh out)⟩
  · have e := holders_leave h hj
    rw [hi.count (Int.le_of_lt pos)] at e
    have nat : l.desc.joinCount.toNat = l'.desc.joinCount.toNat + 1 := by omega
    rw [nat, Nat.cast_add, Nat.cast_one] at e
    rw [joiner]
    exact WithTop.add_right_cancel ENat.one_ne_top e
  · omega

theorem Counted.step (hi : Counted l) (h : Step l k l') : Counted l' := by
  cases h with
  | create detached userStack h =>
      refine ⟨fun _ => ?_, fun h => absurd h (Int.lt_irrefl 0), fun h => by cases h⟩
      have none : holders l.joiner Joiner.counted = ∅ :=
        holders_eq_empty.2 fun t => by rw [(hi.fresh h).2 t]; rfl
      exact (congrArg Set.encard none).trans Set.encard_empty
  | initTls => exact hi.of_eq rfl rfl (by simp [setPhase])
  | exit => exact hi.of_eq rfl rfl (by simp [setPhase])
  | testDetached => exact hi.of_eq rfl rfl (by simp [setPhase])
  | testJoinable => exact hi.of_eq rfl rfl (by simp [setPhase])
  | remove => exact hi.of_eq rfl rfl (by simp [setPhase])
  | removeTwice h => exact hi.of_eq rfl rfl (by simp [unlinked, h])
  | free => exact hi.of_eq rfl rfl (by simp [setPhase])
  | storeWaited => exact hi.of_eq rfl rfl (by simp [setPhase])
  | storeZombie retval h alone =>
      have out : ∀ t, (l.joiner t).counted = false := by
        intro t
        by_contra ht
        exact alone (hi.pos (by simpa using ht))
      refine ⟨fun h => ?_, fun _ => out, fun h => by cases h⟩
      exact absurd h (show ¬ (0 : ℤ) ≤ -1 by decide)
  | broadcast => exact hi.of_eq rfl rfl (by simp [setPhase])
  | wake =>
      refine hi.of_eq rfl ?_ (by simp [setPhase])
      ext t
      show (if l.joiner t = .asleep then Joiner.lock else l.joiner t).counted = true ↔
        (l.joiner t).counted = true
      split
      next h => rw [h]; rfl
      next => rfl
  | unlock => exact hi.of_eq rfl rfl (by simp [setPhase])
  | leave => exact hi.of_eq rfl rfl (by simp [setPhase])
  | detach listed => exact hi.of_eq rfl rfl fun fresh => (hi.fresh fresh).1 listed
  | wait t h listed joinable count =>
      refine ⟨fun _ => ?_, fun neg => ?_, fun fresh => absurd listed (hi.fresh fresh).1⟩
      · show (holders (Function.update l.joiner t (.wait l.desc.joinCond)) Joiner.counted).encard =
          (l.desc.joinCount + 1).toNat
        rw [holders_enter (by rw [h]; rfl) rfl, hi.count count, Int.toNat_add count Int.one_nonneg]
        rfl
      · have neg : l.desc.joinCount + 1 < 0 := neg
        omega
  | zombie t h listed joinable count =>
      refine hi.of_eq rfl (holders_update ?_) fun fresh => (hi.fresh fresh).1 listed
      exact (congrArg Joiner.counted h).symm
  | sleep t h =>
      refine hi.of_eq rfl (holders_update ?_) (hi.not_fresh (t := t) (by simp [h]))
      rw [h]; rfl
  | again t oldvalue h moved =>
      refine hi.of_eq rfl (holders_update ?_) (hi.not_fresh (t := t) (by simp [h]))
      rw [h]; rfl
  | spurious t h =>
      refine hi.of_eq rfl (holders_update ?_) (hi.not_fresh (t := t) (by simp [h]))
      rw [h]; rfl
  | last t h count listed => exact hi.leave (by rw [h]; rfl) rfl rfl rfl rfl
  | lastTwice t h => exact hi.of_eq rfl rfl (hi.not_fresh (t := t) (by simp [h]))
  | more t h => exact hi.leave (by rw [h]; rfl) rfl rfl rfl rfl
  | returns t value h =>
      refine hi.of_eq rfl (holders_update ?_) (hi.not_fresh (t := t) (by simp [h]))
      rw [h]; rfl

omit [DecidableEq T] in
theorem Stored.of_eq (hi : Stored l) (stored : l'.stored = l.stored)
    (early : l'.phase.early = true → l.phase.early = true)
    (storing : l'.phase.storing = true → l.phase.storing = true)
    (value : l'.desc.returnValue = l.desc.returnValue)
    (count : l'.desc.joinCount < 0 → l.desc.joinCount < 0)
    (wait : ∀ t w, l'.joiner t = .wait w → l.stored = none → w = l'.desc.joinCond) : Stored l' := by
  refine ⟨?_, ?_, ?_, ?_, ?_⟩ <;> rw [stored]
  · exact fun h => hi.early (early h)
  · exact fun h => hi.storing (storing h)
  · rw [value]
    exact hi.value
  · exact fun h => hi.dead (count h)
  · exact wait

/-- The joiner `t` moves, and does not begin to wait. -/
theorem Stored.wait_update (hi : Stored l) {t : T} {j : Joiner} (hj : ∀ w, j ≠ .wait w) (r : T) (w : Word)
    (h : Function.update l.joiner t j r = .wait w) (none : l.stored = none) : w = l.desc.joinCond := by
  cases eq_or_of_update h with
  | inl new => exact absurd new (hj w)
  | inr old => exact hi.wait r w old none

theorem Stored.step (hi : Stored l) (hc : Counted l) (h : Step l k l') : Stored l' := by
  cases h with
  | create detached userStack h =>
      have none : l.stored = none := hi.early (by rw [h]; rfl)
      refine ⟨fun _ => none, fun h => absurd h Bool.false_ne_true, ?_,
        fun h => absurd h (Int.lt_irrefl 0), ?_⟩
      · intro v hv
        rw [show l.stored = some v from hv] at none
        cases none
      · intro t w ht
        cases ((hc.fresh h).2 t).symm.trans ht
  | initTls h => exact hi.of_eq rfl (by simp [h, Phase.early]) (by simp [setPhase, Phase.storing]) rfl id hi.wait
  | exit h => exact hi.of_eq rfl (by simp [h, Phase.early]) (by simp [setPhase, Phase.storing]) rfl id hi.wait
  | testDetached h =>
      exact hi.of_eq rfl (by simp [h, Phase.early]) (by simp [setPhase, Phase.storing]) rfl id hi.wait
  | testJoinable h =>
      exact hi.of_eq rfl (by simp [h, Phase.early]) (by simp [setPhase, Phase.storing]) rfl id hi.wait
  | remove h => exact hi.of_eq rfl (by simp [h, Phase.early]) (by simp [setPhase, Phase.storing]) rfl id hi.wait
  | removeTwice => exact hi.of_eq rfl id id rfl id hi.wait
  | free => exact hi.of_eq rfl (by simp [setPhase, Phase.early]) (by simp [setPhase, Phase.storing]) rfl id hi.wait
  | storeWaited retval h waited =>
      refine ⟨fun h => absurd h Bool.false_ne_true, fun _ => nofun, fun v hv => ?_, fun _ => nofun,
        fun t w _ => nofun⟩
      exact Option.some.inj hv
  | storeZombie retval h alone =>
      refine ⟨fun h => absurd h Bool.false_ne_true, fun _ => nofun, fun v hv => ?_, fun _ => nofun,
        fun t w _ => nofun⟩
      exact Option.some.inj hv
  | broadcast h =>
      refine hi.of_eq rfl (by simp [setPhase, Phase.early]) (by simp [h, Phase.storing]) rfl id ?_
      exact fun t w _ none => absurd none (hi.storing (by rw [h]; rfl))
  | wake h =>
      refine hi.of_eq rfl (by simp [setPhase, Phase.early]) (by simp [h, Phase.storing]) rfl id ?_
      exact fun t w _ none => absurd none (hi.storing (by rw [h]; rfl))
  | unlock => exact hi.of_eq rfl (by simp [setPhase, Phase.early]) (by simp [setPhase, Phase.storing]) rfl id hi.wait
  | leave => exact hi.of_eq rfl (by simp [setPhase, Phase.early]) (by simp [setPhase, Phase.storing]) rfl id hi.wait
  | detach => exact hi.of_eq rfl id id rfl id hi.wait
  | wait t h listed joinable count =>
      refine hi.of_eq rfl id id rfl (fun neg => ?_) ?_
      · have neg : l.desc.joinCount + 1 < 0 := neg
        omega
      · intro r w hr none
        have hr : Function.update l.joiner t (.wait l.desc.joinCond) r = .wait w := hr
        cases eq_or_of_update hr with
        | inl new => exact (Joiner.wait.inj new).symm
        | inr old => exact hi.wait r w old none
  | zombie t => exact hi.of_eq rfl id id rfl id (hi.wait_update (by simp))
  | sleep t => exact hi.of_eq rfl id id rfl id (hi.wait_update (by simp))
  | again t => exact hi.of_eq rfl id id rfl id (hi.wait_update (by simp))
  | spurious t => exact hi.of_eq rfl id id rfl id (hi.wait_update (by simp))
  | last t h =>
      refine hi.of_eq rfl id id rfl (fun neg => ?_) (hi.wait_update (by simp))
      have pos := hc.pos (t := t) (by rw [h]; rfl)
      have neg : l.desc.joinCount - 1 < 0 := neg
      omega
  | lastTwice => exact hi.of_eq rfl id id rfl id hi.wait
  | more t h =>
      refine hi.of_eq rfl id id rfl (fun neg => ?_) (hi.wait_update (by simp))
      have pos := hc.pos (t := t) (by rw [h]; rfl)
      have neg : l.desc.joinCount - 1 < 0 := neg
      omega
  | returns t => exact hi.of_eq rfl id id rfl id (hi.wait_update (by simp))

omit [DecidableEq T] in
theorem Remains.of_eq (hi : Remains l) (listed : l'.listed → l.listed) (stored : l'.stored = l.stored)
    (count : l'.desc.joinCount = l.desc.joinCount) (unmapped : l'.unmapped = l.unmapped)
    (userStack : l'.desc.userStack = l.desc.userStack)
    (own : l'.phase = .free ∨ l'.Over ∧ l.stored = none → ¬ l'.listed)
    (gone : l'.phase = .gone ↔ l.phase = .gone) : Remains l' where
  own := by rw [stored]; exact own
  waited := by rw [stored, count]; exact fun h => hi.waited (listed h)
  unmapped := by rw [unmapped, userStack, gone]; exact hi.unmapped

omit [DecidableEq T] in
/-- A thread that is not over has its stack. -/
theorem Remains.mapped (hi : Remains l) (h : l.phase ≠ .gone) : l.unmapped = false := by
  by_contra hu
  exact h (hi.unmapped.1 (by simpa using hu)).1

theorem Remains.step (hi : Remains l) (hs : Stored l) (h : Step l k l') : Remains l' := by
  cases h with
  | create detached userStack h =>
      have none : l.stored = none := hs.early (by rw [h]; rfl)
      have mapped := hi.mapped (by simp [h])
      exact ⟨by simp [setPhase, Over], fun _ h => absurd none h, by simp [setPhase, setDesc, mapped]⟩
  | initTls h => exact hi.of_eq id rfl rfl rfl rfl (by simp [setPhase, Over]) (by simp [setPhase, h])
  | exit h => exact hi.of_eq id rfl rfl rfl rfl (by simp [setPhase, Over]) (by simp [setPhase, h])
  | testDetached h => exact hi.of_eq id rfl rfl rfl rfl (by simp [setPhase, Over]) (by simp [setPhase, h])
  | testJoinable h => exact hi.of_eq id rfl rfl rfl rfl (by simp [setPhase, Over]) (by simp [setPhase, h])
  | remove h => exact hi.of_eq False.elim rfl rfl rfl rfl (fun _ => id) (by simp [setPhase, h])
  | removeTwice h => exact hi.of_eq False.elim rfl rfl rfl rfl (fun _ => id) Iff.rfl
  | free h => exact hi.of_eq id rfl rfl rfl rfl (fun _ => hi.own (.inl h)) (by simp [setPhase, h])
  | storeWaited retval h waited =>
      have mapped := hi.mapped (by simp [h])
      exact ⟨by simp [setPhase, Over], fun _ _ => Int.ne_of_gt waited, by simp [setPhase, setDesc, mapped]⟩
  | storeZombie retval h alone =>
      have mapped := hi.mapped (by simp [h])
      exact ⟨by simp [setPhase, Over], fun _ _ => by simp [setDesc, setPhase], by simp [setPhase, setDesc, mapped]⟩
  | broadcast h => exact hi.of_eq id rfl rfl rfl rfl (by simp [setPhase, Over]) (by simp [setPhase, h])
  | wake h => exact hi.of_eq id rfl rfl rfl rfl (by simp [setPhase, Over]) (by simp [setPhase, h])
  | unlock h =>
      have stored : l.stored ≠ none := hs.storing (by rw [h]; rfl)
      exact hi.of_eq id rfl rfl rfl rfl (by simp [setPhase, Over, stored]) (by simp [setPhase, h])
  | leave h =>
      refine ⟨fun hd => ?_, hi.waited, by simp [setPhase]⟩
      have none : l.stored = none := by simpa [Over, setPhase] using hd
      exact hi.own (.inr ⟨.inl h, none⟩)
  | detach => exact hi.of_eq id rfl rfl rfl rfl hi.own Iff.rfl
  | wait t h listed joinable count =>
      refine ⟨hi.own, fun _ _ => ?_, hi.unmapped⟩
      show l.desc.joinCount + 1 ≠ 0
      omega
  | zombie => exact hi.of_eq False.elim rfl rfl rfl rfl (fun _ => id) Iff.rfl
  | sleep => exact hi.of_eq id rfl rfl rfl rfl hi.own Iff.rfl
  | again => exact hi.of_eq id rfl rfl rfl rfl hi.own Iff.rfl
  | spurious => exact hi.of_eq id rfl rfl rfl rfl hi.own Iff.rfl
  | last => exact ⟨fun _ => id, False.elim, hi.unmapped⟩
  | lastTwice => exact hi.of_eq False.elim rfl rfl rfl rfl (fun _ => id) Iff.rfl
  | more t h count =>
      refine ⟨hi.own, fun _ _ => ?_, hi.unmapped⟩
      show l.desc.joinCount - 1 ≠ 0
      omega
  | returns => exact hi.of_eq id rfl rfl rfl rfl hi.own Iff.rfl

structure Inv (l : Life T) : Prop extends Counted l, Stored l, Remains l

omit [DecidableEq T] in
/-- At the start. -/
theorem Inv.of_out (joiner : ∀ t, l.joiner t = .out) (count : l.desc.joinCount = 0)
    (stored : l.stored = none) (storing : l.phase.storing = false) (fresh : l.phase = .fresh → ¬ l.listed)
    (free : l.phase ≠ .free) (ended : ¬ l.Over) (unmapped : l.unmapped = false) : Inv l where
  count := by
    have none : holders l.joiner Joiner.counted = ∅ :=
      holders_eq_empty.2 fun t => by rw [joiner t]; rfl
    rw [count, none]
    exact fun _ => Set.encard_empty
  zombie := fun h => absurd h (by rw [count]; exact Int.lt_irrefl 0)
  fresh := fun h => ⟨fresh h, joiner⟩
  early := fun _ => stored
  storing := fun h => by rw [storing] at h; cases h
  value := fun v h => by rw [stored] at h; cases h
  dead := fun h => absurd h (by rw [count]; exact Int.lt_irrefl 0)
  wait := fun t w h => by rw [joiner t] at h; cases h
  own := fun h => h.elim (fun h => absurd h free) fun h => absurd h.1 ended
  waited := fun _ h => absurd stored h
  unmapped := by
    rw [unmapped]
    exact ⟨nofun, fun h => absurd (.inr h.1) ended⟩

omit [DecidableEq T] in
theorem inv_ofMain : Inv (ofMain T) :=
  .of_out (fun _ => rfl) rfl rfl rfl nofun nofun (by simp [Over, ofMain]) rfl

omit [DecidableEq T] in
theorem inv_unborn : Inv (unborn T) :=
  .of_out (fun _ => rfl) rfl rfl rfl (fun _ => id) nofun (by simp [Over, unborn]) rfl

theorem Inv.step (hi : Inv l) (h : Step l k l') : Inv l' :=
  ⟨hi.toCounted.step h, hi.toStored.step hi.toCounted h, hi.toRemains.step hi.toStored h⟩

end Life

variable {main : T} {ok : Sys T → Act T → Bool} {s : Sys T}

/-- `Life.Inv` holds in every run. -/
theorem Reach.inv (h : Reach main ok s) (u : T) : (life s u).Inv :=
  life_invariant (fun _ _ => True) Life.inv_ofMain Life.inv_unborn (fun _ _ _ hi h _ => hi.step h)
    (fun _ _ _ _ _ _ => trivial) h u

/-! ### A join returns the value that has been stored -/

/-- No sleep in `pthread_join` ends by itself before the thread has stored its value. -/
def wakesAfterStore (s : Sys T) : Act T → Bool
  | .spurious t =>
      match s.pc t with
      | .joinAsleep u => (s.stored u).isSome
      | _ => true
  | _ => true

namespace Life

variable {l l' : Life T} {k : Kind}

/-- What the joiners know of the value. -/
structure Joined (l : Life T) : Prop extends Inv l where
  lock : ∀ t, l.joiner t = .lock → l.stored ≠ none
  done : ∀ t v, l.joiner t = .done v → l.stored = some v
  flag : l.phase = .remove ∨ l.phase = .free → l.desc.detached = true
  freed : 0 < l.freed → l.stored ≠ none ∨ l.desc.detached = true ∧ l.Over

omit [DecidableEq T] in
theorem Joined.of_out (inv : Inv l) (joiner : ∀ t, l.joiner t = .out)
    (own : l.phase ≠ .remove ∧ l.phase ≠ .free) (freed : l.freed = 0) : Joined l where
  toInv := inv
  lock := fun t h => by rw [joiner t] at h; cases h
  done := fun t v h => by rw [joiner t] at h; cases h
  flag := fun h => h.elim (fun h => absurd h own.1) fun h => absurd h own.2
  freed := fun h => absurd freed (Nat.ne_of_gt h)

omit [DecidableEq T] in
/-- The thread moves on in `pthread_exit`. -/
theorem Joined.of_phase (hi : Joined l) (inv : Inv l') (stored : l'.stored = l.stored)
    (joiner : l'.joiner = l.joiner) (detached : l'.desc.detached = l.desc.detached)
    (freed : l'.freed = l.freed) (own : l'.phase = .remove ∨ l'.phase = .free → l.desc.detached = true)
    (ended : l.Over → l'.Over) : Joined l' where
  toInv := inv
  lock := by rw [joiner, stored]; exact hi.lock
  done := by rw [joiner, stored]; exact hi.done
  flag := by rw [detached]; exact own
  freed := by
    rw [freed, stored, detached]
    exact fun h => (hi.freed h).imp_right fun h => ⟨h.1, ended h.2⟩

/-- The joiner `t` moves. -/
theorem Joined.of_joiner (hi : Joined l) (inv : Inv l') {t : T} {j : Joiner} (stored : l'.stored = l.stored)
    (joiner : l'.joiner = Function.update l.joiner t j) (detached : l'.desc.detached = l.desc.detached)
    (phase : l'.phase = l.phase) (freed : 0 < l'.freed → 0 < l.freed ∨ l.stored ≠ none)
    (lock : j = .lock → l.stored ≠ none) (done : ∀ v, j = .done v → l.stored = some v) : Joined l' where
  toInv := inv
  lock := by
    intro r hr
    rw [stored]
    rw [joiner] at hr
    exact (eq_or_of_update hr).elim lock (hi.lock r)
  done := by
    intro r v hr
    rw [stored]
    rw [joiner] at hr
    exact (eq_or_of_update hr).elim (done v) (hi.done r v)
  flag := by
    rw [phase, detached]
    exact hi.flag
  freed := by
    unfold Over
    rw [stored, phase, detached]
    intro h
    cases freed h with
    | inl h => exact hi.freed h
    | inr h => exact .inl h

omit [DecidableEq T] in
/-- The value a joiner reads, once there is one. -/
theorem Inv.returnValue (hi : Inv l) (h : l.stored ≠ none) : l.stored = some l.desc.returnValue := by
  obtain ⟨v, hv⟩ := Option.ne_none_iff_exists'.1 h
  rw [hv, hi.value v hv]

omit [DecidableEq T] in
/-- The value is stored. -/
theorem Joined.of_store (hi : Joined l) (inv : Inv l') (none : l.stored = none) {retval : Word}
    (stored : l'.stored = some retval) (joiner : l'.joiner = l.joiner)
    (own : l'.phase ≠ .remove) (own' : l'.phase ≠ .free) : Joined l' where
  toInv := inv
  lock := fun _ _ => by rw [stored]; nofun
  done := fun t v h => by
    rw [joiner] at h
    rw [hi.done t v h] at none
    cases none
  flag := fun h => h.elim (fun h => absurd h own) fun h => absurd h own'
  freed := fun _ => .inl (by rw [stored]; nofun)

/-- The step does not end a sleep before the value is stored. -/
def WakesAfterStore (k : Kind) (l : Life T) : Prop := k = .spurious → l.stored ≠ none

theorem Joined.step (hi : Joined l) (h : Step l k l') (allowed : WakesAfterStore k l) : Joined l' := by
  have inv := hi.toInv.step h
  cases h with
  | create detached userStack h =>
      refine .of_out inv (hi.fresh h).2 ⟨nofun, nofun⟩ ?_
      show l.freed = 0
      by_contra pos
      cases hi.freed (Nat.pos_of_ne_zero pos) with
      | inl stored => exact stored (hi.early (by rw [h]; rfl))
      | inr ended =>
          cases ended.2 with
          | inl e => rw [h] at e; cases e
          | inr e => rw [h] at e; cases e
  | initTls h => exact hi.of_phase inv rfl rfl rfl rfl (by simp [setPhase]) (by simp [Over, h])
  | exit h => exact hi.of_phase inv rfl rfl rfl rfl (by simp [setPhase]) (by simp [Over, h])
  | testDetached h detached => exact hi.of_phase inv rfl rfl rfl rfl (fun _ => detached) (by simp [Over, h])
  | testJoinable h joinable => exact hi.of_phase inv rfl rfl rfl rfl (by simp [setPhase]) (by simp [Over, h])
  | remove h => exact hi.of_phase inv rfl rfl rfl rfl (fun _ => hi.flag (.inl h)) (by simp [Over, h])
  | removeTwice h => exact hi.of_phase inv rfl rfl rfl rfl (fun _ => hi.flag (.inl h)) id
  | free h => exact ⟨inv, hi.lock, hi.done, nofun, fun _ => .inr ⟨hi.flag (.inr h), .inl rfl⟩⟩
  | storeWaited retval h waited => exact hi.of_store inv (hi.early (by rw [h]; rfl)) rfl rfl nofun nofun
  | storeZombie retval h alone => exact hi.of_store inv (hi.early (by rw [h]; rfl)) rfl rfl nofun nofun
  | broadcast h => exact hi.of_phase inv rfl rfl rfl rfl (by simp [setPhase]) (by simp [Over, h])
  | wake h =>
      have stored : l.stored ≠ none := hi.storing (by rw [h]; rfl)
      refine ⟨inv, fun _ _ => stored, fun t v ht => ?_, nofun, fun _ => .inl stored⟩
      have ht : (if l.joiner t = .asleep then Joiner.lock else l.joiner t) = .done v := ht
      split at ht
      next => cases ht
      next => exact hi.done t v ht
  | unlock h => exact hi.of_phase inv rfl rfl rfl rfl (by simp [setPhase]) (by simp [Over, h])
  | leave h => exact hi.of_phase inv rfl rfl rfl rfl (by simp [setPhase]) (by simp [Over, setPhase])
  | detach listed joinable =>
      refine ⟨inv, hi.lock, hi.done, fun _ => rfl, fun h => ?_⟩
      exact (hi.freed h).imp_right fun h => ⟨rfl, h.2⟩
  | wait t => exact hi.of_joiner inv rfl rfl rfl rfl .inl nofun nofun
  | zombie t h listed joinable count =>
      have stored := hi.dead count
      apply hi.of_joiner inv rfl rfl rfl rfl (fun _ => .inr stored) nofun
      exact fun v hv => Joiner.done.inj hv ▸ hi.returnValue stored
  | sleep t => exact hi.of_joiner inv rfl rfl rfl rfl .inl nofun nofun
  | again t oldvalue h moved =>
      refine hi.of_joiner inv rfl rfl rfl rfl .inl (fun _ none => ?_) nofun
      exact moved (hi.wait t oldvalue h none).symm
  | spurious t h => exact hi.of_joiner inv rfl rfl rfl rfl .inl (fun _ => allowed rfl) nofun
  | last t h =>
      have stored := hi.lock t h
      apply hi.of_joiner inv rfl rfl rfl rfl (fun _ => .inr stored) nofun
      exact fun v hv => Joiner.done.inj hv ▸ hi.returnValue stored
  | lastTwice t h => exact hi.of_phase inv rfl rfl rfl rfl hi.flag id
  | more t h =>
      apply hi.of_joiner inv rfl rfl rfl rfl .inl nofun
      exact fun v hv => Joiner.done.inj hv ▸ hi.returnValue (hi.lock t h)
  | returns t => exact hi.of_joiner inv rfl rfl rfl rfl .inl nofun nofun

end Life

theorem wakesAfterStore_labels {s : Sys T} {a : Act T} {u : T} {k : Kind} (ok : wakesAfterStore s a = true)
    (label : Labels s a u k) : Life.WakesAfterStore k (life s u) := by
  rintro rfl
  obtain ⟨t, rfl, pc⟩ := label
  simp only [wakesAfterStore, pc] at ok
  exact Option.isSome_iff_ne_none.1 ok

theorem Reach.joined (h : Reach main wakesAfterStore s) (u : T) : (life s u).Joined :=
  life_invariant Life.WakesAfterStore (.of_out Life.inv_ofMain (fun _ => rfl) ⟨nofun, nofun⟩ rfl)
    (.of_out Life.inv_unborn (fun _ => rfl) ⟨nofun, nofun⟩ rfl) (fun _ _ _ hi h allowed => hi.step h allowed)
    (fun _ _ _ _ ok label => wakesAfterStore_labels ok label) h u

/-- A `pthread_join` on `u` that returns 0 has the value that `u` has stored, and the descriptor of `u` is freed after
that store; a detached thread, which nobody can join, frees its own descriptor at the end of its `pthread_exit` and
stores nothing. -/
def JoinsAfterStore (s : Sys T) : Prop :=
  (∀ t u v, s.pc t = .joined u v → s.stored u = some v) ∧
    ∀ u, 0 < s.freed u →
      s.stored u ≠ none ∨ (s.desc u).detached = true ∧ (s.pc u = .exitLeave ∨ s.pc u = .gone)

omit [DecidableEq T] in
theorem Pc.phase_eq_leave {pc : Pc T} : pc.phase = .leave ↔ pc = .exitLeave := by
  cases pc <;> simp [Pc.phase]

omit [DecidableEq T] in
theorem Pc.phase_eq_gone {pc : Pc T} : pc.phase = .gone ↔ pc = .gone := by
  cases pc <;> simp [Pc.phase]

/-- In every run in which no sleep of a joiner ends by itself before the thread has stored its value. -/
theorem joins_after_store (h : Reach main wakesAfterStore s) : JoinsAfterStore s := by
  refine ⟨fun t u v ht => ?_, fun u freed => ?_⟩
  · apply (h.joined u).done t v
    simp [life, ht, Pc.joiner]
  · refine ((h.joined u).freed freed).imp_right fun own => ⟨own.1, ?_⟩
    exact own.2.imp Pc.phase_eq_leave.1 Pc.phase_eq_gone.1

/-! For the numerals of two threads, and of three. -/

scoped instance neZero_two : NeZero 2 := ⟨by decide⟩

scoped instance neZero_three : NeZero 3 := ⟨by decide⟩

/-- The main thread waits for the thread 1, which exits with the value 7 and wakes it. -/
def joinRun : Sys (Fin 2) :=
  ((start 0).acts wakesAfterStore
    [.create 0 1 false false, .exec 1, .join 0 1, .exec 0, .exit 1 7, .exec 1, .exec 1, .exec 1, .exec 1,
      .exec 1, .exec 0]).getD (start 0)

theorem joins_after_store_joinRun : joinRun.pc 0 = .joined 1 7 ∧ joinRun.stored 1 = some 7 := by
  have reach : Reach 0 wakesAfterStore joinRun := Reach.start.getD _
  have pc : joinRun.pc 0 = .joined 1 7 := by decide
  exact ⟨pc, (joins_after_store reach).1 0 1 7 pc⟩

/-- The main thread waits for the thread 1; a signal ends its sleep, and it returns from `pthread_join` and frees the
descriptor of the thread 1, which runs on. -/
def earlyJoin : Sys (Fin 2) :=
  ((start 0).acts always
    [.create 0 1 false false, .exec 1, .join 0 1, .exec 0, .spurious 0, .exec 0]).getD (start 0)

theorem earlyJoin_before_store :
    Reach 0 always earlyJoin ∧ earlyJoin.pc 1 = .running ∧ 0 < earlyJoin.freed 1 ∧
      ¬ JoinsAfterStore earlyJoin := by
  refine ⟨Reach.start.getD _, by decide, by decide, fun h => ?_⟩
  have stored := h.1 0 1 0 (by decide)
  exact absurd stored (by decide)

/-! ### No joiner is left behind -/

/-- The thread has not yet tested its detached flag in `pthread_exit`. -/
def Phase.untested : Phase → Bool
  | .starting | .live | .test => true
  | _ => false

/-- No thread begins to wait for a thread that has already woken its joiners, and no thread is detached while others
wait for it and it has not yet tested the flag. -/
def joinsInTime (s : Sys T) : Act T → Bool
  | .join _ u =>
      !(u ∈ s.list && !(s.desc u).detached && 0 < (s.desc u).joinCount && (s.stored u).isSome)
  | .detach _ u =>
      !(u ∈ s.list && !(s.desc u).detached && 0 < (s.desc u).joinCount && (s.pc u).phase.untested)
  | _ => true

namespace Life

variable {l l' : Life T} {k : Kind}

/-- `joinsInTime`, seen from the descriptor. -/
structure InTime (k : Kind) (l : Life T) : Prop where
  wait : k = .wait → l.listed → l.desc.detached = false → 0 < l.desc.joinCount → l.stored = none
  detach : k = .detach → l.listed → l.desc.detached = false → 0 < l.desc.joinCount →
    l.phase.untested = false

/-- The thread is on the way of the detached threads. -/
def Detached (l : Life T) : Prop := l.phase = .remove ∨ l.phase = .free ∨ l.Over ∧ l.stored = none

/-- Which joiners are still to be woken. -/
structure Woken (l : Life T) : Prop extends Inv l where
  /-- Before the broadcast the waiting threads have read the present value of `join_cond`. -/
  before : l.stored = none ∨ l.phase = .broadcast → ∀ t w, l.joiner t = .wait w → w = l.desc.joinCond
  /-- After it they have read another value. -/
  after : l.stored ≠ none → l.phase ≠ .broadcast → ∀ t w, l.joiner t = .wait w → w ≠ l.desc.joinCond
  awake : l.stored ≠ none → l.phase ≠ .broadcast → l.phase ≠ .wake → ∀ t, l.joiner t ≠ .asleep
  alone : l.Detached → l.desc.detached = true ∧ ∀ t, (l.joiner t).counted = false
  joinable : l.desc.detached = true → l.phase.untested = true → l.desc.joinCount = 0

omit [DecidableEq T] in
theorem Inv.tested (hi : Inv l) (h : l.phase = .lock ∨ l.stored ≠ none) : l.phase.untested = false := by
  cases h with
  | inl h => rw [h]; rfl
  | inr stored =>
      by_contra untested
      apply stored
      apply hi.early
      revert untested
      cases l.phase <;> simp [Phase.untested, Phase.early]

omit [DecidableEq T] in
theorem Woken.of_out (inv : Inv l) (joiner : ∀ t, l.joiner t = .out) (stored : l.stored = none)
    (detached : ¬ l.Detached) (count : l.desc.joinCount = 0) : Woken l where
  toInv := inv
  before := fun _ t w h => by rw [joiner t] at h; cases h
  after := fun h => absurd stored h
  awake := fun h => absurd stored h
  alone := fun h => absurd h detached
  joinable := fun _ _ => count

omit [DecidableEq T] in
/-- The thread moves on in `pthread_exit`, before its store or after its wake-up call. -/
theorem Woken.of_phase (hi : Woken l) (inv : Inv l') (stored : l'.stored = l.stored)
    (joiner : l'.joiner = l.joiner) (cond : l'.desc.joinCond = l.desc.joinCond)
    (count : l'.desc.joinCount = l.desc.joinCount) (detached : l'.desc.detached = l.desc.detached)
    (phase : l.phase ≠ .broadcast ∧ l.phase ≠ .wake)
    (phase' : l'.phase ≠ .broadcast) (alone : l'.Detached → l.Detached ∨ l.desc.detached = true ∧ l.desc.joinCount = 0)
    (untested : l'.phase.untested = true → l.phase.untested = true) : Woken l' where
  toInv := inv
  before := by
    rw [stored, joiner, cond]
    exact fun h => hi.before (.inl (h.resolve_right phase'))
  after := by
    rw [stored, joiner, cond]
    exact fun h _ => hi.after h phase.1
  awake := by
    rw [stored, joiner]
    exact fun h _ _ => hi.awake h phase.1 phase.2
  alone := by
    rw [joiner, detached]
    intro h
    cases alone h with
    | inl h => exact hi.alone h
    | inr h =>
        refine ⟨h.1, fun t => ?_⟩
        by_contra ht
        have pos := hi.toCounted.pos (t := t) (by simpa using ht)
        omega
  joinable := by
    rw [detached, count]
    exact fun hd h => hi.joinable hd (untested h)

/-- The joiner `t` moves, and does not begin to wait. -/
theorem Woken.of_joiner (hi : Woken l) (inv : Inv l') {t : T} {j : Joiner} (stored : l'.stored = l.stored)
    (joiner : l'.joiner = Function.update l.joiner t j) (cond : l'.desc.joinCond = l.desc.joinCond)
    (detached : l'.desc.detached = l.desc.detached) (phase : l'.phase = l.phase) (wait : ∀ w, j ≠ .wait w)
    (asleep : j = .asleep → l.stored ≠ none → l.phase = .broadcast)
    (counted : j.counted = true → (l.joiner t).counted = true)
    (count : l.desc.detached = true → l.phase.untested = true → l'.desc.joinCount = 0) : Woken l' where
  toInv := inv
  before := by
    rw [stored, joiner, cond, phase]
    intro h r w hr
    exact hi.before h r w ((eq_or_of_update hr).resolve_left (wait w))
  after := by
    rw [stored, joiner, cond, phase]
    intro h hp r w hr
    exact hi.after h hp r w ((eq_or_of_update hr).resolve_left (wait w))
  awake := by
    rw [stored, joiner, phase]
    intro h hb hw r hr
    cases eq_or_of_update hr with
    | inl new => exact hb (asleep new h)
    | inr old => exact hi.awake h hb hw r old
  alone := by
    unfold Detached Over
    rw [stored, joiner, detached, phase]
    intro h
    obtain ⟨hd, none⟩ := hi.alone h
    refine ⟨hd, fun r => ?_⟩
    by_cases hrt : r = t
    · rw [hrt, Function.update_self]
      by_contra hj
      have := counted (by simpa using hj)
      rw [none t] at this
      contradiction
    · rw [Function.update_of_ne hrt]
      exact none r
  joinable := by
    rw [detached, phase]
    exact count

/-- The joiner `t` moves, and is not counted any more. -/
theorem Woken.of_gone (hi : Woken l) (inv : Inv l') {t : T} {j : Joiner} (stored : l'.stored = l.stored)
    (joiner : l'.joiner = Function.update l.joiner t j) (cond : l'.desc.joinCond = l.desc.joinCond)
    (detached : l'.desc.detached = l.desc.detached) (phase : l'.phase = l.phase) (gone : j.counted = false)
    (count : l.desc.detached = true → l.phase.untested = true → l'.desc.joinCount = 0) : Woken l' := by
  refine hi.of_joiner inv stored joiner cond detached phase (fun w h => ?_) (fun h => ?_) (fun h => ?_) count
  · rw [h] at gone
    cases gone
  · rw [h] at gone
    cases gone
  · rw [gone] at h
    cases h

omit [DecidableEq T] in
/-- A thread that is counted is not on the way of the detached threads, and the flag was set too late for it. -/
theorem Woken.not_counted (hi : Woken l) {t : T} (h : (l.joiner t).counted = true)
    (detached : l.desc.detached = true) : l.phase.untested = false := by
  by_contra untested
  have pos := hi.toCounted.pos h
  have zero := hi.joinable detached (by simpa using untested)
  omega

/-- A broadcast changes `join_cond`. -/
theorem ne_sub_one (w : Word) : w ≠ w - 1 := by
  bv_omega

theorem Woken.step (hi : Woken l) (h : Step l k l') (allowed : InTime k l) : Woken l' := by
  have inv := hi.toInv.step h
  cases h with
  | create detached userStack h =>
      exact .of_out inv (hi.fresh h).2 (hi.early (by rw [h]; rfl)) (by simp [Detached, Over, setPhase]) rfl
  | initTls h =>
      exact hi.of_phase inv rfl rfl rfl rfl rfl (by simp [h]) (by simp [setPhase])
        (by simp [Detached, Over, setPhase]) (by simp [h, Phase.untested])
  | exit h =>
      exact hi.of_phase inv rfl rfl rfl rfl rfl (by simp [h]) (by simp [setPhase])
        (by simp [Detached, Over, setPhase]) (by simp [h, Phase.untested])
  | testDetached h detached =>
      refine hi.of_phase inv rfl rfl rfl rfl rfl (by simp [h]) (by simp [setPhase]) (fun _ => .inr ⟨detached, ?_⟩)
        (by simp [setPhase, Phase.untested])
      exact hi.joinable detached (by rw [h]; rfl)
  | testJoinable h =>
      exact hi.of_phase inv rfl rfl rfl rfl rfl (by simp [h]) (by simp [setPhase])
        (by simp [Detached, Over, setPhase]) (by simp [setPhase, Phase.untested])
  | remove h =>
      exact hi.of_phase inv rfl rfl rfl rfl rfl (by simp [h]) (by simp [setPhase])
        (fun _ => .inl (.inl h)) (by simp [setPhase, Phase.untested])
  | removeTwice h =>
      exact hi.of_phase inv rfl rfl rfl rfl rfl (by simp [h]) (by simp [unlinked, h])
        (fun _ => .inl (.inl h)) id
  | free h =>
      exact hi.of_phase inv rfl rfl rfl rfl rfl (by simp [h]) (by simp [setPhase])
        (fun _ => .inl (.inr (.inl h))) (by simp [setPhase, Phase.untested])
  | storeWaited retval h waited =>
      have none : l.stored = none := hi.early (by rw [h]; rfl)
      exact ⟨inv, fun _ => hi.before (.inl none), fun _ h => absurd rfl h, fun _ h => absurd rfl h,
        by simp [Detached, Over, setPhase], by simp [setPhase, Phase.untested]⟩
  | storeZombie retval h alone =>
      have out : ∀ t, (l.joiner t).counted = false := by
        intro t
        by_contra ht
        exact alone (hi.toCounted.pos (by simpa using ht))
      refine ⟨inv, by simp [setPhase], fun _ _ t w ht => ?_, fun _ _ _ t ht => ?_,
        by simp [Detached, Over, setPhase], by simp [setPhase, Phase.untested]⟩
      · have := out t
        rw [show l.joiner t = .wait w from ht] at this
        cases this
      · have := out t
        rw [show l.joiner t = .asleep from ht] at this
        cases this
  | broadcast h =>
      have stored : l.stored ≠ none := hi.storing (by rw [h]; rfl)
      refine ⟨inv, fun h => ?_, fun _ _ t w ht => ?_, fun _ _ h => absurd rfl h, ?_,
        by simp [setPhase, Phase.untested]⟩
      · exact absurd h (by simp [setPhase, setDesc, stored])
      · rw [hi.before (.inr h) t w ht]
        exact ne_sub_one l.desc.joinCond
      · simp [Detached, Over, setPhase]
  | wake h =>
      have stored : l.stored ≠ none := hi.storing (by rw [h]; rfl)
      refine ⟨inv, fun h => ?_, fun _ _ t w ht => ?_, fun _ _ _ t ht => ?_, ?_, by simp [setPhase, Phase.untested]⟩
      · exact absurd h (by simp [setPhase, stored])
      · have ht : (if l.joiner t = .asleep then Joiner.lock else l.joiner t) = .wait w := ht
        split at ht
        next => cases ht
        next => exact hi.after stored (by simp [h]) t w ht
      · have ht : (if l.joiner t = .asleep then Joiner.lock else l.joiner t) = .asleep := ht
        split at ht
        next => cases ht
        next h => exact h ht
      · simp [Detached, Over, setPhase]
  | unlock h =>
      have stored : l.stored ≠ none := hi.storing (by rw [h]; rfl)
      exact hi.of_phase inv rfl rfl rfl rfl rfl (by simp [h]) (by simp [setPhase])
        (by simp [Detached, Over, setPhase, stored]) (by simp [setPhase, Phase.untested])
  | leave h =>
      refine hi.of_phase inv rfl rfl rfl rfl rfl (by simp [h]) (by simp [setPhase]) (fun hd => .inl ?_)
        (by simp [setPhase, Phase.untested])
      have none : l.stored = none := by simpa [Detached, Over, setPhase] using hd
      exact .inr (.inr ⟨.inl h, none⟩)
  | detach listed joinable =>
      refine ⟨inv, hi.before, hi.after, hi.awake, fun h => ⟨rfl, (hi.alone h).2⟩, fun _ untested => ?_⟩
      have untested : l.phase.untested = true := untested
      have dead : ¬ l.desc.joinCount < 0 := by
        intro neg
        exact Bool.false_ne_true ((hi.tested (.inr (hi.dead neg))).symm.trans untested)
      have pos : ¬ 0 < l.desc.joinCount := by
        intro pos
        exact Bool.false_ne_true ((allowed.detach rfl listed joinable pos).symm.trans untested)
      show l.desc.joinCount = 0
      omega
  | wait t h listed joinable count =>
      have none : l.stored = none := by
        by_contra stored
        have ne := hi.waited listed stored
        exact stored (allowed.wait rfl listed joinable (by omega))
      refine ⟨inv, fun _ r w hr => ?_, fun h => absurd none h, fun h => absurd none h, fun hd => ?_,
        fun hd => ?_⟩
      · have hr : Function.update l.joiner t (.wait l.desc.joinCond) r = .wait w := hr
        cases eq_or_of_update hr with
        | inl new => exact (Joiner.wait.inj new).symm
        | inr old => exact hi.before (.inl none) r w old
      · have flag : l.desc.detached = true := (hi.alone hd).1
        rw [joinable] at flag
        cases flag
      · rw [show l.desc.detached = true from hd] at joinable
        cases joinable
  | zombie t h => exact hi.of_gone inv rfl rfl rfl rfl rfl rfl hi.joinable
  | sleep t h =>
      refine hi.of_joiner inv rfl rfl rfl rfl rfl (by simp) (fun _ stored => ?_) (fun _ => by rw [h]; rfl) hi.joinable
      by_contra hp
      exact hi.after stored hp t _ h rfl
  | again t w h =>
      exact hi.of_joiner inv rfl rfl rfl rfl rfl (by simp) (by simp) (fun _ => by rw [h]; rfl) hi.joinable
  | spurious t h =>
      exact hi.of_joiner inv rfl rfl rfl rfl rfl (by simp) (by simp) (fun _ => by rw [h]; rfl) hi.joinable
  | last t h =>
      refine hi.of_gone inv rfl rfl rfl rfl rfl rfl (fun hd hu => ?_)
      rw [hi.not_counted (t := t) (by rw [h]; rfl) hd] at hu
      cases hu
  | lastTwice t h => exact ⟨inv, hi.before, hi.after, hi.awake, hi.alone, hi.joinable⟩
  | more t h count =>
      refine hi.of_gone inv rfl rfl rfl rfl rfl rfl (fun hd hu => ?_)
      rw [hi.not_counted (t := t) (by rw [h]; rfl) hd] at hu
      cases hu
  | returns t => exact hi.of_gone inv rfl rfl rfl rfl rfl rfl hi.joinable

end Life

theorem joinsInTime_labels {s : Sys T} {a : Act T} {u : T} {k : Kind} (ok : joinsInTime s a = true)
    (label : Labels s a u k) : Life.InTime k (life s u) := by
  constructor
  · rintro rfl listed joinable pos
    obtain ⟨t, rfl⟩ := label
    have listed : u ∈ s.list := listed
    have joinable : (s.desc u).detached = false := joinable
    have pos : 0 < (s.desc u).joinCount := pos
    show s.stored u = none
    simpa [joinsInTime, listed, joinable, pos] using ok
  · rintro rfl listed joinable pos
    obtain ⟨t, rfl⟩ := label
    have listed : u ∈ s.list := listed
    have joinable : (s.desc u).detached = false := joinable
    have pos : 0 < (s.desc u).joinCount := pos
    show (s.pc u).phase.untested = false
    simpa [joinsInTime, listed, joinable, pos] using ok

theorem Reach.woken (h : Reach main joinsInTime s) (u : T) : (life s u).Woken :=
  life_invariant Life.InTime (.of_out Life.inv_ofMain (fun _ => rfl) rfl (by simp [Life.Detached, Life.Over, Life.ofMain]) rfl)
    (.of_out Life.inv_unborn (fun _ => rfl) rfl (by simp [Life.Detached, Life.Over, Life.unborn]) rfl)
    (fun _ _ _ hi h allowed => hi.step h allowed) (fun _ _ _ _ ok label => joinsInTime_labels ok label) h u

/-- A thread sleeps on the `join_cond` of a thread that has completed `pthread_exit`, and no wake-up call is to
come; only the thread itself wakes its joiners. -/
def Stranded (s : Sys T) : Prop :=
  ∃ t u, s.pc u = .gone ∧ s.pc t = .joinAsleep u ∧ ¬ (s.pc u = .exitBroadcast ∨ s.pc u = .exitWake)

/-- In every run that keeps to `joinsInTime`, whatever sleeps end by themselves. -/
theorem no_joiner_stranded (h : Reach main joinsInTime s) : ¬ Stranded s := by
  rintro ⟨t, u, gone, asleep, -⟩
  have woken := h.woken u
  have phase : (life s u).phase = .gone := by simp only [life, gone]; rfl
  have sleeps : (life s u).joiner t = .asleep := joiner_eq_asleep.2 asleep
  by_cases stored : (life s u).stored = none
  · have counted := (woken.alone (.inr (.inr ⟨.inr phase, stored⟩))).2 t
    rw [sleeps] at counted
    cases counted
  · exact woken.awake stored (by simp [phase]) (by simp [phase]) t sleeps

/-- The threads 0 and 2 wait for the thread 1, which wakes both and is gone. -/
def twoJoiners : Sys (Fin 3) :=
  ((start 0).acts joinsInTime
    [.create 0 1 false false, .create 0 2 false false, .exec 1, .exec 2, .join 0 1, .join 2 1, .exec 0, .exec 2,
      .exit 1 7, .exec 1, .exec 1, .exec 1, .exec 1, .exec 1, .exec 1]).getD (start 0)

theorem no_joiner_stranded_twoJoiners :
    twoJoiners.pc 1 = .gone ∧ twoJoiners.pc 0 = .joinLock 1 ∧ twoJoiners.pc 2 = .joinLock 1 ∧
      ¬ Stranded twoJoiners := by
  have reach : Reach 0 joinsInTime twoJoiners := Reach.start.getD _
  exact ⟨by decide, by decide, by decide, no_joiner_stranded reach⟩

/-- The thread 1 has woken the thread 0 and is gone; before the thread 0 is back under the lock, the thread 2 finds
`join_count` positive and falls asleep. -/
def lateJoiner : Sys (Fin 3) :=
  ((start 0).acts always
    [.create 0 1 false false, .create 0 2 false false, .exec 1, .exec 2, .join 0 1, .exec 0, .exit 1 7, .exec 1,
      .exec 1, .exec 1, .exec 1, .exec 1, .exec 1, .join 2 1, .exec 2, .exec 0]).getD (start 0)

/-- The thread 0 waits for the thread 1, which the thread 2 detaches; its `pthread_exit` wakes nobody. -/
def detachedJoin : Sys (Fin 3) :=
  ((start 0).acts always
    [.create 0 1 false false, .create 0 2 false false, .exec 1, .exec 2, .join 0 1, .exec 0, .detach 2 1, .exit 1 7,
      .exec 1, .exec 1, .exec 1, .exec 1]).getD (start 0)

theorem joiners_stranded :
    Reach 0 always lateJoiner ∧ Stranded lateJoiner ∧ Reach 0 always detachedJoin ∧ Stranded detachedJoin :=
  ⟨Reach.start.getD _, ⟨2, 1, by decide, by decide, by decide⟩, Reach.start.getD _,
    ⟨0, 1, by decide, by decide, by decide⟩⟩

end Bionic.Threads
