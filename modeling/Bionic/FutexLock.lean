import Mathlib.Logic.Relation
import Mathlib.Tactic.ByContra

/-! # The three-state futex lock

Threads of an arbitrary type `T` share one 32-bit futex word: `0` is free, `1` is
locked, `2` is locked with possible waiters.  A thread takes the lock by a
compare-and-swap of `0` to `1` and, failing that, by swapping `2` in until it
finds `0`, sleeping in the kernel between two tries.  It releases the lock by an
atomic decrement; when the word was not `1` it stores `0` and wakes one sleeper.

`Move` says what one thread can do alone, `Step` adds the kernel's wake-up call.
`Inv` holds initially and survives every step (`Inv.step`): one owner at most, the word tells
whether there is one, and a sleeper always has somebody who will wake it or who
will leave the word in state `2`. -/

namespace FutexLock

/-- Where a thread stands in the code of the lock. -/
inductive Phase
  | out
  /-- Before the compare-and-swap of an attempt that does not wait. -/
  | attempt
  /-- Before the first compare-and-swap of a lock. -/
  | cas
  | swap
  /-- Before the call that sleeps while the word is `2`. -/
  | wait
  | asleep
  /-- Before the decrement of an unlock. -/
  | dec
  | store
  | wake
deriving DecidableEq, Repr

/-- What one thread sees of the lock. -/
structure View where
  word : BitVec 32
  owns : Bool
  phase : Phase

/-- The moves a thread makes alone; `spurious` is a sleep that ends by itself. -/
inductive Move : View → View → Prop
  | stay {v} : Move v v
  | lock {w o} : Move ⟨w, o, .out⟩ ⟨w, o, .cas⟩
  | tryLock {w o} : Move ⟨w, o, .out⟩ ⟨w, o, .attempt⟩
  | unlock {w} : Move ⟨w, true, .out⟩ ⟨w, true, .dec⟩
  | attemptTaken {o} : Move ⟨0, o, .attempt⟩ ⟨1, true, .out⟩
  | attemptBusy {w o} : w ≠ 0 → Move ⟨w, o, .attempt⟩ ⟨w, o, .out⟩
  | casTaken {o} : Move ⟨0, o, .cas⟩ ⟨1, true, .out⟩
  | casBusy {w o} : w ≠ 0 → Move ⟨w, o, .cas⟩ ⟨w, o, .swap⟩
  | swapTaken {o} : Move ⟨0, o, .swap⟩ ⟨2, true, .out⟩
  | swapBusy {w o} : w ≠ 0 → Move ⟨w, o, .swap⟩ ⟨2, o, .wait⟩
  | sleep {o} : Move ⟨2, o, .wait⟩ ⟨2, o, .asleep⟩
  | again {w o} : w ≠ 2 → Move ⟨w, o, .wait⟩ ⟨w, o, .swap⟩
  | spurious {w o} : Move ⟨w, o, .asleep⟩ ⟨w, o, .swap⟩
  | decLast {o} : Move ⟨1, o, .dec⟩ ⟨0, false, .out⟩
  | decMore {w o} : w ≠ 1 → Move ⟨w, o, .dec⟩ ⟨w - 1, o, .store⟩
  | store {w o} : Move ⟨w, o, .store⟩ ⟨0, false, .wake⟩

/-- The lock and all its threads. -/
@[ext] structure State (T : Type*) where
  word : BitVec 32
  owns : T → Bool
  phase : T → Phase

variable {T : Type*} {s s' : State T}

/-- The view a thread has of the state. -/
def State.view (s : State T) (t : T) : View := ⟨s.word, s.owns t, s.phase t⟩

/-- The two states agree on the threads outside `moved`. -/
def AgreeOff (s s' : State T) (moved : T → Prop) : Prop :=
  ∀ u, ¬ moved u → s'.owns u = s.owns u ∧ s'.phase u = s.phase u

/-- One step of the system. -/
inductive Step (s s' : State T) : Prop
  | move (t : T) (h : Move (s.view t) (s'.view t)) (off : AgreeOff s s' (· = t))
  /-- The wake-up call of `t` ends the sleep of `u`. -/
  | wakeOne (t u : T) (ht : s.phase t = .wake) (hu : s.phase u = .asleep)
      (word : s'.word = s.word) (owns : s'.owns = s.owns)
      (ht' : s'.phase t = .out) (hu' : s'.phase u = .swap)
      (off : AgreeOff s s' (fun v => v = t ∨ v = u))
  /-- The wake-up call of `t` finds nobody asleep. -/
  | wakeNone (t : T) (ht : s.phase t = .wake) (none : ∀ u, s.phase u ≠ .asleep)
      (word : s'.word = s.word) (owns : s'.owns = s.owns) (ht' : s'.phase t = .out)
      (off : AgreeOff s s' (· = t))

/-- The free lock with every thread outside. -/
def init (T : Type*) : State T := ⟨0, fun _ => false, fun _ => .out⟩

/-- The phases of a thread that will see to the sleepers: it wakes one, or it
leaves the word in state `2`. -/
def Phase.responsible : Phase → Bool
  | .swap | .store | .wake => true
  | _ => false

/-- Who owns the lock, and how the word shows it. -/
structure Owned (s : State T) : Prop where
  unique : ∀ t u, s.owns t = true → s.owns u = true → t = u
  word_cases : s.word = 0 ∨ s.word = 1 ∨ s.word = 2
  free : s.word = 0 → ∀ t, s.owns t = false
  held : s.word ≠ 0 → ∃ t, s.owns t = true

/-- The invariant of the lock. -/
structure Inv (s : State T) : Prop extends Owned s where
  unlocking : ∀ t, s.phase t = .dec ∨ s.phase t = .store → s.owns t = true
  watched : ∀ u, s.phase u = .asleep → s.word = 2 ∨ ∃ t, (s.phase t).responsible = true

theorem inv_init : Inv (init T) where
  unique := by simp [init]
  word_cases := .inl rfl
  free := by simp [init]
  held := by simp [init]
  unlocking := by simp [init]
  watched := by simp [init]

/-! ### Sleepers that are watched -/

/-- One thread moves.  Sleepers stay watched, by the word (`c`) or by a responsible
thread, if the mover stays responsible until the word watches, if the word watches
until the mover is responsible, and if the mover falls asleep only under a word that
watches. -/
theorem watched_move (asleep asleep' resp resp' : T → Prop) {c c' : Prop} (t : T)
    (off : ∀ u, u ≠ t → (asleep' u → asleep u) ∧ (resp u → resp' u))
    (responsible : resp t → c' ∨ resp' t) (contended : c → c' ∨ resp' t)
    (sleeper : asleep' t → c' ∨ asleep t)
    (watched : ∀ u, asleep u → c ∨ ∃ v, resp v) (u : T) (hu : asleep' u) :
    c' ∨ ∃ v, resp' v := by
  have old : c' ∨ asleep u := by
    by_cases hut : u = t
    · subst hut
      exact sleeper hu
    · exact .inr ((off u hut).1 hu)
  cases old with
  | inl hc => exact .inl hc
  | inr hu =>
      cases watched u hu with
      | inl hc => exact (contended hc).imp_right fun hr => ⟨t, hr⟩
      | inr hr =>
          obtain ⟨v, hv⟩ := hr
          by_cases hvt : v = t
          · subst hvt
            exact (responsible hv).imp_right fun hr => ⟨v, hr⟩
          · exact .inr ⟨v, (off v hvt).2 hv⟩

/-! ### One thread moves -/

/-- What a move does to the word and to the ownership of the thread that makes it. -/
inductive Effect (v v' : View) : Prop
  | keep (word : v'.word = v.word) (owns : v'.owns = v.owns)
  | take (free : v.word = 0) (word : v'.word = 1 ∨ v'.word = 2) (owns : v'.owns = true)
  /-- The held lock stays held; its word goes to `2`, or from `2` to `1` by its owner. -/
  | mark (held : v.word ≠ 0) (word : v'.word = 2 ∨ v.word = 2 ∧ v'.word = 1)
      (owns : v'.owns = v.owns)
  | drop (unlocking : v.phase = .dec ∨ v.phase = .store) (word : v'.word = 0)
      (owns : v'.owns = false)

theorem Move.effect {v v' : View} (h : Move v v')
    (hw : v.word = 0 ∨ v.word = 1 ∨ v.word = 2) (hd : v.phase = .dec → v.word ≠ 0) :
    Effect v v' := by
  cases h with
  | stay => exact .keep rfl rfl
  | lock => exact .keep rfl rfl
  | tryLock => exact .keep rfl rfl
  | unlock => exact .keep rfl rfl
  | attemptTaken => exact .take rfl (.inl rfl) rfl
  | attemptBusy => exact .keep rfl rfl
  | casTaken => exact .take rfl (.inl rfl) rfl
  | casBusy => exact .keep rfl rfl
  | swapTaken => exact .take rfl (.inr rfl) rfl
  | swapBusy h => exact .mark h (.inl rfl) rfl
  | sleep => exact .keep rfl rfl
  | again => exact .keep rfl rfl
  | spurious => exact .keep rfl rfl
  | decLast => exact .drop (.inl rfl) rfl rfl
  | decMore h =>
      have h2 : _ = 2#32 := (hw.resolve_left (hd rfl)).resolve_left h
      subst h2
      exact .mark (hd rfl) (.inr ⟨rfl, rfl⟩) rfl
  | store => exact .drop (.inr rfl) rfl rfl

theorem Owned.word_ne_zero (hi : Owned s) {t : T} (ht : s.owns t = true) : s.word ≠ 0 := by
  intro h0
  rw [hi.free h0 t] at ht
  contradiction

theorem Owned.congr (hi : Owned s) (word : s'.word = s.word) (owns : s'.owns = s.owns) :
    Owned s' where
  unique := by rw [owns]; exact hi.unique
  word_cases := by rw [word]; exact hi.word_cases
  free := by rw [word, owns]; exact hi.free
  held := by rw [word, owns]; exact hi.held

theorem locked_ne_zero {w : BitVec 32} (h : w = 1 ∨ w = 2) : w ≠ 0 := by
  cases h with
  | inl h => rw [h]; decide
  | inr h => rw [h]; decide

theorem Owned.effect {t : T} (hi : Owned s) (h : Effect (s.view t) (s'.view t))
    (hd : s.phase t = .dec ∨ s.phase t = .store → s.owns t = true)
    (off : ∀ u, u ≠ t → s'.owns u = s.owns u) : Owned s' := by
  cases h with
  | keep word owns =>
      refine hi.congr word (funext fun u => ?_)
      by_cases hu : u = t
      · rw [hu]; exact owns
      · exact off u hu
  | mark held word owns =>
      have hw : s'.word = 1 ∨ s'.word = 2 := word.elim .inr (fun h => .inl h.2)
      have ho : s'.owns = s.owns := by
        funext u
        by_cases hu : u = t
        · rw [hu]; exact owns
        · exact off u hu
      refine ⟨?_, .inr hw, fun h0 => absurd h0 (locked_ne_zero hw), ?_⟩
      · rw [ho]; exact hi.unique
      · intro _
        rw [ho]; exact hi.held held
  | take free word owns =>
      have hw : s'.word = 1 ∨ s'.word = 2 := word
      have only : ∀ u, s'.owns u = true → u = t := by
        intro u hu
        by_contra hne
        rw [off u hne, hi.free free u] at hu
        contradiction
      exact ⟨fun u v hu hv => (only u hu).trans (only v hv).symm, .inr hw,
        fun h0 => absurd h0 (locked_ne_zero hw), fun _ => ⟨t, owns⟩⟩
  | drop unlocking word owns =>
      have hw : s'.word = 0 := word
      have none : ∀ u, s'.owns u = false := by
        intro u
        by_cases hu : u = t
        · rw [hu]; exact owns
        · rw [off u hu]
          by_contra h
          exact hu (hi.unique u t (by simpa using h) (hd unlocking))
      refine ⟨fun u v hu => ?_, .inl hw, fun _ => none, fun h => absurd hw h⟩
      rw [none u] at hu
      contradiction

/-- A thread is before the decrement or the store only while it owns the lock. -/
theorem Move.unlocking {v v' : View} (h : Move v v')
    (hd : v.phase = .dec ∨ v.phase = .store → v.owns = true)
    (hp : v'.phase = .dec ∨ v'.phase = .store) : v'.owns = true := by
  cases h with
  | stay => exact hd hp
  | unlock => rfl
  | decMore => exact hd (.inl rfl)
  | _ => simp at hp

/-- A responsible thread stays so until the word is `2`. -/
theorem Move.responsible {v v' : View} (h : Move v v') (hr : v.phase.responsible = true) :
    v'.word = 2 ∨ v'.phase.responsible = true := by
  cases h with
  | stay => exact .inr hr
  | swapTaken => exact .inl rfl
  | swapBusy => exact .inl rfl
  | store => exact .inr rfl
  | _ => simp [Phase.responsible] at hr

/-- A word in state `2` stays so unless the mover becomes responsible. -/
theorem Move.contended {v v' : View} (h : Move v v') (h2 : v.word = 2) :
    v'.word = 2 ∨ v'.phase.responsible = true := by
  cases h with
  | decMore => exact .inr rfl
  | store => exact .inr rfl
  | swapBusy => exact .inl rfl
  | attemptTaken => simp at h2
  | casTaken => simp at h2
  | swapTaken => exact .inl rfl
  | decLast => simp at h2
  | _ => exact .inl h2

/-- Nobody falls asleep on a word that is not `2`. -/
theorem Move.asleep {v v' : View} (h : Move v v') (hp : v'.phase = .asleep) :
    v'.word = 2 ∨ v' = v := by
  cases h with
  | stay => exact .inr rfl
  | sleep => exact .inl rfl
  | _ => simp at hp

theorem Inv.move {t : T} (hi : Inv s) (h : Move (s.view t) (s'.view t))
    (off : AgreeOff s s' (· = t)) : Inv s' := by
  have hd : s.phase t = .dec → s.word ≠ 0 := fun hp => hi.word_ne_zero (hi.unlocking t (.inl hp))
  have owned := hi.toOwned.effect (h.effect hi.word_cases hd) (hi.unlocking t)
    (fun u hu => (off u hu).1)
  refine ⟨owned, ?_, ?_⟩
  · intro u hu
    by_cases hut : u = t
    · subst hut
      exact h.unlocking (hi.unlocking u) hu
    · rw [(off u hut).1]
      rw [(off u hut).2] at hu
      exact hi.unlocking u hu
  · refine watched_move (s.phase · = .asleep) (s'.phase · = .asleep)
      (fun u => (s.phase u).responsible = true) (fun u => (s'.phase u).responsible = true) t
      ?_ h.responsible h.contended ?_ hi.watched
    · intro u hut
      rw [(off u hut).2]
      exact ⟨id, id⟩
    · intro hp
      exact (h.asleep hp).imp_right fun same => (congrArg View.phase same).symm.trans hp

/-! ### The wake-up call -/

/-- A step that changes phases only, and none of them to or from an unlock under way. -/
theorem Inv.wake (hi : Inv s) (word : s'.word = s.word) (owns : s'.owns = s.owns)
    (hp : ∀ t, s'.phase t = .dec ∨ s'.phase t = .store → s'.phase t = s.phase t)
    (hs : ∀ u, s'.phase u = .asleep → s.word = 2 ∨ ∃ t, (s'.phase t).responsible = true) :
    Inv s' := by
  refine ⟨hi.toOwned.congr word owns, ?_, by rw [word]; exact hs⟩
  intro t ht
  rw [owns]
  exact hi.unlocking t (hp t ht ▸ ht)

theorem Inv.step (hi : Inv s) (h : Step s s') : Inv s' := by
  cases h with
  | move t h off => exact hi.move h off
  | wakeOne t u ht hu word owns ht' hu' off =>
      apply hi.wake word owns
      · intro v hv
        by_cases hvt : v = t
        · simp [hvt, ht'] at hv
        · by_cases hvu : v = u
          · simp [hvu, hu'] at hv
          · exact (off v (by simp [hvt, hvu])).2
      · exact fun _ _ => .inr ⟨u, by rw [hu']; rfl⟩
  | wakeNone t ht none word owns ht' off =>
      apply hi.wake word owns
      · intro v hv
        by_cases hvt : v = t
        · simp [hvt, ht'] at hv
        · exact (off v hvt).2
      · intro u hu
        by_cases hut : u = t
        · simp [hut, ht'] at hu
        · rw [(off u hut).2] at hu
          exact absurd hu (none u)

/-! ### What the invariant gives -/

/-- Whenever the lock is free and somebody sleeps on it, a thread that is awake will
swap `2` in or has a wake-up call ahead. -/
theorem Inv.not_lost (hi : Inv s) (h0 : s.word = 0) {u : T} (hu : s.phase u = .asleep) :
    ∃ t, s.phase t = .swap ∨ s.phase t = .wake := by
  cases hi.watched u hu with
  | inl h2 => rw [h0] at h2; contradiction
  | inr h =>
      obtain ⟨t, ht⟩ := h
      refine ⟨t, ?_⟩
      cases hp : s.phase t with
      | swap => exact .inl rfl
      | wake => exact .inr rfl
      | store =>
          have := hi.unlocking t (.inr hp)
          rw [hi.free h0 t] at this
          contradiction
      | _ => simp [hp, Phase.responsible] at ht

end FutexLock
