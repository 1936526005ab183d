import Bionic.Linker
import Bionic.RefGraph

/-! # The lists of the linker and what calls leave alone

`Wf` is the shape of `solist` and `freelist`: `libdl_info` first, no entry twice, the entries from
the used part of the pool.  `allocInfo_spec` and `freeInfo_returns` keep it.

The other notions compare states.  `Same` entries differ in their `refcount` only; `Logs` says
which entries the calls made in between were about; `lookup_append` and `lookup_sublist` are why a
name keeps leading to the same entry: entries are added behind all others, and the entry found is
the first of its name. -/

namespace Bionic.Linker

open StateExcept RefGraph

/-! ### Assignments -/

namespace State

variable (s : State) (si : Ptr) (f : Soinfo → Soinfo) (es : List Event)

@[simp] theorem update_so_self : (s.update si f).so si = f (s.so si) := by simp [update]

theorem update_so_of_ne {x : Ptr} (h : x ≠ si) : (s.update si f).so x = s.so x := by
  simp [update, h]

theorem update_so (x : Ptr) : (s.update si f).so x = if x = si then f (s.so si) else s.so x := by
  by_cases h : x = si
  · subst h
    simp
  · simp [update_so_of_ne, h]

@[simp] theorem update_solist : (s.update si f).solist = s.solist := rfl
@[simp] theorem update_freelist : (s.update si f).freelist = s.freelist := rfl
@[simp] theorem update_socount : (s.update si f).socount = s.socount := rfl
@[simp] theorem update_ba : (s.update si f).ba = s.ba := rfl
@[simp] theorem update_log : (s.update si f).log = s.log := rfl

@[simp] theorem record_so : (s.record es).so = s.so := rfl
@[simp] theorem record_solist : (s.record es).solist = s.solist := rfl
@[simp] theorem record_freelist : (s.record es).freelist = s.freelist := rfl
@[simp] theorem record_socount : (s.record es).socount = s.socount := rfl
@[simp] theorem record_ba : (s.record es).ba = s.ba := rfl
@[simp] theorem record_log : (s.record es).log = s.log ++ es := rfl

end State

/-- The two entries differ in `refcount` only. -/
def Same (i j : Soinfo) : Prop := { i with refcount := 0 } = { j with refcount := 0 }

namespace Same

variable {i j k : Soinfo}

theorem refl (i : Soinfo) : Same i i := rfl

theorem trans (h : Same i j) (h' : Same j k) : Same i k := Eq.trans h h'

theorem symm (h : Same i j) : Same j i := Eq.symm h

theorem refcount (i : Soinfo) (n : BitVec 32) : Same i { i with refcount := n } := rfl

theorem name (h : Same i j) : j.name = i.name := (congrArg Soinfo.name h).symm
theorem flags (h : Same i j) : j.flags = i.flags := (congrArg Soinfo.flags h).symm
theorem dynamic (h : Same i j) : j.dynamic = i.dynamic := (congrArg Soinfo.dynamic h).symm
theorem baIndex (h : Same i j) : j.baIndex = i.baIndex := (congrArg Soinfo.baIndex h).symm
theorem mapped (h : Same i j) : j.mapped = i.mapped := (congrArg Soinfo.mapped h).symm
theorem taken (h : Same i j) : j.taken = i.taken := (congrArg Soinfo.taken h).symm

theorem withTaken (h : Same i j) (l : List Ptr) : Same { i with taken := l } { j with taken := l } :=
  congrArg (fun k : Soinfo => ({ k with taken := l } : Soinfo)) h

theorem eq (h : Same i j) (hr : j.refcount = i.refcount) : j = i := by
  cases i
  cases j
  simp_all [Same]

/-- An update of one entry changes its `refcount` only. -/
theorem update {f : Soinfo → Soinfo} (hf : ∀ i, Same i (f i)) (s : State) (x z : Ptr) :
    Same (s.so z) ((s.update x f).so z) := by
  rw [State.update_so]
  split
  · next hz =>
    rw [hz]
    exact hf (s.so x)
  · exact Same.refl _

end Same

/-! ### The lists -/

/-- `solist` starts with `libdl_info`; `solist` and `freelist` are disjoint lists of entries from
the used part of the pool. -/
structure Wf (s : State) : Prop where
  head : s.solist.head? = some .libdl
  nodup : (s.solist ++ s.freelist).Nodup
  used : ∀ x ∈ s.solist ++ s.freelist, x = .libdl ∨ ∃ i < s.socount, x = .pool i
  count : s.socount ≤ SO_MAX

namespace Wf

variable {s s' : State}

theorem congr (h : Wf s) (hl : s'.solist = s.solist) (hf : s'.freelist = s.freelist)
    (hc : s'.socount = s.socount) : Wf s' := by
  refine ⟨?_, ?_, ?_, ?_⟩
  · rw [hl]
    exact h.head
  · rw [hl, hf]
    exact h.nodup
  · rw [hl, hf, hc]
    exact h.used
  · rw [hc]
    exact h.count

theorem nodup_solist (h : Wf s) : s.solist.Nodup := (List.nodup_append.1 h.nodup).1

theorem libdl_mem (h : Wf s) : .libdl ∈ s.solist := List.mem_of_head? h.head

/-- `solist` has at most one entry per pool entry, and `libdl_info`. -/
theorem length_le (h : Wf s) : s.solist.length ≤ SO_MAX + 1 := by
  have hsub : s.solist ⊆ .libdl :: (List.range SO_MAX).map .pool := by
    intro x hx
    rcases h.used x (List.mem_append_left _ hx) with rfl | ⟨i, hi, rfl⟩
    · exact List.mem_cons_self
    · have := h.count
      exact List.mem_cons_of_mem _ (List.mem_map_of_mem (List.mem_range.2 (by omega)))
  have hle := (h.nodup_solist.subperm hsub).length_le
  simpa using hle

theorem length_pos (h : Wf s) : 0 < s.solist.length := List.length_pos_of_mem h.libdl_mem

/-- An entry that `alloc_info` takes from the free list or from the unused part of the pool. -/
theorem install (h : Wf s) {si : Ptr} {fl : List Ptr} {n : ℕ} (name : CStr)
    (hn : (s.solist ++ si :: fl).Nodup)
    (hu : ∀ x ∈ s.solist ++ si :: fl, x = .libdl ∨ ∃ i < n, x = .pool i) (hc : n ≤ SO_MAX) :
    Wf (s.install si name fl n) := by
  have he : (s.solist ++ [si]) ++ fl = s.solist ++ si :: fl := by simp
  refine ⟨?_, ?_, ?_, hc⟩
  · rw [State.install, List.head?_append, h.head]
    rfl
  · rw [State.install, he]
    exact hn
  · rw [State.install, he]
    exact hu

end Wf

theorem allocInfo_spec {s : State} (h : Wf s) (name : CStr) :
    Total (allocInfo name) s fun r s' => (r = none ∧ s' = s) ∨
      ∃ si fl n, r = some si ∧ si ∉ s.solist ∧ s' = s.install si name fl n ∧ Wf s' := by
  unfold allocInfo
  by_cases hlen : SOINFO_NAME_LEN ≤ name.length
  · exact ⟨none, s, if_pos hlen, Or.inl ⟨rfl, rfl⟩⟩
  cases hfl : s.freelist with
  | cons si next =>
      refine ⟨some si, s.install si name next s.socount, ?_, Or.inr ⟨si, next, s.socount, rfl, ?_, rfl, ?_⟩⟩
      · simp [Returns, hlen, hfl]
      · intro hs
        have hn := h.nodup
        rw [hfl] at hn
        exact (List.nodup_append.1 hn).2.2 si hs si List.mem_cons_self rfl
      · apply h.install
        · rw [← hfl]
          exact h.nodup
        · rw [← hfl]
          exact h.used
        · exact h.count
  | nil =>
      by_cases hc : s.socount = SO_MAX
      · exact ⟨none, s, by simp [Returns, hlen, hfl, hc], Or.inl ⟨rfl, rfl⟩⟩
      have hnew : Ptr.pool s.socount ∉ s.solist := by
        intro hs
        rcases h.used _ (List.mem_append_left _ hs) with h0 | ⟨i, hi, h0⟩
        · cases h0
        · cases h0
          omega
      refine ⟨some (.pool s.socount), s.install (.pool s.socount) name [] (s.socount + 1), ?_,
        Or.inr ⟨_, _, _, rfl, hnew, rfl, ?_⟩⟩
      · simp [Returns, hlen, hfl, hc]
      · apply h.install
        · refine List.nodup_append.2 ⟨h.nodup_solist, by simp, ?_⟩
          rintro a ha b hb rfl
          rw [List.mem_singleton] at hb
          exact hnew (hb ▸ ha)
        · intro x hx
          rcases List.mem_append.1 hx with hx | hx
          · rcases h.used x (List.mem_append_left _ hx) with h0 | ⟨i, hi, h0⟩
            · exact Or.inl h0
            · exact Or.inr ⟨i, by omega, h0⟩
          · rw [List.mem_singleton] at hx
            exact Or.inr ⟨s.socount, by omega, hx⟩
        · have := h.count
          omega

/-! ### `free_info` -/

theorem findPrev_some {si : Ptr} : ∀ {l : List Ptr} {p : Ptr}, si ∈ l →
    ∃ q, findPrev si l (some p) = some (some q)
  | trav :: next, p, h => by
      unfold findPrev
      by_cases ht : trav = si
      · exact ⟨p, if_pos ht⟩
      · rw [if_neg ht]
        exact findPrev_some ((List.mem_cons.1 h).resolve_left (Ne.symm ht))

/-- The state after `free_info(si)` has found the predecessor `prev`. -/
def State.unlink (s : State) (si prev : Ptr) : State :=
  { s.record [.freeInfo si (some prev)] with
    solist := s.solist.erase si
    freelist := si :: s.freelist }

@[simp] theorem State.unlink_so (s : State) (si prev : Ptr) : (s.unlink si prev).so = s.so := rfl

theorem freeInfo_returns {s : State} (h : Wf s) {si : Ptr} (hm : si ∈ s.solist)
    (hne : si ≠ .libdl) : ∃ prev, Returns (freeInfo si) s () (s.unlink si prev) := by
  obtain ⟨tl, htl⟩ : ∃ tl, s.solist = .libdl :: tl := List.head?_eq_some_iff.1 h.head
  have hm' : si ∈ tl := by
    rw [htl] at hm
    exact (List.mem_cons.1 hm).resolve_left hne
  obtain ⟨q, hq⟩ := findPrev_some (p := .libdl) hm'
  refine ⟨q, ?_⟩
  have hf : findPrev si s.solist none = some (some q) := by
    rw [htl, findPrev, if_neg (Ne.symm hne)]
    exact hq
  simp only [Returns, freeInfo, hf]
  rfl

theorem Wf.unlink {s : State} (h : Wf s) {si : Ptr} (hm : si ∈ s.solist) (hne : si ≠ .libdl)
    (prev : Ptr) : Wf (s.unlink si prev) := by
  have hp : (s.solist.erase si ++ si :: s.freelist).Perm (s.solist ++ s.freelist) :=
    List.perm_middle.trans ((List.perm_cons_erase hm).symm.append_right _)
  refine ⟨?_, ?_, ?_, h.count⟩
  · obtain ⟨tl, htl⟩ := List.head?_eq_some_iff.1 h.head
    have he : (s.unlink si prev).solist = .libdl :: tl.erase si := by
      rw [State.unlink, htl, List.erase_cons_tail (by simpa using Ne.symm hne)]
    rw [he]
    rfl
  · exact hp.nodup_iff.2 h.nodup
  · intro x hx
    exact h.used x (hp.mem_iff.1 hx)

/-! ### Names -/

theorem lookup_eq_some {s : State} {n : CStr} {x : Ptr} (h : lookup s n = some x) :
    x ∈ s.solist ∧ (s.so x).name = basename n :=
  ⟨List.mem_of_find?_eq_some h, by simpa using List.find?_some h⟩

/-- Where the names are the same, the entries may be compared by name in either state. -/
theorem find?_name_congr {s s' : State} {l : List Ptr} (h : ∀ x ∈ l, (s'.so x).name = (s.so x).name)
    (n : CStr) : l.find? (fun x => (s'.so x).name = n) = l.find? (fun x => (s.so x).name = n) := by
  induction l with
  | nil => rfl
  | cons a l ih =>
      rw [List.find?_cons, List.find?_cons, h a List.mem_cons_self,
        ih fun x hx => h x (List.mem_cons_of_mem _ hx)]

theorem lookup_append {s s' : State} {new : List Ptr} (hl : s'.solist = s.solist ++ new)
    (hn : ∀ x ∈ s.solist, (s'.so x).name = (s.so x).name) {n : CStr} {x : Ptr}
    (h : lookup s n = some x) : lookup s' n = some x := by
  have h' : s.solist.find? (fun x => (s'.so x).name = basename n) = some x := by
    rw [find?_name_congr hn]
    exact h
  rw [lookup, hl, List.find?_append, h']
  rfl

theorem find?_sublist {α : Type} {p : α → Bool} {l l' : List α} (hs : l'.Sublist l)
    (hn : l.Nodup) {x : α} (hx : x ∈ l') (h : l.find? p = some x) : l'.find? p = some x := by
  induction hs with
  | slnil => exact h
  | cons a hs ih =>
      have hne : a ≠ x := fun he => (List.nodup_cons.1 hn).1 (he ▸ hs.subset hx)
      cases hp : p a with
      | true =>
          rw [List.find?_cons, hp] at h
          exact absurd (Option.some.inj h) hne
      | false =>
          rw [List.find?_cons, hp] at h
          exact ih (List.nodup_cons.1 hn).2 hx h
  | cons_cons a hs ih =>
      cases hp : p a with
      | true =>
          rw [List.find?_cons, hp] at h ⊢
          exact h
      | false =>
          rw [List.find?_cons, hp] at h ⊢
          refine ih (List.nodup_cons.1 hn).2 ((List.mem_cons.1 hx).resolve_left fun he => ?_) h
          have := List.find?_some h
          rw [he, hp] at this
          cases this

theorem lookup_sublist {s s' : State} (hs : s'.solist.Sublist s.solist) (hnd : s.solist.Nodup)
    (hn : ∀ x ∈ s'.solist, (s'.so x).name = (s.so x).name) {n : CStr} {x : Ptr}
    (hx : x ∈ s'.solist) (h : lookup s n = some x) : lookup s' n = some x := by
  rw [lookup, find?_name_congr hn]
  exact find?_sublist hs hnd hx h

/-! ### The log -/

/-- The entry that a call is about. -/
def Event.si : Event → Ptr
  | .constructors si => si
  | .destructors si => si
  | .call si _ _ => si
  | .munmap si => si
  | .freeInfo si _ => si
  | .notifyLoad si => si
  | .notifyUnload si => si

/-- A call of `free_info` finds a predecessor. -/
def Event.HasPrev : Event → Prop
  | .freeInfo _ prev => prev.isSome
  | _ => True

/-- The calls made between `s` and `s'` are about entries with `P`. -/
def Logs (P : Ptr → Prop) (s s' : State) : Prop :=
  ∃ es, s'.log = s.log ++ es ∧ ∀ e ∈ es, P e.si ∧ e.HasPrev

namespace Logs

variable {P Q : Ptr → Prop} {s s₁ s₂ : State}

theorem of_eq (h : s₁.log = s.log) : Logs P s s₁ := ⟨[], by rw [h, List.append_nil], by simp⟩

theorem trans (h₁ : Logs P s s₁) (h₂ : Logs P s₁ s₂) : Logs P s s₂ := by
  obtain ⟨es₁, he₁, hp₁⟩ := h₁
  obtain ⟨es₂, he₂, hp₂⟩ := h₂
  refine ⟨es₁ ++ es₂, by rw [he₂, he₁, List.append_assoc], fun e he => ?_⟩
  rcases List.mem_append.1 he with he | he
  · exact hp₁ e he
  · exact hp₂ e he

theorem mono (h : Logs P s s₁) (hpq : ∀ x, P x → Q x) : Logs Q s s₁ := by
  obtain ⟨es, he, hp⟩ := h
  exact ⟨es, he, fun e hm => ⟨hpq _ (hp e hm).1, (hp e hm).2⟩⟩

end Logs

/-! ### Loaded entries -/

/-- The entries whose `refcount` `link_image` raised for `y`. -/
def taken (s : State) (y : Ptr) : List Ptr := (s.so y).taken

/-- `find_library` returns this entry for its name. -/
structure Usable (s : State) (x : Ptr) : Prop where
  mem : x ∈ s.solist
  linked : (s.so x).flags.linked = true
  error : (s.so x).flags.error = false

theorem Usable.of_same {s s' : State} {x : Ptr} (h : Usable s x) (hx : x ∈ s'.solist)
    (hs : Same (s.so x) (s'.so x)) : Usable s' x := by
  refine ⟨hx, ?_, ?_⟩
  · rw [hs.flags]
    exact h.linked
  · rw [hs.flags]
    exact h.error

/-- The entry has been through `link_image`; if that succeeded, it is mapped and its `DT_NEEDED`
names lead to the entries it has taken. -/
structure Settled (s : State) (y : Ptr) : Prop where
  done : (s.so y).flags.error = !(s.so y).flags.linked
  mapped : (s.so y).flags.linked = true → (s.so y).mapped = true
  needed : (s.so y).flags.linked = true → ∃ d, (s.so y).dynamic = .present d ∧
    List.Forall₂ (fun n x => lookup s n = some x) d.needed (taken s y)

theorem Settled.of_same {s s' : State} {y : Ptr} (h : Settled s y) (hs : Same (s.so y) (s'.so y))
    (hl : ∀ n, ∀ x ∈ taken s y, lookup s n = some x → lookup s' n = some x) : Settled s' y := by
  refine ⟨?_, ?_, ?_⟩
  · rw [hs.flags]
    exact h.done
  · rw [hs.flags, hs.mapped]
    exact h.mapped
  · rw [hs.flags, hs.dynamic, taken, hs.taken]
    intro hlk
    obtain ⟨d, hd, hf⟩ := h.needed hlk
    exact ⟨d, hd, List.forall₂_iff_get.2 ⟨hf.length_eq, fun i h₁ h₂ =>
      hl _ _ (List.get_mem _ _) ((List.forall₂_iff_get.1 hf).2 i h₁ h₂)⟩⟩

end Bionic.Linker
