import Mathlib
import Bionic.CopyReloc

/-! # The order of relocation entries (`linker/arch/ppc/reloc_library.c`)

The variable `base` of `reloc_library` is declared outside the loop and is set by lookups only.  An entry
`R_PPC_ADDR32` on the symbol of a section makes no lookup and adds the value of `base` that an earlier entry, or
nobody, has left there.  `local_iff` says that this, and a `R_PPC_COPY` from bytes that another entry changes, are the
only ways in which the order of the entries matters. -/

namespace Bionic.RelocOrder

open ByteMemory ElfLookup StateExcept Reloc Reloc.Ppc
open Linker (CStr Ptr Fault)

/-! ### Functions that write the same bytes to any memory -/

/-- `f` writes the bytes `S`, with values that do not depend on the memory, and no others. -/
def Patches (f : Mem → Mem) (S : Set Addr) : Prop :=
  ∀ m x, (x ∈ S → ∀ m', f m x = f m' x) ∧ (x ∉ S → f m x = m x)

theorem patches_id : Patches id ∅ := fun _ _ => ⟨fun h => h.elim, fun _ => rfl⟩

theorem patches_fill (a : Addr) (n : ℕ) (c : ℕ → BitVec 8) : Patches (fun m => fill m a n c) (range a n) := by
  intro m x
  constructor
  · intro hx m'
    have hx : (x - a).toNat < n := hx
    simp only [fill, if_pos hx]
  · exact fun hx => fill_of_notMem hx

theorem patches_write32 (a : Addr) (v : BitVec 32) : Patches (fun m => write32 .big m a v) (range a 4) :=
  patches_fill a 4 _

theorem patches_write16 (a : Addr) (v : BitVec 16) : Patches (fun m => write16 .big m a v) (range a 2) :=
  patches_fill a 2 _

theorem Patches.comp {f g : Mem → Mem} {S T : Set Addr} (hf : Patches f S) (hg : Patches g T) :
    Patches (fun m => g (f m)) (S ∪ T) := by
  intro m x
  constructor
  · intro hx m'
    by_cases ht : x ∈ T
    · exact (hg (f m) x).1 ht (f m')
    · have hs : x ∈ S := hx.resolve_right ht
      calc g (f m) x = f m x := (hg (f m) x).2 ht
        _ = f m' x := (hf m x).1 hs m'
        _ = g (f m') x := ((hg (f m') x).2 ht).symm
  · intro hx
    calc g (f m) x = f m x := (hg (f m) x).2 fun ht => hx (.inr ht)
      _ = m x := (hf m x).2 fun hs => hx (.inl hs)

/-! ### What an entry writes and reads -/

section

variable (E : Objects) (si : Ptr) (p : Plt)

/-- The bytes that the case `R_PPC_JMP_SLOT` writes. -/
def slotTargets (a target : Addr) : Set Addr :=
  if b24ValidRange (target - a) then range a 4
  else if 8192#32 ≤ slotIndex p a then
    range a 4 ∪ range (wordAt a 1) 4 ∪ range (wordAt a 2) 4 ∪ range (wordAt p.plttable (slotIndex p a).toNat) 4
  else range a 4 ∪ range (wordAt a 1) 4 ∪ range (wordAt p.plttable (slotIndex p a).toNat) 4

/-- The bytes that an entry writes. -/
def targets (rela : Rela) : Set Addr :=
  let a := rAddr E si rela
  if rSym rela.rInfo = 0xffffff#32 then ∅
  else
    match kind (rType rela.rInfo) with
    | .jmpSlot =>
        match resolve E si rela with
        | .ok (some t) => slotTargets p a (t.base + t.sym.stValue + rela.rAddend)
        | _ => ∅
    | .addr16Lo => range a 2
    | .addr16Hi => range a 2
    | .addr16Ha => range a 2
    | .copy =>
        match doLookupNonLocal E (some si) (symName E si rela) with
        | .ok (some f) => range a (locatedAt E f).sym.stSize.toNat
        | _ => ∅
    | .none => ∅
    | .unknown => ∅
    | _ => range a 4

/-- The bytes that an entry `R_PPC_COPY` copies. -/
def source (rela : Rela) : Set Addr :=
  if rSym rela.rInfo = 0xffffff#32 then ∅
  else
    match kind (rType rela.rInfo) with
    | .copy =>
        match doLookupNonLocal E (some si) (symName E si rela) with
        | .ok (some f) => range (locatedAt E f).addr (locatedAt E f).sym.stSize.toNat
        | _ => ∅
    | _ => ∅

/-- The entry adds a value of `base` that it has not set. -/
def Stale (rela : Rela) : Prop :=
  rSym rela.rInfo ≠ 0xffffff#32 ∧ kind (rType rela.rInfo) = .addr32 ∧ sectionSym (sym E si rela)

instance : DecidablePred (Stale E si) := fun _ => inferInstanceAs (Decidable (_ ∧ _ ∧ _))

end

/-! ### The effect of one entry -/

section

variable {E : Objects} {si : Ptr} {p : Plt} {rela : Rela}

theorem jmpSlot_effect {a target : Addr} {m m' : Mem} (h : jmpSlot p a target m = .ok m') :
    ∃ f, Patches f (slotTargets p a target) ∧ ∀ m, jmpSlot p a target m = .ok (f m) := by
  unfold jmpSlot at h ⊢
  unfold slotTargets
  split at h
  · cases h
  · next hplt =>
    simp only [if_neg hplt]
    split
    · exact ⟨_, patches_write32 a (BR a target), fun _ => rfl⟩
    · split
      · exact ⟨_, (((patches_write32 _ _).comp (patches_write32 _ _)).comp (patches_write32 _ _)).comp
          (patches_write32 _ _), fun _ => rfl⟩
      · exact ⟨_, ((patches_write32 _ _).comp (patches_write32 _ _)).comp (patches_write32 _ _), fun _ => rfl⟩

/-- What an entry does to the memory `m`, when the bytes that it reads are those of `r`. -/
structure Effect (E : Objects) (si : Ptr) (p : Plt) (rela : Rela) (F : Mem → Mem → Mem) : Prop where
  patches : ∀ r, Patches (F r) (targets E si p rela)
  reads : ∀ r r', (∀ x ∈ targets E si p rela ∪ source E si rela, r x = r' x) → F r = F r'
  runs : ∀ m b, ∃ b', relocEntry E si p ⟨m, b⟩ rela = .ok ⟨F m m, b'⟩

/-- An entry that reads no memory. -/
theorem Effect.of_const {f : Mem → Mem} (patches : Patches f (targets E si p rela))
    (runs : ∀ m b, ∃ b', relocEntry E si p ⟨m, b⟩ rela = .ok ⟨f m, b'⟩) :
    Effect E si p rela fun _ => f :=
  ⟨fun _ => patches, fun _ _ _ => rfl, runs⟩

theorem relocEntry_of_resolve {l : Loop} {st : Option Located} (h0 : rSym rela.rInfo ≠ 0xffffff#32)
    (hs : resolve E si rela = .ok st) :
    relocEntry E si p l rela = apply E si p rela st (baseAfter l.base st) l.mem := by
  unfold relocEntry
  rw [if_neg h0, hs]
  rfl

/-- An entry that writes one value in place of the whole word at its address. -/
theorem effect_of_write32 {v : BitVec 32} (htargets : targets E si p rela = range (rAddr E si rela) 4)
    (runs : ∀ m b, ∃ b', relocEntry E si p ⟨m, b⟩ rela = .ok ⟨write32 .big m (rAddr E si rela) v, b'⟩) :
    ∃ F, Effect E si p rela F :=
  ⟨_, .of_const (htargets ▸ patches_write32 _ v) runs⟩

theorem effect_of_write16 {v : BitVec 16} (htargets : targets E si p rela = range (rAddr E si rela) 2)
    (runs : ∀ m b, ∃ b', relocEntry E si p ⟨m, b⟩ rela = .ok ⟨write16 .big m (rAddr E si rela) v, b'⟩) :
    ∃ F, Effect E si p rela F :=
  ⟨_, .of_const (htargets ▸ patches_write16 _ v) runs⟩

/-- An entry that keeps some bits of the word at its address. -/
theorem effect_of_modify {g : BitVec 32 → BitVec 32} (htargets : targets E si p rela = range (rAddr E si rela) 4)
    (runs : ∀ m b, ∃ b', relocEntry E si p ⟨m, b⟩ rela =
      .ok ⟨write32 .big m (rAddr E si rela) (g (read32 .big m (rAddr E si rela))), b'⟩) :
    ∃ F, Effect E si p rela F := by
  refine ⟨fun r m => write32 .big m (rAddr E si rela) (g (read32 .big r (rAddr E si rela))), ?_, ?_, runs⟩
  · exact fun r => htargets ▸ patches_write32 _ _
  · intro r r' hr
    have he : read32 .big r (rAddr E si rela) = read32 .big r' (rAddr E si rela) :=
      read32_congr fun x hx => hr x (.inl (htargets ▸ hx))
    rw [he]

/-- Where `base` is not stale, an entry that succeeds once succeeds always, and does the same. -/
theorem relocEntry_effect {l l' : Loop} (h : relocEntry E si p l rela = .ok l') (fresh : ¬ Stale E si rela) :
    ∃ F, Effect E si p rela F := by
  rcases relocEntry_eq_ok h with ⟨h0, -⟩ | ⟨h0, st, hs, h⟩
  · refine ⟨_, .of_const (f := id) ?_ fun m b => ⟨b, ?_⟩⟩
    · rw [targets, if_pos h0]
      exact patches_id
    · rw [relocEntry, if_pos h0]
      rfl
  · have runs (m : Mem) (b : BitVec 32) := relocEntry_of_resolve (p := p) (l := ⟨m, b⟩) h0 hs
    have written (ht : kind (rType rela.rInfo) = .relative ∨ kind (rType rela.rInfo) = .addr32 ∨
        kind (rType rela.rInfo) = .rel24 ∨ kind (rType rela.rInfo) = .rel14 ∨
        kind (rType rela.rInfo) = .globDat) : targets E si p rela = range (rAddr E si rela) 4 := by
      unfold targets
      rw [if_neg h0]
      rcases ht with hk | hk | hk | hk | hk <;> rw [hk]
    have half (ht : kind (rType rela.rInfo) = .addr16Lo ∨ kind (rType rela.rInfo) = .addr16Hi ∨
        kind (rType rela.rInfo) = .addr16Ha) : targets E si p rela = range (rAddr E si rela) 2 := by
      unfold targets
      rw [if_neg h0]
      rcases ht with hk | hk | hk <;> rw [hk]
    unfold apply at h runs
    cases hk : kind (rType rela.rInfo) with
    | relative =>
        simp only [hk] at h runs
        split at h
        · next hsec =>
          simp only [if_pos hsec] at runs
          exact effect_of_write32 (written (.inl hk)) fun m b => ⟨_, runs m b⟩
        · next hsec =>
          obtain ⟨t, ht, h⟩ := bind_eq_ok.1 h
          simp only [if_neg hsec, ht] at runs
          exact effect_of_write32 (written (.inl hk)) fun m b => ⟨_, runs m b⟩
    | jmpSlot =>
        simp only [hk] at h runs
        obtain ⟨t, ht, h⟩ := bind_eq_ok.1 h
        obtain ⟨m', hm, h⟩ := bind_eq_ok.1 h
        obtain rfl := deref_eq_ok.1 ht
        simp only [baseAfter] at hm runs
        obtain ⟨f, hf, hrun⟩ := jmpSlot_effect hm
        refine ⟨_, .of_const (f := f) ?_ fun m b => ⟨t.base, ?_⟩⟩
        · unfold targets
          rw [if_neg h0, hk, hs]
          exact hf
        · rw [runs]
          show (jmpSlot p (rAddr E si rela) (t.base + t.sym.stValue + rela.rAddend) m >>= fun m' =>
            pure (⟨m', t.base⟩ : Loop)) = _
          rw [hrun m]
          rfl
    | addr32 =>
        simp only [hk] at h runs
        split at h
        · next hsec => exact absurd ⟨h0, hk, hsec⟩ fresh
        · next hsec =>
          obtain ⟨t, ht, h⟩ := bind_eq_ok.1 h
          obtain rfl := deref_eq_ok.1 ht
          simp only [if_neg hsec, baseAfter] at runs
          exact effect_of_write32 (written (.inr (.inl hk))) fun m b => ⟨_, runs m b⟩
    | rel24 =>
        simp only [hk] at h runs
        obtain ⟨t, ht, h⟩ := bind_eq_ok.1 h
        obtain rfl := deref_eq_ok.1 ht
        obtain ⟨hrange, -⟩ := guard_eq_ok.1 h
        simp only [baseAfter] at hrange runs
        refine effect_of_modify (g := fun w => (t.base + t.sym.stValue + rela.rAddend - rAddr E si rela) &&&
          ~~~0xfc000003#32 ||| (w &&& 0xfc000003#32)) (written (.inr (.inr (.inl hk)))) fun m b => ⟨t.base, ?_⟩
        rw [runs]
        exact if_neg hrange
    | addr16Lo =>
        simp only [hk] at h runs
        exact effect_of_write16 (half (.inl hk)) fun m b => ⟨_, runs m b⟩
    | addr16Hi =>
        simp only [hk] at h runs
        exact effect_of_write16 (half (.inr (.inl hk))) fun m b => ⟨_, runs m b⟩
    | addr16Ha =>
        simp only [hk] at h runs
        exact effect_of_write16 (half (.inr (.inr hk))) fun m b => ⟨_, runs m b⟩
    | rel14 =>
        simp only [hk] at h runs
        obtain ⟨t, ht, h⟩ := bind_eq_ok.1 h
        obtain rfl := deref_eq_ok.1 ht
        obtain ⟨hrange, -⟩ := guard_eq_ok.1 h
        simp only [baseAfter] at hrange runs
        refine effect_of_modify (g := fun w => (t.base + t.sym.stValue + rela.rAddend - rAddr E si rela) &&&
          ~~~0xffff0003#32 ||| (w &&& 0xffff0003#32)) (written (.inr (.inr (.inr (.inl hk))))) fun m b => ⟨t.base, ?_⟩
        rw [runs]
        exact if_neg hrange
    | globDat =>
        simp only [hk] at h runs
        obtain ⟨t, ht, h⟩ := bind_eq_ok.1 h
        obtain rfl := deref_eq_ok.1 ht
        simp only [baseAfter] at runs
        exact effect_of_write32 (written (.inr (.inr (.inr (.inr hk))))) fun m b => ⟨_, runs m b⟩
    | copy =>
        simp only [hk] at h runs
        obtain ⟨f, t, hf, rfl, hsize, -⟩ := copy_eq_ok h
        have htargets : targets E si p rela = range (rAddr E si rela) (locatedAt E f).sym.stSize.toNat := by
          unfold targets
          rw [if_neg h0, hk, hf]
        have hsource : source E si rela = range (locatedAt E f).addr (locatedAt E f).sym.stSize.toNat := by
          unfold source
          rw [if_neg h0, hk, hf]
        refine ⟨fun r m => fill m (rAddr E si rela) (locatedAt E f).sym.stSize.toNat
          fun i => r ((locatedAt E f).addr + BitVec.ofNat 32 i), fun r => htargets ▸ patches_fill _ _ _, ?_, ?_⟩
        · intro r r' hr
          funext m x
          unfold fill
          split
          · next hx =>
            exact hr _ (.inr (hsource ▸ add_mem_range hx (BitVec.isLt _).le))
          · rfl
        · intro m b
          refine ⟨(locatedAt E f).base, ?_⟩
          rw [runs, copy, hf]
          show (if t.sym.stSize ≠ (locatedAt E f).sym.stSize then _ else _) = _
          rw [if_neg (not_not.2 hsize)]
          rfl
    | none =>
        simp only [hk] at h runs
        refine ⟨_, .of_const (f := id) ?_ fun m b => ⟨_, runs m b⟩⟩
        unfold targets
        rw [if_neg h0, hk]
        exact patches_id
    | unknown =>
        simp only [hk] at h
        cases h

end

/-! ### Runs -/

section

variable (E : Objects) (si : Ptr) (p : Plt)

/-- The memory `M` has at the targets of the entries what each of them writes by itself to `m`, and is `m` elsewhere. -/
structure Overlay (m M : Mem) (relas : List Rela) : Prop where
  written : ∀ rela ∈ relas, ∀ base l, relocEntry E si p ⟨m, base⟩ rela = .ok l →
    ∀ x ∈ targets E si p rela, M x = l.mem x
  elsewhere : ∀ x, (∀ rela ∈ relas, x ∉ targets E si p rela) → M x = m x

/-- No entry changes the bytes that another one copies. -/
def SourcesKept (m : Mem) (relas : List Rela) : Prop :=
  ∀ rela ∈ relas, ∀ rela' ∈ relas, rela ≠ rela' → ∀ base l, relocEntry E si p ⟨m, base⟩ rela' = .ok l →
    ∀ x ∈ source E si rela, l.mem x = m x

/-- The targets of the entries are pairwise distinct. -/
def DistinctTargets (relas : List Rela) : Prop :=
  relas.Pairwise fun rela rela' => Disjoint (targets E si p rela) (targets E si p rela')

end

section

variable {E : Objects} {si : Ptr} {p : Plt} {m : Mem}

theorem DistinctTargets.perm {relas relas' : List Rela} (h : DistinctTargets E si p relas)
    (perm : relas'.Perm relas) : DistinctTargets E si p relas' :=
  (perm.pairwise_iff fun hd => hd.symm).2 h

theorem SourcesKept.perm {relas relas' : List Rela} (h : SourcesKept E si p m relas)
    (perm : relas'.Perm relas) : SourcesKept E si p m relas' :=
  fun rela hr rela' hr' => h rela (perm.subset hr) rela' (perm.subset hr')

theorem overlay_nil : Overlay E si p m m [] :=
  ⟨fun _ h => absurd h List.not_mem_nil, fun _ _ => rfl⟩

/-- An entry whose target nobody has written, and whose source nobody has changed, does what it does to `m`. -/
theorem Overlay.step {done : List Rela} {rela : Rela} {M : Mem} {b : BitVec 32} {F : Mem → Mem → Mem}
    (h : Overlay E si p m M done) (effect : Effect E si p rela F)
    (others : ∀ rela' ∈ done, ∃ F', Effect E si p rela' F')
    (distinct : ∀ rela' ∈ done, Disjoint (targets E si p rela') (targets E si p rela))
    (kept : SourcesKept E si p m (done ++ [rela])) :
    ∃ l, relocEntry E si p ⟨M, b⟩ rela = .ok l ∧ Overlay E si p m l.mem (done ++ [rela]) := by
  have own : ∀ x ∈ targets E si p rela, ∀ rela' ∈ done, x ∉ targets E si p rela' := fun x hx rela' hr hx' =>
    Set.disjoint_left.1 (distinct rela' hr) hx' hx
  have same : ∀ x ∈ targets E si p rela ∪ source E si rela, M x = m x := by
    rintro x (hx | hx)
    · exact h.elsewhere x (own x hx)
    · by_cases hw : ∃ rela' ∈ done, x ∈ targets E si p rela'
      · obtain ⟨rela', hr, hx'⟩ := hw
        obtain ⟨F', effect'⟩ := others rela' hr
        obtain ⟨b', run⟩ := effect'.runs m 0
        have ne : rela ≠ rela' := by
          rintro rfl
          exact own x hx' rela hr hx'
        rw [h.written rela' hr 0 _ run x hx']
        exact kept rela (by simp) rela' (by simp [hr]) ne 0 _ run x hx
      · exact h.elsewhere x fun rela' hr hx' => hw ⟨rela', hr, hx'⟩
  obtain ⟨b', run⟩ := effect.runs M b
  rw [effect.reads M m same] at run
  refine ⟨_, run, fun rela' hr base l hl x hx => ?_, fun x hx => ?_⟩
  · rcases List.mem_append.1 hr with hr | hr
    · have hout : x ∉ targets E si p rela := fun hx' => own x hx' rela' hr hx
      calc F m M x = M x := (effect.patches m M x).2 hout
        _ = l.mem x := h.written rela' hr base l hl x hx
    · obtain rfl := List.mem_singleton.1 hr
      obtain ⟨b'', alone⟩ := effect.runs m base
      have he : l = ⟨F m m, b''⟩ := Except.ok.inj (hl.symm.trans alone)
      rw [he]
      exact (effect.patches m M x).1 hx m
  · calc F m M x = M x := (effect.patches m M x).2 (hx rela (by simp))
      _ = m x := h.elsewhere x fun rela' hr => hx rela' (by simp [hr])

/-- A run of such entries, after those in `done`. -/
theorem Overlay.run {done rest : List Rela} {M : Mem} {b : BitVec 32} (h : Overlay E si p m M done)
    (effects : ∀ rela ∈ done ++ rest, ∃ F, Effect E si p rela F) (distinct : DistinctTargets E si p (done ++ rest))
    (kept : SourcesKept E si p m (done ++ rest)) :
    ∃ l, rest.foldlM (relocEntry E si p) ⟨M, b⟩ = .ok l ∧ Overlay E si p m l.mem (done ++ rest) := by
  induction rest generalizing done M b with
  | nil => exact ⟨⟨M, b⟩, rfl, by rwa [List.append_nil]⟩
  | cons rela rest ih =>
      obtain ⟨F, effect⟩ := effects rela (by simp)
      have before : ∀ rela' ∈ done, Disjoint (targets E si p rela') (targets E si p rela) := fun rela' hr =>
        (List.pairwise_append.1 distinct).2.2 rela' hr rela List.mem_cons_self
      have sub : ∀ {r}, r ∈ done ++ [rela] → r ∈ done ++ rela :: rest := by
        intro r hr
        simp only [List.mem_append, List.mem_cons, List.not_mem_nil, or_false] at hr ⊢
        tauto
      obtain ⟨l, hl, hnext⟩ := h.step (b := b) effect (fun rela' hr => effects rela' (by simp [hr])) before
        fun r hr r' hr' => kept r (sub hr) r' (sub hr')
      rw [List.append_cons] at effects distinct kept ⊢
      obtain ⟨l', hl', hend⟩ := ih hnext effects distinct kept
      refine ⟨l', ?_, hend⟩
      rw [List.foldlM_cons, hl]
      exact hl'

/-- The memory is determined by the entries, in whatever order. -/
theorem Overlay.unique {relas relas' : List Rela} {M M' : Mem} (h : Overlay E si p m M relas)
    (h' : Overlay E si p m M' relas') (mem : ∀ rela, rela ∈ relas ↔ rela ∈ relas')
    (effects : ∀ rela ∈ relas, ∃ F, Effect E si p rela F) : M = M' := by
  funext x
  by_cases hx : ∃ rela ∈ relas, x ∈ targets E si p rela
  · obtain ⟨rela, hr, hx⟩ := hx
    obtain ⟨F, effect⟩ := effects rela hr
    obtain ⟨b, run⟩ := effect.runs m 0
    rw [h.written rela hr 0 _ run x hx, h'.written rela ((mem rela).1 hr) 0 _ run x hx]
  · have out : ∀ rela ∈ relas, x ∉ targets E si p rela := fun rela hr hx' => hx ⟨rela, hr, hx'⟩
    rw [h.elsewhere x out, h'.elsewhere x fun rela hr => out rela ((mem rela).2 hr)]

theorem relocLibrary_of_foldlM {relas : List Rela} {base : BitVec 32} {l : Loop}
    (h : relas.foldlM (relocEntry E si p) ⟨m, base⟩ = .ok l) :
    relocLibrary E si p DT_RELA relas base m = .ok l.mem := by
  unfold relocLibrary
  rw [if_neg (by decide), h]
  rfl

/-! ### The order of the entries -/

variable (E si p) in
/-- What each entry writes depends on that entry alone, and the entries leave the same memory in every order,
whatever the uninitialised variable `base` holds. -/
structure Local (m m' : Mem) (relas : List Rela) : Prop where
  value : ∀ rela ∈ relas, ∀ base l, relocEntry E si p ⟨m, base⟩ rela = .ok l →
    ∀ x ∈ targets E si p rela, m' x = l.mem x
  perm : ∀ relas' base, relas'.Perm relas → relocLibrary E si p DT_RELA relas' base m = .ok m'

theorem stale_run {rela : Rela} (h : Stale E si rela) (b : BitVec 32) :
    relocEntry E si p ⟨m, b⟩ rela = .ok ⟨write32 .big m (rAddr E si rela) (b + rela.rAddend), b⟩ := by
  obtain ⟨h0, hk, hsec⟩ := h
  have hs : resolve E si rela = .ok none := by
    unfold resolve
    rw [if_neg fun h => h.2 hsec]
  rw [relocEntry_of_resolve h0 hs, apply, hk]
  exact if_pos hsec

theorem stale_targets {rela : Rela} (h : Stale E si rela) : targets E si p rela = range (rAddr E si rela) 4 := by
  unfold targets
  rw [if_neg h.1, h.2.1]

/-- A stale `base` shows in the value. -/
theorem Local.not_stale {m' : Mem} {relas : List Rela} (h : Local E si p m m' relas) {rela : Rela}
    (hr : rela ∈ relas) : ¬ Stale E si rela := by
  intro stale
  have value (b : BitVec 32) : read32 .big m' (rAddr E si rela) = b + rela.rAddend := by
    rw [← read32_write32 (e := .big) (m := m) (a := rAddr E si rela) (b + rela.rAddend)]
    refine read32_congr fun x hx => ?_
    exact h.value rela hr b _ (stale_run stale b) x (stale_targets stale ▸ hx)
  have he : (0 : BitVec 32) + rela.rAddend = 1 + rela.rAddend := (value 0).symm.trans (value 1)
  have hne : (0 : BitVec 32) = 1 := (BitVec.add_left_inj rela.rAddend).1 he
  exact absurd hne (by decide)

theorem relocEntry_elsewhere {rela : Rela} {l l' : Loop} {x : Addr} (h : relocEntry E si p l rela = .ok l')
    (fresh : ¬ Stale E si rela) (hx : x ∉ targets E si p rela) : l'.mem x = l.mem x := by
  obtain ⟨F, effect⟩ := relocEntry_effect h fresh
  obtain ⟨b, run⟩ := effect.runs l.mem l.base
  have he : l' = ⟨F l.mem l.mem, b⟩ := Except.ok.inj (h.symm.trans run)
  rw [he]
  exact (effect.patches l.mem l.mem x).2 hx

/-- An entry writes nothing but its targets, also where `base` is stale. -/
theorem relocEntry_outside {rela : Rela} {l l' : Loop} {x : Addr} (h : relocEntry E si p l rela = .ok l')
    (hx : x ∉ targets E si p rela) : l'.mem x = l.mem x := by
  by_cases stale : Stale E si rela
  · rw [stale_targets stale] at hx
    apply relocEntry_frame h
    unfold footprint
    rw [stale.2.1]
    exact hx
  · exact relocEntry_elsewhere h stale hx

/-- A byte of the source of a `R_PPC_COPY` has a place in its target, where it arrives. -/
theorem exists_copied {rela : Rela} {x : Addr} (hx : x ∈ source E si rela) :
    ∃ y, ∀ l l', relocEntry E si p l rela = .ok l' → y ∈ targets E si p rela ∧ l'.mem y = l.mem x := by
  unfold source at hx
  split at hx
  · exact hx.elim
  · next h0 =>
    split at hx
    · next hk =>
      split at hx
      · next f hf =>
        refine ⟨rAddr E si rela + BitVec.ofNat 32 (x - (locatedAt E f).addr).toNat, fun l l' h => ⟨?_, ?_⟩⟩
        · unfold targets
          rw [if_neg h0, hk, hf]
          exact add_mem_range hx (BitVec.isLt _).le
        · rcases relocEntry_eq_ok h with ⟨h0', -⟩ | ⟨-, st, -, h⟩
          · exact absurd h0' h0
          · rw [apply, hk] at h
            obtain ⟨f', t, hf', -, -, rfl⟩ := copy_eq_ok h
            obtain rfl : f = f' := Option.some.inj (Except.ok.inj (hf.symm.trans hf'))
            dsimp only
            rw [memcpy_add hx (BitVec.isLt _).le, BitVec.ofNat_toNat, BitVec.setWidth_eq,
              BitVec.add_comm, BitVec.sub_add_cancel]
      · exact hx.elim
    · exact hx.elim

/-- A change of a source shows, if the entry that makes it comes first. -/
theorem Local.sourcesKept {m' : Mem} {relas : List Rela} (h : Local E si p m m' relas)
    (distinct : DistinctTargets E si p relas) : SourcesKept E si p m relas := by
  intro rela hr rela' hr' ne base l hl x hx
  have hmem : rela ∈ relas.erase rela' := (List.mem_erase_of_ne ne).2 hr
  have perm : (rela' :: rela :: (relas.erase rela').erase rela).Perm relas :=
    ((List.perm_cons_erase hmem).symm.cons rela').trans (List.perm_cons_erase hr').symm
  generalize (relas.erase rela').erase rela = rest at perm
  obtain ⟨l₃, run, hm⟩ := relocLibrary_eq_ok (h.perm _ base perm)
  rw [List.foldlM_cons, bind_eq_ok] at run
  obtain ⟨l₁, h₁, run⟩ := run
  obtain rfl : l = l₁ := Except.ok.inj (hl.symm.trans h₁)
  rw [List.foldlM_cons, bind_eq_ok] at run
  obtain ⟨l₂, h₂, run⟩ := run
  obtain ⟨y, copied⟩ := exists_copied (p := p) hx
  obtain ⟨hy, here⟩ := copied l l₂ h₂
  have later : ∀ r ∈ rest, y ∉ targets E si p r := fun r hrest hy' => by
    have hd := (List.pairwise_cons.1 (List.pairwise_cons.1 (distinct.perm perm)).2).1 r hrest
    exact Set.disjoint_left.1 hd hy hy'
  have kept : l₃.mem y = l₂.mem y := by
    refine foldlM_invariant (I := fun t => t.mem y = l₂.mem y) run rfl fun r hrest t t' ht hstep => ?_
    have fresh := h.not_stale (perm.subset (List.mem_cons_of_mem _ (List.mem_cons_of_mem _ hrest)))
    rw [relocEntry_elsewhere hstep fresh (later r hrest), ht]
  obtain ⟨F, effect⟩ := relocEntry_effect h₂ (h.not_stale hr)
  obtain ⟨b, alone⟩ := effect.runs m 0
  calc l.mem x = l₂.mem y := here.symm
    _ = l₃.mem y := kept.symm
    _ = m' y := by rw [hm]
    _ = F m m y := h.value rela hr 0 _ alone y hy
    _ = m x := (copied _ _ alone).2

/-- In particular a source is kept if it is no target. -/
theorem sourcesKept_of_disjoint {relas : List Rela} (fresh : ∀ rela ∈ relas, ¬ Stale E si rela)
    (h : ∀ rela ∈ relas, ∀ rela' ∈ relas, rela ≠ rela' → Disjoint (source E si rela) (targets E si p rela')) :
    SourcesKept E si p m relas := by
  intro rela hr rela' hr' ne base l hl x hx
  exact relocEntry_elsewhere hl (fresh rela' hr') (Set.disjoint_left.1 (h rela hr rela' hr' ne) hx)

/-- Where the targets are distinct and `reloc_library` succeeds, an entry depends on the others if and only if some
entry `R_PPC_ADDR32` is on the symbol of a section, or some entry changes what another one copies. -/
theorem local_iff {m' : Mem} {relas : List Rela} {base : BitVec 32} (distinct : DistinctTargets E si p relas)
    (h : relocLibrary E si p DT_RELA relas base m = .ok m') :
    Local E si p m m' relas ↔ (∀ rela ∈ relas, ¬ Stale E si rela) ∧ SourcesKept E si p m relas := by
  constructor
  · exact fun hl => ⟨fun rela hr => hl.not_stale hr, hl.sourcesKept distinct⟩
  · rintro ⟨fresh, kept⟩
    obtain ⟨l, run, hm⟩ := relocLibrary_eq_ok h
    have effects : ∀ rela ∈ relas, ∃ F, Effect E si p rela F := by
      intro rela hr
      obtain ⟨l₁, l₂, rfl⟩ := List.append_of_mem hr
      obtain ⟨t, t', -, hstep, -⟩ := foldlM_append_cons run
      exact relocEntry_effect hstep (fresh rela hr)
    have all {relas' : List Rela} (base' : BitVec 32) (perm : relas'.Perm relas) :
        ∃ l', relas'.foldlM (relocEntry E si p) ⟨m, base'⟩ = .ok l' ∧ Overlay E si p m l'.mem relas' :=
      overlay_nil.run (fun rela hr => effects rela (perm.subset hr)) (distinct.perm perm) (kept.perm perm)
    obtain ⟨l', run', overlay⟩ := all base (.refl relas)
    obtain rfl : l = l' := Except.ok.inj (run.symm.trans run')
    rw [hm] at overlay
    refine ⟨overlay.written, fun relas' base' perm => ?_⟩
    obtain ⟨l', run', overlay'⟩ := all base' perm
    rw [relocLibrary_of_foldlM run', overlay.unique overlay' (fun rela => perm.mem_iff.symm) effects]

end

/-! ### An executable whose symbol 0 is the null symbol -/

/-- Symbol 0 is null, symbol 1 is `foo`. -/
def nullAndFoo (base : BitVec 32) : Obj :=
  { oneSymbol "foo".toList 0x11 5 base with
    symtab n := if n = 0 then ⟨0, 0, 0, 0, 0⟩ else ⟨1, 0x100, 4, 0x11, 5⟩ }

/-- An executable and a library that both define `foo`. -/
def twoFoos : Objects where
  so p := if p = .pool 0 then nullAndFoo 0x8000 else nullAndFoo 0x40000000
  solist := [.pool 0, .pool 1]

/-- `R_PPC_GLOB_DAT` on `foo`. -/
def globDatFoo : Rela := ⟨0x200, 0x114, 0⟩

/-- `R_PPC_COPY` on `foo`. -/
def copyFoo : Rela := ⟨0x100, 0x113, 0⟩

/-- `R_PPC_ADDR32` on the null symbol. -/
def addr32Null : Rela := ⟨0x204, 0x1, 4⟩

/-- `R_PPC_RELATIVE` on the null symbol. -/
def relativeNull : Rela := ⟨0x204, 0x16, 4⟩

theorem targets_globDatFoo (p : Plt) : targets twoFoos (.pool 0) p globDatFoo = range 0x8200 4 := rfl

theorem targets_copyFoo (p : Plt) : targets twoFoos (.pool 0) p copyFoo = range 0x8100 4 := by
  have hf : doLookupNonLocal twoFoos (some (.pool 0)) (symName twoFoos (.pool 0) copyFoo) =
      .ok (some ⟨.pool 1, 1, 0x40000000⟩) := by decide
  unfold targets
  rw [if_neg (by decide), show kind (rType copyFoo.rInfo) = .copy from rfl, hf]
  rfl

theorem targets_addr32Null (p : Plt) : targets twoFoos (.pool 0) p addr32Null = range 0x8204 4 := rfl

theorem targets_relativeNull (p : Plt) : targets twoFoos (.pool 0) p relativeNull = range 0x8204 4 := rfl

theorem distinctTargets_twoFoos (p : Plt) {last : Rela} (h : targets twoFoos (.pool 0) p last = range 0x8204 4) :
    DistinctTargets twoFoos (.pool 0) p [globDatFoo, copyFoo, last] := by
  have copy_globDat : Disjoint (range 0x8100 4) (range 0x8200 4) :=
    disjoint_range (a := 0x8100) (d := 0x100) (by decide) (by decide)
  have globDat_last : Disjoint (range 0x8200 4) (range 0x8204 4) :=
    disjoint_range (a := 0x8200) (d := 4) (by decide) (by decide)
  have copy_last : Disjoint (range 0x8100 4) (range 0x8204 4) :=
    disjoint_range (a := 0x8100) (d := 0x104) (by decide) (by decide)
  unfold DistinctTargets
  rw [List.pairwise_cons, List.pairwise_pair]
  refine ⟨fun rela hr => ?_, ?_⟩
  · rcases List.mem_pair.1 hr with rfl | rfl
    · rw [targets_globDatFoo, targets_copyFoo]
      exact copy_globDat.symm
    · rw [targets_globDatFoo, h]
      exact globDat_last
  · rw [targets_copyFoo, h]
    exact copy_last

theorem fresh_twoFoos : ∀ rela ∈ [globDatFoo, copyFoo, relativeNull], ¬ Stale twoFoos (.pool 0) rela := by
  decide

theorem sourcesKept_twoFoos (p : Plt) (m : Mem) :
    SourcesKept twoFoos (.pool 0) p m [globDatFoo, copyFoo, relativeNull] := by
  refine sourcesKept_of_disjoint fresh_twoFoos fun rela hr rela' hr' ne => ?_
  have far {a : Addr} (d : ℕ) (ha : a + BitVec.ofNat 32 d = 0x40000100) (hd : 4 ≤ d) (hd' : d + 4 ≤ 2 ^ 32) :
      Disjoint (range 0x40000100 4) (range a 4) := ha ▸ (disjoint_range hd hd').symm
  have hsource : source twoFoos (.pool 0) copyFoo = range 0x40000100 4 := by
    have hf : doLookupNonLocal twoFoos (some (.pool 0)) (symName twoFoos (.pool 0) copyFoo) =
        .ok (some ⟨.pool 1, 1, 0x40000000⟩) := by decide
    unfold source
    rw [if_neg (by decide), show kind (rType copyFoo.rInfo) = .copy from rfl, hf]
    rfl
  simp only [List.mem_cons, List.not_mem_nil, or_false] at hr hr'
  rcases hr with rfl | rfl | rfl
  · exact Set.disjoint_left.2 fun x hx => hx.elim
  · rw [hsource]
    rcases hr' with rfl | rfl | rfl
    · exact far (a := 0x8200) 0x3fff7f00 (by decide) (by decide) (by decide)
    · exact absurd rfl ne
    · exact far (a := 0x8204) 0x3fff7efc (by decide) (by decide) (by decide)
  · exact Set.disjoint_left.2 fun x hx => hx.elim

/-- With `R_PPC_RELATIVE` in place of `R_PPC_ADDR32` the order does not matter. -/
theorem local_twoFoos : ∃ m', relocLibrary twoFoos (.pool 0) ⟨0, 0, 0, 0, 0, 0, 0⟩ DT_RELA
      [globDatFoo, copyFoo, relativeNull] 0 (CopyReloc.libraryBytes 7) = .ok m' ∧
    Local twoFoos (.pool 0) ⟨0, 0, 0, 0, 0, 0, 0⟩ (CopyReloc.libraryBytes 7) m'
      [globDatFoo, copyFoo, relativeNull] := by
  obtain ⟨m', hm'⟩ := exists_ok_of_isOk (x := relocLibrary twoFoos (.pool 0) ⟨0, 0, 0, 0, 0, 0, 0⟩ DT_RELA
    [globDatFoo, copyFoo, relativeNull] 0 (CopyReloc.libraryBytes 7)) (by decide)
  have distinct := distinctTargets_twoFoos ⟨0, 0, 0, 0, 0, 0, 0⟩ (targets_relativeNull _)
  exact ⟨m', hm', (local_iff distinct hm').2 ⟨fresh_twoFoos, sourcesKept_twoFoos _ _⟩⟩

/-- With `R_PPC_ADDR32` the last word has the base of the library in one order, of the executable in another. -/
theorem addr32_order_twoFoos : DistinctTargets twoFoos (.pool 0) ⟨0, 0, 0, 0, 0, 0, 0⟩
      [globDatFoo, copyFoo, addr32Null] ∧
    [copyFoo, globDatFoo, addr32Null].Perm [globDatFoo, copyFoo, addr32Null] ∧
    (relocLibrary twoFoos (.pool 0) ⟨0, 0, 0, 0, 0, 0, 0⟩ DT_RELA [globDatFoo, copyFoo, addr32Null] 0
      (CopyReloc.libraryBytes 7)).map (read32 .big · 0x8204) = .ok 0x40000004 ∧
    (relocLibrary twoFoos (.pool 0) ⟨0, 0, 0, 0, 0, 0, 0⟩ DT_RELA [copyFoo, globDatFoo, addr32Null] 0
      (CopyReloc.libraryBytes 7)).map (read32 .big · 0x8204) = .ok 0x8004 ∧
    ¬ ∃ m', Local twoFoos (.pool 0) ⟨0, 0, 0, 0, 0, 0, 0⟩ (CopyReloc.libraryBytes 7) m'
      [globDatFoo, copyFoo, addr32Null] := by
  refine ⟨distinctTargets_twoFoos _ (targets_addr32Null _), .swap _ _ _, by decide, by decide, ?_⟩
  rintro ⟨m', h⟩
  exact h.not_stale (show addr32Null ∈ _ by simp) (by decide)

end Bionic.RelocOrder
