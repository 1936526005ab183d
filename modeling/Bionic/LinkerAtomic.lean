import Bionic.LinkerLifetime

/-! # What a failing `dlopen` leaves behind

A `dlopen` that returns NULL has left everything as it was if it failed before `init_library`:
`load_library` gives back the entry and the block that it had taken.  A failure in `link_image`
wastes the entry, as the comment in `load_library` says: it stays in `solist` with `FLAG_ERROR`, so
that `find_library` refuses the name from then on, and the libraries that were loaded for it stay,
too, with the references they have taken. -/

namespace Bionic.Linker

open StateExcept RefGraph

/-- What a `dlopen(name)` that returned NULL has left behind: the entries `new`. -/
structure Rejected (W : World) (name : CStr) (s s' : State) (new : List Ptr) : Prop where
  solist : s'.solist = s.solist ++ new
  same : ∀ x ∈ s.solist, Same (s.so x) (s'.so x)
  refcount : ∀ x ∈ s.solist, (s'.so x).refcount =
    (s.so x).refcount + BitVec.ofNat 32 ((held (taken s') new).count x)
  blocks : ∀ t, Blocks s t → ∃ t', Blocks s' t' ∧ (new = [] → t' = t)
  early : ¬ Initializes W name s → new = []
  late : Initializes W name s → ∃ si rest, new = si :: rest ∧ (s'.so si).name = basename name ∧
    (s'.so si).flags.error = true

theorem Found.rejected {W : World} {P : CStr → Prop} {name : CStr} {s s' : State} {new : List Ptr}
    (h : Found W P name s s' new none) (hi : new ≠ [] ↔ Initializes W name s) :
    Rejected W name s s' new := by
  refine ⟨h.grown.solist, h.grown.same, fun x hx => ?_, h.grown.blocks, fun hn => ?_, fun hn => ?_⟩
  · rw [h.grown.counts x (h.grown.mem hx), before, if_pos hx]
  · exact not_not.1 fun he => hn (hi.1 he)
  · exact (h.failed rfl).resolve_left (hi.2 hn)

/-- In the runs of `libdl_safe` the allocated blocks are those of the loaded libraries, provided that
the memory behind the bitmap does not look like a free block. -/
theorem reach_blocks {W : World} {exe : Exe} {beyond : ℕ → Ba.BaBits} {S : System}
    (hb : (beyond Ba.numEntries).allocated = true) (h : Reach W exe beyond Keeps S) :
    Wf S.linker ∧ ∃ t, Blocks S.linker t := by
  refine ⟨(reach_keeps h).inv.wf, ?_⟩
  induction h with
  | init hr =>
      obtain ⟨s₁, new, -, hl⟩ := (linkerInit_spec W.names_true exe.names_true).of_returns hr _ rfl
      obtain ⟨t, ht, -⟩ := hl.grown.blocks (.leaf false) ⟨Ba.boot_fenced hb, Ba.boot_holds beyond⟩
      exact ⟨t, ht⟩
  | @step S S' op hr hm hk hs ih =>
      obtain ⟨t, ht⟩ := ih
      have hi := reach_keeps hr
      cases op with
      | dlopen filename =>
          obtain ⟨S₁, new, r, hs₁, ho⟩ := step_dlopen W.names_true hi filename
          rw [hs] at hs₁
          cases hs₁
          obtain ⟨s₁, hf, he⟩ := ho.found
          obtain ⟨t', ht', -⟩ := hf.grown.blocks t ht
          refine ⟨t', ?_⟩
          rw [he]
          cases r with
          | none => exact ht'
          | some x =>
              have hl : live (s₁.raise x) = live s₁ :=
                List.filterMap_congr fun z _ => (raise_same z).baIndex
              rw [Option.elim_some, Blocks, hl]
              exact ht'
      | dlclose handle =>
          obtain ⟨S₁, hs₁, hc⟩ := step_dlclose (W := W) hi hm hk
          rw [hs] at hs₁
          cases hs₁
          exact hc.released.shrunk.blocks t ht

end Bionic.Linker
