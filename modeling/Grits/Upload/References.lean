import Grits.Upload.Handler

/-!
# Whose references they are

Every step of an upload is a step of the blob store, seen with all the references
there are: those of the rest of the server, of the holder, of the handler, and the
lost ones that nobody will release.
-/

namespace Grits

namespace Upload

open BlobStore Runs

variable {H : BlobHash} {c : HTTPModuleConfig} {uploads : Uploads} {s t : Server}
  {past : List Server} {lost : Multiset ℕ}

/-! ## The blob store of the server -/

/-- The references that the holder has. -/
def inHolder (refs : List HeldReference) : Multiset ℕ := (refs.map HeldReference.obj : List ℕ)

@[simp] theorem inHolder_cons (ref : HeldReference) (refs : List HeldReference) :
    inHolder (ref :: refs) = ref.obj ::ₘ inHolder refs := rfl

@[simp] theorem inHolder_concat (refs : List HeldReference) (ref : HeldReference) :
    inHolder (refs ++ [ref]) = inHolder refs + {ref.obj} := by
  unfold inHolder
  rw [List.map_append, ← Multiset.coe_add]
  rfl

@[simp] theorem refs_called (request : BlobRequest) : (Stage.called request).refs = 0 := rfl

@[simp] theorem refs_existing (addr : BlobAddr) (id : ℕ) :
    (Stage.existing addr id).refs = {id} := rfl

@[simp] theorem refs_copied (expectedHash : Option BlobAddr) (data : Bytes) :
    (Stage.copied expectedHash data).refs = 0 := rfl

@[simp] theorem refs_mismatch (id : ℕ) : (Stage.mismatch id).refs = {id} := rfl

@[simp] theorem refs_added (id : ℕ) (addr : BlobAddr) : (Stage.added id addr).refs = {id} := rfl

@[simp] theorem refs_taken (id : ℕ) (addr : BlobAddr) :
    (Stage.taken id addr).refs = {id} + {id} := rfl

@[simp] theorem refs_answered (reply : Reply) : (Stage.answered reply).refs = 0 := rfl

/-- The blob store with all the references to its files. -/
def Server.usage (s : Server) (lost : Multiset ℕ) : Usage :=
  { s.rest with held := s.rest.held + (inHolder s.heldRefs + s.stage.refs + lost) }

/-- A step of the blob store does not depend on references it does not touch. -/
theorem step_frame {u w : Usage} (extra : Multiset ℕ) (h : BlobStore.Step H u w) :
    BlobStore.Step H { u with held := u.held + extra } { w with held := w.held + extra } := by
  cases h with
  | @readFile addr id bs hrun =>
      have hstep := @BlobStore.Step.readFile H { u with held := u.held + extra } addr id bs hrun
      simpa only [Multiset.cons_add] using hstep
  | readFileElsewhere hrun =>
      exact @BlobStore.Step.readFileElsewhere H { u with held := u.held + extra } _ _ hrun
  | @addReader data written id bs hrun =>
      have hstep :=
        @BlobStore.Step.addReader H { u with held := u.held + extra } data written id bs hrun
      simpa only [Multiset.cons_add] using hstep
  | @addLocalFile data written id bs hrun =>
      have hstep :=
        @BlobStore.Step.addLocalFile H { u with held := u.held + extra } data written id bs hrun
      simpa only [Multiset.cons_add] using hstep
  | @addDataBlock data id bs hrun =>
      have hstep :=
        @BlobStore.Step.addDataBlock H { u with held := u.held + extra } data id bs hrun
      simpa only [Multiset.cons_add] using hstep
  | @take id hheld =>
      have hstep := @BlobStore.Step.take H { u with held := u.held + extra } id
        (Multiset.mem_add.mpr (.inl hheld))
      simpa only [Multiset.cons_add] using hstep
  | @release id bs hheld hrun =>
      have hstep := @BlobStore.Step.release H { u with held := u.held + extra } id bs
        (Multiset.mem_add.mpr (.inl hheld)) hrun
      simpa only [Multiset.erase_add_left_pos extra hheld] using hstep
  | @touch id duration hheld =>
      exact @BlobStore.Step.touch H { u with held := u.held + extra } id duration
        (Multiset.mem_add.mpr (.inl hheld))
  | evictOldFiles hnow horder =>
      exact @BlobStore.Step.evictOldFiles H { u with held := u.held + extra } _ _ hnow horder
  | tick hclock => exact @BlobStore.Step.tick H { u with held := u.held + extra } _ hclock

/-- Only how often each reference is held matters. -/
theorem running_congr {u w : Usage} (h : Running H u) (hstore : w.store = u.store)
    (hclock : w.clock = u.clock) (hevictions : w.evictions = u.evictions)
    (hheld : w.held = u.held) : Running H w := by
  cases u
  cases w
  subst hstore hclock hevictions hheld
  exact h

/-- One of all the references is released. -/
theorem running_release {u w : Usage} {id : ℕ} {bs : LocalBlobStore} (h : Running H u)
    (hrun : u.store.release id u.clock = .ok bs) (hstore : w.store = bs)
    (hclock : w.clock = u.clock) (hevictions : w.evictions = u.evictions)
    (hheld : u.held = id ::ₘ w.held) : Running H w := by
  have hmem : id ∈ u.held := by simp [hheld]
  refine running_congr (h.step (.release hmem hrun)) hstore hclock hevictions ?_
  change w.held = u.held.erase id
  rw [hheld, Multiset.erase_cons_head]

/-! ## What a step leaves -/

/-- The file that was uploaded is in the blob store, and not all is done. -/
def Stage.Kept : Stage → Prop
  | .added _ _ => True
  | .taken _ _ => True
  | _ => False

/-- The references are accounted for; before the answer there are no lost ones. -/
structure Accounted (H : BlobHash) (s : Server) (lost : Multiset ℕ) : Prop where
  running : Running H (s.usage lost)
  pending : (∀ reply, s.stage ≠ .answered reply) →
    lost = 0 ∧ ∀ ref ∈ s.heldRefs, ref.ours = false

theorem opened_accounted (h : Opened H s) : Accounted H s 0 where
  running := by
    obtain ⟨request, hstage⟩ := h.stage
    refine running_congr (opened_running h.rest) rfl rfl rfl ?_
    simp [Server.usage, h.heldRefs, hstage, Stage.refs, inHolder]
  pending := by
    intro
    rw [h.heldRefs]
    simp

/-- A step of the handler that leaves the holder alone. -/
theorem Accounted.goOn (h : Accounted H s lost) {stage : Stage} (hstage : s.stage = stage)
    (hopen : ∀ reply, stage ≠ .answered reply) (hrunning : Running H (t.usage lost))
    (hrefs : t.heldRefs = s.heldRefs) (hkept : stage.Kept → t.stage.Kept) :
    ∃ lost', Accounted H t lost' ∧ (lost ≠ 0 → lost' ≠ 0) ∧
      (s.stage.Kept → t.stage.Kept ∨ lost' ≠ 0) ∧ (¬ s.stage.Kept → lost' = lost) := by
  subst hstage
  refine ⟨lost, ⟨hrunning, fun _ => ?_⟩, fun h => h, fun hs => .inl (hkept hs), fun _ => rfl⟩
  rw [hrefs]
  exact h.pending hopen

/-- The references after a step; the request loses some when it hands its file to the
holder. -/
theorem Step.accounted (hstep : Step H c uploads s t) (h : Accounted H s lost) :
    ∃ lost', Accounted H t lost' ∧ (lost ≠ 0 → lost' ≠ 0) ∧
      (s.stage.Kept → t.stage.Kept ∨ lost' ≠ 0) ∧ (¬ s.stage.Kept → lost' = lost) := by
  obtain ⟨hrunning, hpending⟩ := id h
  have hall : ∀ stage, s.stage = stage →
      (s.usage lost).held = s.rest.held + (inHolder s.heldRefs + stage.refs + lost) := by
    intro stage hstage
    rw [← hstage]
    rfl
  cases hstep with
  | rest hrest =>
      exact ⟨lost, ⟨hrunning.step (step_frame _ hrest), hpending⟩, fun h => h, .inl, fun _ => rfl⟩
  | @holdOther id duration hheld =>
      refine ⟨lost, ⟨running_congr hrunning rfl rfl rfl ?_, fun hne => ?_⟩, fun h => h, .inl,
        fun _ => rfl⟩
      · have hsplit : {id} + s.rest.held.erase id = s.rest.held := Multiset.cons_erase hheld
        change s.rest.held.erase id + (inHolder (s.heldRefs ++ [_]) + s.stage.refs + lost) = _
        rw [hall _ rfl, inHolder_concat]
        nth_rewrite 2 [← hsplit]
        abel
      · obtain ⟨hlost, hours⟩ := hpending hne
        refine ⟨hlost, fun ref href => ?_⟩
        rcases List.mem_append.mp href with href | href
        · exact hours ref href
        · rw [List.mem_singleton.mp href]
  | @cleanupExpired ref refs now bs hrefs hnow hexpired hrun =>
      refine ⟨lost, ⟨?_, fun hne => ?_⟩, fun h => h, .inl, fun _ => rfl⟩
      · refine running_release hrunning hrun rfl rfl rfl ?_
        change _ = ref.obj ::ₘ (s.rest.held + (inHolder refs + s.stage.refs + lost))
        rw [hall _ rfl, hrefs, inHolder_cons]
        simp only [Multiset.cons_add, Multiset.add_cons]
      · obtain ⟨hlost, hours⟩ := hpending hne
        refine ⟨hlost, fun ref' href => hours ref' ?_⟩
        rw [hrefs]
        exact List.mem_cons_of_mem ref href
  | @refuse request overLimit status hstage hrefusal =>
      refine h.goOn hstage (by simp) ?_ rfl False.elim
      exact running_congr hrunning rfl rfl rfl (hall _ hstage).symm
  | @unnamed request overLimit hstage hrefusal hhash =>
      refine h.goOn hstage (by simp) ?_ rfl False.elim
      exact running_congr hrunning rfl rfl rfl (hall _ hstage).symm
  | @readFile request overLimit addr id bs hexisting hstage hrefusal hhash hrun =>
      refine h.goOn hstage (by simp) ?_ rfl False.elim
      have hread := hrunning.step (@BlobStore.Step.readFile H (s.usage lost) addr id bs hrun)
      refine running_congr hread rfl rfl rfl ?_
      change s.rest.held + (inHolder s.heldRefs + {id} + lost) = id ::ₘ (s.usage lost).held
      simp only [hall _ hstage, ← Multiset.singleton_add, refs_called, refs_existing, refs_copied,
        refs_mismatch]
      abel
  | @fetched request overLimit addr id file hexisting hstage hrefusal hhash hheld hfile haddr =>
      refine h.goOn hstage (by simp) ?_ rfl False.elim
      refine running_congr hrunning rfl rfl rfl ?_
      have hsplit : {id} + s.rest.held.erase id = s.rest.held := Multiset.cons_erase hheld
      change s.rest.held.erase id + (inHolder s.heldRefs + {id} + lost) = _
      rw [hall _ hstage, refs_called]
      nth_rewrite 2 [← hsplit]
      abel
  | @missing request overLimit addr bs hstage hrefusal hhash hrun =>
      refine h.goOn hstage (by simp) ?_ rfl False.elim
      have hread := hrunning.step (@BlobStore.Step.readFileElsewhere H (s.usage lost) addr bs hrun)
      exact running_congr hread rfl rfl rfl (hall _ hstage).symm
  | @alreadyExists addr id bs hstage hrun =>
      refine h.goOn hstage (by simp) ?_ rfl False.elim
      refine running_release hrunning hrun rfl rfl rfl ?_
      change _ = id ::ₘ (s.rest.held + (inHolder s.heldRefs + 0 + lost))
      simp only [hall _ hstage, ← Multiset.singleton_add, refs_called, refs_existing, refs_copied,
        refs_mismatch]
      abel
  | @copy expectedHash data hstage hlimit =>
      refine h.goOn hstage (by simp) ?_ rfl False.elim
      exact running_congr hrunning rfl rfl rfl (hall _ hstage).symm
  | @copyFails expectedHash status hstage hstatus =>
      refine h.goOn hstage (by simp) ?_ rfl False.elim
      exact running_congr hrunning rfl rfl rfl (hall _ hstage).symm
  | @addFails expectedHash data hstage =>
      refine h.goOn hstage (by simp) ?_ rfl False.elim
      exact running_congr hrunning rfl rfl rfl (hall _ hstage).symm
  | @addLocalFile expectedHash data written id bs hfitting hstage hfits hrun =>
      refine h.goOn hstage (by simp) ?_ rfl False.elim
      have hadd := hrunning.step
        (@BlobStore.Step.addLocalFile H (s.usage lost) data written id bs hrun)
      refine running_congr hadd rfl rfl rfl ?_
      change s.rest.held + (inHolder s.heldRefs + {id} + lost) = id ::ₘ (s.usage lost).held
      simp only [hall _ hstage, ← Multiset.singleton_add, refs_called, refs_existing, refs_copied,
        refs_mismatch]
      abel
  | @addOther expectedHash data written id bs hstage hfits hrun =>
      refine h.goOn hstage (by simp) ?_ rfl False.elim
      have hadd := hrunning.step
        (@BlobStore.Step.addLocalFile H (s.usage lost) data written id bs hrun)
      refine running_congr hadd rfl rfl rfl ?_
      change s.rest.held + (inHolder s.heldRefs + {id} + lost) = id ::ₘ (s.usage lost).held
      simp only [hall _ hstage, ← Multiset.singleton_add, refs_called, refs_existing, refs_copied,
        refs_mismatch]
      abel
  | @releaseOther id bs hstage hrun =>
      refine h.goOn hstage (by simp) ?_ rfl False.elim
      refine running_release hrunning hrun rfl rfl rfl ?_
      change _ = id ::ₘ (s.rest.held + (inHolder s.heldRefs + 0 + lost))
      simp only [hall _ hstage, ← Multiset.singleton_add, refs_called, refs_existing, refs_copied,
        refs_mismatch]
      abel
  | @holdTake id actualHash hstage =>
      refine h.goOn hstage (by simp) ?_ rfl fun _ => trivial
      have hmem : id ∈ (s.usage lost).held := by
        simp [hall _ hstage]
      refine running_congr (hrunning.step (BlobStore.Step.take hmem)) rfl rfl rfl ?_
      change s.rest.held + (inHolder s.heldRefs + (Stage.taken id actualHash).refs + lost) =
        id ::ₘ (s.usage lost).held
      rw [hall _ hstage, refs_added, refs_taken, ← Multiset.singleton_add]
      abel
  | @hold id actualHash hstage =>
      -- of the two references the holder gets one
      refine ⟨id ::ₘ lost, ⟨running_congr hrunning rfl rfl rfl ?_, fun hne => ?_⟩,
        fun _ => Multiset.cons_ne_zero, fun _ => .inr Multiset.cons_ne_zero,
        fun hnot => absurd ?_ hnot⟩
      · change s.rest.held + (inHolder (s.heldRefs ++ [_]) + 0 + id ::ₘ lost) = _
        rw [hall _ hstage, inHolder_concat, refs_taken, ← Multiset.singleton_add]
        abel
      · exact absurd rfl (hne _)
      · rw [hstage]
        trivial

/-! ## A server without blobs -/

/-- The server before a request with this path, when it has no blobs. -/
def emptyServer (path : GoString) : Server :=
  ⟨⟨⟨∅, [], ⟨∅, ∅⟩⟩, 0, 0, []⟩, [], .called ⟨path, 5⟩⟩

theorem opened_emptyServer (H : BlobHash) (path : GoString) : Opened H (emptyServer path) := by
  refine ⟨⟨⟨true, ⟨∅, ∅⟩, [], ⟨?_, ?_⟩, rfl, rfl⟩, rfl, rfl⟩, rfl, _, rfl⟩
  · exact fun path hpath => absurd hpath Finmap.notMem_empty
  · rintro path file ⟨⟩

def hundredMB : HTTPModuleConfig := ⟨false, 100 * 1024 * 1024⟩

end Upload

end Grits
