import Grits.Upload.References

/-!
# What an upload leaves behind

When the handler has answered and the holder has let go of the file, the count of
every blob is again that of the references of others, unless the file was accepted:
then one reference to it is lost.
-/

namespace Grits

namespace Upload

open BlobStore Runs

variable {H : BlobHash} {c : HTTPModuleConfig} {s t : Server} {past : List Server}
  {lost : Multiset ℕ}

/-- `RefCount` of a file; of one that was never there it is zero. -/
def Server.refCount (s : Server) (id : ℕ) : ℤ :=
  ((s.rest.store.heap[id]?).map (·.refCount)).getD 0

/-- The references to a file that the request has nothing to do with. -/
def Server.others (s : Server) (id : ℕ) : ℕ :=
  s.rest.held.count id + (inHolder (s.heldRefs.filter fun ref => !ref.ours)).count id

/-- The request is answered and the holder has none of its references any more. -/
structure Settled (s : Server) : Prop where
  answered : ∃ reply, s.stage = .answered reply
  cleanedUp : ∀ ref ∈ s.heldRefs, ref.ours = false

/-- The counts are what they were before the request, apart from the references of
others. -/
def Balanced (past : List Server) (s : Server) : Prop :=
  ∀ before ∈ past, (∃ request, before.stage = .called request) → ∀ id,
    s.refCount id - s.others id = before.refCount id - before.others id

/-- No blob without references of others has lived through an eviction after its time. -/
def Collected (s : Server) : Prop :=
  ∀ addr id file, s.rest.store.files.lookup addr = some id →
    s.rest.store.heap[id]? = some file → s.others id = 0 →
    ∀ now ∈ s.rest.evictions, isAfter now file.expiresAt = false

/-- The uploads whose body does not have the hash in the path. -/
def Uploads.unfit : Uploads := ⟨True, False⟩

/-! ## The lost references -/

/-- What is counted beyond the references of others is lost. -/
theorem Accounted.refCount_eq (h : Accounted H s lost) (hstage : s.stage.refs = 0)
    (hours : ∀ ref ∈ s.heldRefs, ref.ours = false) (id : ℕ) :
    s.refCount id = s.others id + lost.count id := by
  have hconsistent := h.running.consistent
  have hheld : (s.usage lost).held.count id = s.others id + lost.count id := by
    have hfilter : s.heldRefs.filter (fun ref => !ref.ours) = s.heldRefs := by
      apply List.filter_eq_self.mpr
      intro ref href
      simp [hours ref href]
    rw [Server.others, hfilter]
    change (s.rest.held + (inHolder s.heldRefs + s.stage.refs + lost)).count id = _
    rw [hstage]
    simp only [Multiset.count_add, Multiset.count_zero]
    omega
  unfold Server.refCount
  cases hfile : s.rest.store.heap[id]? with
  | some file =>
      have hcount := hconsistent.counted id file hfile
      change file.refCount = _
      omega
  | none =>
      -- nobody has a reference to a file that is not there
      have hzero : (s.usage lost).held.count id = 0 := by
        rw [Multiset.count_eq_zero]
        intro hmem
        have hlt : id < s.rest.store.heap.length := hconsistent.within id hmem
        rw [List.getElem?_eq_getElem hlt] at hfile
        cases hfile
      change (0 : ℤ) = _
      omega

theorem Step.unfit_or (hstep : Step H c .any s t) : Step H c .unfit s t ∨ t.stage.Kept := by
  cases hstep with
  | rest hstep => exact .inl (.rest hstep)
  | holdOther hheld => exact .inl (.holdOther hheld)
  | cleanupExpired hrefs hnow hexpired hrun =>
      exact .inl (.cleanupExpired hrefs hnow hexpired hrun)
  | refuse hstage hrefusal => exact .inl (.refuse hstage hrefusal)
  | unnamed hstage hrefusal hhash => exact .inl (.unnamed hstage hrefusal hhash)
  | readFile h hstage hrefusal hhash hrun =>
      exact .inl (.readFile h hstage hrefusal hhash hrun)
  | fetched h hstage hrefusal hhash hheld hfile haddr =>
      exact .inl (.fetched h hstage hrefusal hhash hheld hfile haddr)
  | missing hstage hrefusal hhash hrun => exact .inl (.missing hstage hrefusal hhash hrun)
  | alreadyExists hstage hrun => exact .inl (.alreadyExists hstage hrun)
  | copy hstage hlimit => exact .inl (.copy hstage hlimit)
  | copyFails hstage hstatus => exact .inl (.copyFails hstage hstatus)
  | addFails hstage => exact .inl (.addFails hstage)
  | addLocalFile => exact .inr trivial
  | addOther hstage hfits hrun => exact .inl (.addOther hstage hfits hrun)
  | releaseOther hstage hrun => exact .inl (.releaseOther hstage hrun)
  | holdTake => exact .inr trivial
  | hold hstage => exact .inl (.hold hstage)

/-- Without lost references the file was not accepted, or the handler is not done with it. -/
theorem run_accounted (h : Run (Opened H) (Step H c .any) past s) :
    ∃ lost, Accounted H s lost ∧
      (lost = 0 → s.stage.Kept ∨ Run (Opened H) (Step H c .unfit) past s) := by
  induction h with
  | start h => exact ⟨0, opened_accounted h, fun _ => .inr (.start h)⟩
  | @step past s t h hstep ih =>
      obtain ⟨lost, hlost, hrun⟩ := ih
      obtain ⟨lost', hlost', hne, hkept, -⟩ := hstep.accounted hlost
      refine ⟨lost', hlost', fun hzero => ?_⟩
      have hnone : lost = 0 := by
        by_contra hsome
        exact hne hsome hzero
      rcases hrun hnone with hs | hs
      · exact .inl ((hkept hs).resolve_right (not_not_intro hzero))
      · rcases hstep.unfit_or with hunfit | ht
        · exact .inr (hs.step hunfit)
        · exact .inl ht

theorem Step.not_kept (hstep : Step H c .unfit s t) (hs : ¬ s.stage.Kept) : ¬ t.stage.Kept := by
  cases hstep with
  | rest => exact hs
  | holdOther => exact hs
  | cleanupExpired => exact hs
  | addLocalFile hfitting => exact hfitting.elim
  | holdTake hstage =>
      rw [hstage] at hs
      exact absurd trivial hs
  | _ => exact id

/-- An upload whose body does not fit loses nothing. -/
theorem unfit_accounted (h : Run (Opened H) (Step H c .unfit) past s) : Accounted H s 0 := by
  have hinv : Accounted H s 0 ∧ ¬ s.stage.Kept := by
    refine h.invariant (I := fun s => Accounted H s 0 ∧ ¬ s.stage.Kept) ?_ ?_
    · intro s hs
      obtain ⟨request, hstage⟩ := hs.stage
      refine ⟨opened_accounted hs, ?_⟩
      rw [hstage]
      exact id
    · rintro s t ⟨hs, hkept⟩ hstep
      obtain ⟨lost, hlost, -, -, heq⟩ := hstep.accounted hs
      rw [heq hkept] at hlost
      exact ⟨hlost, hstep.not_kept hkept⟩
  exact hinv.1

/-- A run has passed a state in which the request was not yet looked at. -/
theorem exists_called (h : Run (Opened H) (Step H c .any) past s) (hsettled : Settled s) :
    ∃ before ∈ past, ∃ request, before.stage = .called request := by
  have hstart : ∃ before ∈ s :: past, ∃ request, before.stage = .called request := by
    clear hsettled
    induction h with
    | start h => exact ⟨_, List.mem_singleton_self _, h.stage⟩
    | step h hstep ih =>
        obtain ⟨before, hbefore, hcalled⟩ := ih
        exact ⟨before, List.mem_cons_of_mem _ hbefore, hcalled⟩
  obtain ⟨before, hbefore, request, hcalled⟩ := hstart
  obtain ⟨reply, hanswered⟩ := hsettled.answered
  rcases List.mem_cons.mp hbefore with rfl | hbefore
  · rw [hcalled] at hanswered
    cases hanswered
  · exact ⟨before, hbefore, request, hcalled⟩

/-- A settled upload has left the counts as they were exactly if at no time its file was
added to the blob store under the hash that the path asks for. -/
theorem upload_balanced_iff (h : Run (Opened H) (Step H c .any) past s) (hsettled : Settled s) :
    Balanced past s ∧ Collected s ↔ Run (Opened H) (Step H c .unfit) past s := by
  obtain ⟨reply, hanswered⟩ := hsettled.answered
  have hrefs : s.stage.refs = 0 := by simp [hanswered]
  -- before the request is looked at, the references are all those of others
  have hbefore : ∀ before ∈ past, (∃ request, before.stage = .called request) → ∀ id,
      before.refCount id = before.others id := by
    intro before hmem ⟨request, hcalled⟩ id
    obtain ⟨lost, hlost⟩ := h.invariant_mem (I := fun s => ∃ lost, Accounted H s lost)
      (fun _ hs => ⟨0, opened_accounted hs⟩)
      (fun _ _ ⟨_, hs⟩ hstep => let ⟨lost, hlost, _⟩ := hstep.accounted hs; ⟨lost, hlost⟩)
      before (List.mem_cons_of_mem s hmem)
    obtain ⟨hzero, hours⟩ := hlost.pending (by simp [hcalled])
    have hcount := hlost.refCount_eq (by simp [hcalled]) hours id
    simpa [hzero] using hcount
  constructor
  · rintro ⟨hbalanced, -⟩
    obtain ⟨lost, hlost, hrun⟩ := run_accounted h
    obtain ⟨before, hmem, hcalled⟩ := exists_called h hsettled
    have hzero : lost = 0 := by
      apply Multiset.eq_zero_of_forall_notMem
      intro id hid
      have hpos := Multiset.count_pos.mpr hid
      have hcount := hlost.refCount_eq hrefs hsettled.cleanedUp id
      have hsame := hbalanced before hmem hcalled id
      have hstart := hbefore before hmem hcalled id
      omega
    refine (hrun hzero).resolve_left ?_
    rw [hanswered]
    exact id
  · intro hrun
    have hnone := unfit_accounted hrun
    have hcount := hnone.refCount_eq hrefs hsettled.cleanedUp
    refine ⟨fun before hmem hcalled id => ?_, fun addr id file hentry hfile hothers => ?_⟩
    · have hstart := hbefore before hmem hcalled id
      have hend := hcount id
      rw [Multiset.count_zero] at hend
      omega
    · have hzero : file.refCount = 0 := by
        have hend := hcount id
        rw [Server.refCount, hfile, hothers, Multiset.count_zero] at hend
        exact hend
      exact hnone.running.waits addr id file ⟨hentry, hfile, hzero⟩

/-! ## Two uploads of "hello" -/

/-- A path with a hash that is not that of "hello". -/
def otherPath : GoString :=
  "/grits/v1/blob/QmRN6wdp1S2A5EtjW9A3M1vKSBuQQGcgvuhoMUoEz4iiT6".toList

def otherAddr : BlobAddr := "QmRN6wdp1S2A5EtjW9A3M1vKSBuQQGcgvuhoMUoEz4iiT6".toList

theorem accepted_otherPath : BlobRequest.expectedHash ⟨otherPath, 5⟩ = some otherAddr ∧
    refusal hundredMB ⟨otherPath, 5⟩ false = none := by decide +kernel

theorem upload_balanced_mismatch : ∃ past s,
    Run (Opened helloHash) (Step helloHash hundredMB .any) past s ∧
      s.stage = .answered ⟨400, none, 0⟩ ∧ Balanced past s ∧ Collected s := by
  have h₀ := @Run.start Server (Opened helloHash) (Step helloHash hundredMB .unfit) _
    (opened_emptyServer helloHash otherPath)
  have h₁ := h₀.step (.missing rfl accepted_otherPath.2 accepted_otherPath.1 rfl)
  have h₂ := h₁.step (@Step.copy helloHash hundredMB .unfit _ (some otherAddr) helloData rfl
    (by decide +kernel))
  have h₃ := h₂.step (@Step.addOther helloHash hundredMB .unfit _ (some otherAddr) helloData 0 _ _
    rfl (fun hfits => absurd (hfits otherAddr rfl) (by decide +kernel)) rfl)
  have h₄ := h₃.step (.releaseOther rfl rfl)
  have hany : Run (Opened helloHash) (Step helloHash hundredMB .any) _ _ :=
    h₄.mono fun _ _ => Step.mono (fun _ => trivial) fun _ => trivial
  have hbalanced :=
    (upload_balanced_iff hany ⟨⟨_, rfl⟩, fun _ href => absurd href List.not_mem_nil⟩).mpr h₄
  exact ⟨_, _, hany, rfl, hbalanced⟩

/-- The file of an accepted upload keeps a reference that nobody has, and outlives an
eviction after the holder has let go of it. -/
theorem upload_leaves_reference : ∃ past s,
    Run (Opened helloHash) (Step helloHash hundredMB .any) past s ∧ Settled s ∧
      s.others 0 = 0 ∧ s.refCount 0 = 1 ∧ s.rest.store.files.lookup helloAddr = some 0 ∧
      s.rest.evictions = [300000000001] ∧ ¬ Balanced past s := by
  have hhash : BlobRequest.expectedHash ⟨"/grits/v1/blob/".toList, 5⟩ = none := by decide +kernel
  have hrefusal : refusal hundredMB ⟨"/grits/v1/blob/".toList, 5⟩ false = none := by
    decide +kernel
  have h₀ := @Run.start Server (Opened helloHash) (Step helloHash hundredMB .any) _
    (opened_emptyServer helloHash "/grits/v1/blob/".toList)
  have h₁ := h₀.step (.unnamed rfl hrefusal hhash)
  have h₂ := h₁.step (@Step.copy helloHash hundredMB .any _ none helloData rfl (by decide +kernel))
  have h₃ := h₂.step (@Step.addLocalFile helloHash hundredMB .any _ none helloData 0 _ _ trivial
    rfl (fun _ hnone => nomatch hnone) rfl)
  have h₄ := h₃.step (.holdTake rfl)
  have h₅ := h₄.step (.hold rfl)
  have h₆ := h₅.step (.rest (@BlobStore.Step.tick helloHash _ 300000000001 (by decide +kernel)))
  have h₇ := h₆.step (@Step.cleanupExpired helloHash hundredMB .any _ _ [] 300000000001 _ rfl
    le_rfl (by decide +kernel) rfl)
  have h₈ := h₇.step (.rest (@BlobStore.Step.evictOldFiles helloHash _ 300000000001 [helloAddr]
    le_rfl (by decide +kernel)))
  refine ⟨_, _, h₈, ⟨⟨_, rfl⟩, fun _ href => absurd href List.not_mem_nil⟩, by decide +kernel,
    by decide +kernel, by decide +kernel, rfl, fun hbalanced => ?_⟩
  have hsame := hbalanced (emptyServer "/grits/v1/blob/".toList) (by simp) ⟨_, rfl⟩ 0
  exact absurd hsame (by decide +kernel)

end Upload

end Grits
