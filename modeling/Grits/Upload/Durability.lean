import Grits.Upload.References

/-!
# How long an uploaded blob stays

The answer 200 comes with a reference that the holder keeps for five minutes.  The
answer 204 comes with nothing.
-/

namespace Grits

namespace Upload

open BlobStore Runs

variable {H : BlobHash} {c : HTTPModuleConfig} {uploads : Uploads} {s t : Server}
  {past : List Server} {lost : Multiset ℕ}

/-- A blob that was acknowledged is there until five minutes later, and its file too. -/
def Durable (H : BlobHash) (s : Server) : Prop :=
  ∀ reply, s.stage = .answered reply → reply.status = 200 ∨ reply.status = 204 →
    s.rest.clock ≤ reply.time + fiveMinutes →
    ∃ addr, reply.hash = some addr ∧ addr ∈ s.rest.store.files ∧ ∃ file,
      s.rest.store.disk.files.lookup (blobToPath addr) = some file ∧ H.sum file.data = addr

/-- The uploads of blobs that are not there yet. -/
def Uploads.ofMissing : Uploads := ⟨False, True⟩

/-! ## Files keep their address -/

/-- What was in memory is there still, under the same address. -/
def SameAddresses (heap heap' : List BlobStore.LocalCachedFile) : Prop :=
  ∀ (id : ℕ) (file : BlobStore.LocalCachedFile), heap[id]? = some file →
    ∃ file' : BlobStore.LocalCachedFile, heap'[id]? = some file' ∧ file'.address = file.address

theorem sameAddresses_refl (heap : List BlobStore.LocalCachedFile) : SameAddresses heap heap :=
  fun _ file hfile => ⟨file, hfile, rfl⟩

theorem SameAddresses.trans {heap heap' heap'' : List BlobStore.LocalCachedFile}
    (h : SameAddresses heap heap') (h' : SameAddresses heap' heap'') :
    SameAddresses heap heap'' := by
  intro id file hfile
  obtain ⟨file', hfile', haddr⟩ := h id file hfile
  obtain ⟨file'', hfile'', haddr'⟩ := h' id file' hfile'
  exact ⟨file'', hfile'', haddr'.trans haddr⟩

theorem sameAddresses_update (id : ℕ)
    {f : BlobStore.LocalCachedFile → BlobStore.LocalCachedFile}
    (hf : ∀ file, (f file).address = file.address) (bs : LocalBlobStore) :
    SameAddresses bs.heap (bs.update id f).heap := by
  intro other file hfile
  rw [getElem?_update]
  split
  · exact ⟨f file, by simp [hfile], hf file⟩
  · exact ⟨file, hfile, rfl⟩

theorem sameAddresses_take (id : ℕ) (bs : LocalBlobStore) :
    SameAddresses bs.heap (bs.take id).heap := sameAddresses_update id (by intro; rfl) bs

theorem sameAddresses_readFile {addr : BlobAddr} {found : Option ℕ} {bs bs' : LocalBlobStore}
    (hrun : bs.readFile addr = (found, bs')) : SameAddresses bs.heap bs'.heap := by
  unfold LocalBlobStore.readFile at hrun
  cases hentry : bs.files.lookup addr with
  | none =>
      rw [hentry] at hrun
      cases hrun
      exact sameAddresses_refl _
  | some id =>
      rw [hentry] at hrun
      cases hrun
      exact sameAddresses_take id bs

theorem sameAddresses_release {id : ℕ} {now : ℤ} {bs bs' : LocalBlobStore}
    (hrun : bs.release id now = .ok bs') : SameAddresses bs.heap bs'.heap := by
  unfold LocalBlobStore.release at hrun
  cases hfile : bs.heap[id]? with
  | none =>
      rw [hfile] at hrun
      cases hrun
      exact sameAddresses_refl _
  | some file =>
      rw [hfile] at hrun
      dsimp only at hrun
      -- whether it is deleted or not, the file is still in memory
      split_ifs at hrun
      all_goals
        cases hrun
        exact sameAddresses_update id (by intro; rfl) bs

theorem sameAddresses_touch (id : ℕ) (now duration : ℤ) (bs : LocalBlobStore) :
    SameAddresses bs.heap (bs.touch id now duration).heap := by
  unfold LocalBlobStore.touch
  split
  · exact sameAddresses_refl _
  · exact sameAddresses_update id (by intro; rfl) bs

theorem heap_evictOldFiles (now : ℤ) (order : List BlobAddr) (bs : LocalBlobStore) :
    (bs.evictOldFiles now order).heap = bs.heap := by
  induction order generalizing bs with
  | nil => rfl
  | cons addr order ih =>
      have hstep : (bs.evictAt now addr).heap = bs.heap := by
        unfold LocalBlobStore.evictAt
        split
        · rfl
        · split
          · rfl
          · split_ifs <;> rfl
      exact (ih (bs.evictAt now addr)).trans hstep

/-- A file that is added has the hash of its data. -/
theorem sameAddresses_add {data : Bytes} {written : ℤ} {id : ℕ} {bs bs' : LocalBlobStore}
    (hrun : (match bs.files.lookup (H.sum data) with
      | some id => (id, bs.take id)
      | none => bs.addNew (H.sum data) ⟨data, written⟩) = (id, bs')) :
    SameAddresses bs.heap bs'.heap := by
  cases hentry : bs.files.lookup (H.sum data) with
  | some found =>
      rw [hentry] at hrun
      cases hrun
      exact sameAddresses_take _ bs
  | none =>
      rw [hentry] at hrun
      cases hrun
      intro id file hfile
      have hlt := (List.getElem?_eq_some_iff.mp hfile).1
      exact ⟨file, (List.getElem?_append_left hlt).trans hfile, rfl⟩

theorem sameAddresses_step {u w : Usage} (h : BlobStore.Step H u w) :
    SameAddresses u.store.heap w.store.heap := by
  cases h with
  | readFile hrun => exact sameAddresses_readFile hrun
  | readFileElsewhere hrun => exact sameAddresses_readFile hrun
  | addReader hrun => exact sameAddresses_add hrun
  | addLocalFile hrun => exact sameAddresses_add hrun
  | addDataBlock hrun => exact sameAddresses_add hrun
  | @take id => exact sameAddresses_take id _
  | release _ hrun => exact sameAddresses_release hrun
  | touch => exact sameAddresses_touch _ _ _ _
  | evictOldFiles =>
      change SameAddresses _ (LocalBlobStore.evictOldFiles _ _ _).heap
      rw [heap_evictOldFiles]
      exact sameAddresses_refl _
  | tick => exact sameAddresses_refl _

theorem clock_mono {u w : Usage} (h : BlobStore.Step H u w) : u.clock ≤ w.clock := by
  cases h with
  | tick hclock => exact hclock
  | _ => exact le_rfl

/-! ## What the answer rests on -/

/-- The file in memory is that of the hash. -/
def Server.Has (s : Server) (id : ℕ) (hash : BlobAddr) : Prop :=
  ∃ file, s.rest.store.heap[id]? = some file ∧ file.address = hash

/-- A reply of success comes with a reference in the holder, until its time is over. -/
def Server.Backs (s : Server) (reply : Reply) : Prop :=
  reply.status ≠ 204 ∧ (reply.status = 200 → ∃ id hash, reply.hash = some hash ∧ s.Has id hash ∧
    ((∃ ref ∈ s.heldRefs, ref.obj = id ∧ reply.time + fiveMinutes ≤ ref.expiresAt) ∨
      reply.time + fiveMinutes < s.rest.clock))

/-- The invariant of an upload of a blob that is not there. -/
def Server.Promises (s : Server) : Stage → Prop
  | .existing _ _ => False
  | .added id hash => s.Has id hash
  | .taken id hash => s.Has id hash
  | .answered reply => s.Backs reply
  | _ => True

theorem Server.Has.mono {id : ℕ} {hash : BlobAddr} (h : s.Has id hash)
    (hsame : SameAddresses s.rest.store.heap t.rest.store.heap) : t.Has id hash := by
  obtain ⟨file, hfile, rfl⟩ := h
  exact hsame id file hfile

/-- What others do takes nothing from the promise. -/
theorem Server.Promises.mono {stage : Stage} (h : s.Promises stage)
    (hsame : SameAddresses s.rest.store.heap t.rest.store.heap)
    (hclock : s.rest.clock ≤ t.rest.clock)
    (hrefs : ∀ ref ∈ s.heldRefs, ref ∈ t.heldRefs ∨ ref.expiresAt < t.rest.clock) :
    t.Promises stage := by
  cases stage with
  | existing => exact h
  | added id hash => exact Server.Has.mono h hsame
  | taken id hash => exact Server.Has.mono h hsame
  | answered reply =>
      obtain ⟨hstatus, hsuccess⟩ := h
      refine ⟨hstatus, fun h200 => ?_⟩
      obtain ⟨id, hash, hhash, hhas, hheld⟩ := hsuccess h200
      refine ⟨id, hash, hhash, hhas.mono hsame, ?_⟩
      rcases hheld with ⟨ref, href, hobj, htime⟩ | hover
      · rcases hrefs ref href with hkept | hexpired
        · exact .inl ⟨ref, hkept, hobj, htime⟩
        · exact .inr (htime.trans_lt hexpired)
      · exact .inr (hover.trans_le hclock)
  | _ => trivial

theorem refusal_status {request : BlobRequest} {overLimit : Bool} {status : ℕ}
    (h : refusal c request overLimit = some status) : status ≠ 200 ∧ status ≠ 204 := by
  unfold refusal at h
  split_ifs at h
  · cases h
    decide
  · cases h
    decide
  · cases h
    decide
  · split at h
    · cases h
    · split_ifs at h
      cases h
      decide

/-- An answer that is not one of success promises nothing. -/
theorem backs_failure {status : ℕ} (h : status ≠ 200 ∧ status ≠ 204) (hash : Option BlobAddr)
    (time : ℤ) : s.Backs ⟨status, hash, time⟩ := ⟨h.2, fun h200 => absurd h200 h.1⟩

theorem addLocalFile_has {data : Bytes} {written : ℤ} {id : ℕ} {bs bs' : LocalBlobStore}
    {held : Multiset ℕ} (h : Consistent H bs held)
    (hrun : bs.addLocalFile H data written = (id, bs')) :
    ∃ file, bs'.heap[id]? = some file ∧ file.address = H.sum data := by
  unfold LocalBlobStore.addLocalFile LocalBlobStore.addReader at hrun
  cases hentry : bs.files.lookup (H.sum data) with
  | some found =>
      rw [hentry] at hrun
      cases hrun
      obtain ⟨file, hfile, haddr, -⟩ := h.entry _ _ hentry
      obtain ⟨file', hfile', haddr'⟩ := sameAddresses_take id bs id file hfile
      exact ⟨file', hfile', haddr'.trans haddr⟩
  | none =>
      rw [hentry] at hrun
      cases hrun
      exact ⟨_, List.getElem?_concat_length, rfl⟩

theorem Step.promises (hstep : Step H c .ofMissing s t) (h : Accounted H s lost)
    (hs : s.Promises s.stage) : t.Promises t.stage := by
  cases hstep with
  | rest hrest =>
      exact hs.mono (sameAddresses_step hrest) (clock_mono hrest) fun _ href => .inl href
  | holdOther =>
      exact hs.mono (sameAddresses_refl _) le_rfl fun _ href =>
        .inl (List.mem_append_left _ href)
  | @cleanupExpired ref refs now bs hrefs hnow hexpired hrun =>
      refine hs.mono (sameAddresses_release hrun) le_rfl fun ref' href => ?_
      rw [hrefs] at href
      rcases List.mem_cons.mp href with rfl | href
      · exact .inr (hexpired.trans_le hnow)
      · exact .inl href
  | refuse _ hrefusal => exact backs_failure (refusal_status hrefusal) _ _
  | readFile hexisting => exact hexisting.elim
  | fetched hexisting => exact hexisting.elim
  | @alreadyExists addr id bs hstage =>
      rw [hstage] at hs
      exact hs.elim
  | copyFails _ hstatus =>
      refine backs_failure ?_ _ _
      omega
  | addFails => exact backs_failure (by decide) _ _
  | @addLocalFile expectedHash data written id bs _ _ _ hrun =>
      exact addLocalFile_has h.running.consistent hrun
  | releaseOther => exact backs_failure (by decide) _ _
  | @holdTake id actualHash hstage =>
      rw [hstage] at hs
      exact Server.Has.mono hs (sameAddresses_take id _)
  | @hold id actualHash hstage =>
      rw [hstage] at hs
      have hne : 200 ≠ 204 := by decide
      refine ⟨hne, fun _ => ⟨id, actualHash, rfl, hs, .inl ?_⟩⟩
      exact ⟨_, List.mem_append_right _ (List.mem_singleton_self _), rfl, le_rfl⟩
  | _ => trivial

theorem Accounted.durable (h : Accounted H s lost) (hs : s.Promises s.stage) : Durable H s := by
  intro reply hstage hstatus htime
  rw [hstage] at hs
  obtain ⟨h204, hsuccess⟩ := hs
  obtain ⟨id, hash, hhash, ⟨file, hfile, haddr⟩, hheld⟩ := hsuccess (hstatus.resolve_right h204)
  refine ⟨hash, hhash, ?_⟩
  suffices hthere : hash ∈ s.rest.store.files from
    ⟨hthere, h.running.consistent.stored hash hthere⟩
  rcases hheld with ⟨ref, href, rfl, -⟩ | hover
  · -- the reference of the holder keeps the file in the map
    have hmem : ref.obj ∈ (s.usage lost).held := by
      have hin : ref.obj ∈ inHolder s.heldRefs :=
        Multiset.mem_coe.mpr (List.mem_map_of_mem href)
      simp [Server.usage, hin]
    obtain ⟨file', hfile', -, hentry⟩ := h.running.consistent.exists_file hmem
    cases hfile.symm.trans hfile'
    rw [← haddr]
    exact Finmap.mem_of_lookup_eq_some hentry
  · exact absurd htime (not_le.mpr hover)

/-- An upload of a blob that is not there when the handler looks for it is durable. -/
theorem upload_durable (h : Run (Opened H) (Step H c .ofMissing) past s) :
    Durable H s := by
  have hinv : (∃ lost, Accounted H s lost) ∧ s.Promises s.stage := by
    refine h.invariant (I := fun s => (∃ lost, Accounted H s lost) ∧ s.Promises s.stage) ?_ ?_
    · intro s hs
      obtain ⟨request, hstage⟩ := hs.stage
      refine ⟨⟨0, opened_accounted hs⟩, ?_⟩
      rw [hstage]
      trivial
    · rintro s t ⟨⟨lost, hs⟩, hpromises⟩ hstep
      obtain ⟨lost', hlost', -⟩ := hstep.accounted hs
      exact ⟨⟨lost', hlost'⟩, hstep.promises hs hpromises⟩
  obtain ⟨⟨lost, hlost⟩, hpromises⟩ := hinv
  exact hlost.durable hpromises

theorem upload_durable_hello : ∃ past s,
    Run (Opened helloHash) (Step helloHash hundredMB .ofMissing) past s ∧
      s.stage = .answered ⟨200, some helloAddr, 0⟩ ∧ s.rest.clock = fiveMinutes ∧
      Durable helloHash s := by
  have hhash : BlobRequest.expectedHash ⟨"/grits/v1/blob/".toList, 5⟩ = none := by decide +kernel
  have hrefusal : refusal hundredMB ⟨"/grits/v1/blob/".toList, 5⟩ false = none := by
    decide +kernel
  have h₀ := @Run.start Server (Opened helloHash) (Step helloHash hundredMB .ofMissing) _
    (opened_emptyServer helloHash "/grits/v1/blob/".toList)
  have h₁ := h₀.step (.unnamed rfl hrefusal hhash)
  have h₂ := h₁.step
    (@Step.copy helloHash hundredMB .ofMissing _ none helloData rfl (by decide +kernel))
  have h₃ := h₂.step (@Step.addLocalFile helloHash hundredMB .ofMissing _ none helloData 0 _ _
    trivial rfl (fun _ hnone => nomatch hnone) rfl)
  have h₄ := h₃.step (.holdTake rfl)
  have h₅ := h₄.step (.hold rfl)
  have h₆ := h₅.step (.rest (@BlobStore.Step.tick helloHash _ fiveMinutes (by decide +kernel)))
  exact ⟨_, _, h₆, rfl, rfl, upload_durable h₆⟩

def helloPath : GoString :=
  "/grits/v1/blob/QmRN6wdp1S2A5EtjW9A3M1vKSBuQQGcgvuhoMUoEz4iiT5".toList

/-- A blob without references whose time is over is acknowledged, and deleted by the
release that follows the check. -/
theorem upload_deletes_existing : ∃ past s,
    Run (Opened helloHash) (Step helloHash hundredMB .any) past s ∧
      s.stage = .answered ⟨204, some helloAddr, 11⟩ ∧ s.rest.clock = 11 ∧
      helloAddr ∉ s.rest.store.files ∧ ¬ Durable helloHash s := by
  have hhash : BlobRequest.expectedHash ⟨helloPath, 5⟩ = some helloAddr := by decide +kernel
  have hrefusal : refusal hundredMB ⟨helloPath, 5⟩ false = none := by decide +kernel
  have h₀ := @Run.start Server (Opened helloHash) (Step helloHash hundredMB .any) _
    (opened_emptyServer helloHash helloPath)
  have h₁ := h₀.step (.rest (@BlobStore.Step.addDataBlock helloHash _ helloData _ _ rfl))
  have h₂ := h₁.step (.rest (@BlobStore.Step.touch helloHash _ 0 10 (by decide +kernel)))
  have h₃ := h₂.step (.rest (@BlobStore.Step.release helloHash _ 0 _ (by decide +kernel) rfl))
  have h₄ := h₃.step (.rest (@BlobStore.Step.tick helloHash _ 11 (by decide +kernel)))
  have h₅ := h₄.step (.readFile trivial rfl hrefusal hhash rfl)
  have h₆ := h₅.step (.alreadyExists rfl rfl)
  refine ⟨_, _, h₆, rfl, rfl, by decide +kernel, fun hdurable => ?_⟩
  obtain ⟨addr, haddr, hthere, -⟩ := hdurable _ rfl (.inr rfl) (by decide +kernel)
  cases haddr
  exact absurd hthere (by decide +kernel)

end Upload

end Grits
