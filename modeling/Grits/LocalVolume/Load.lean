import Grits.NameStore.Progress
import Grits.NameStore.Reachable

/-!
# Loading a volume

`DeserializeNameStore` of `internal/grits/namestore.go`, which puts a stored root
into a fresh name store.  The old root is not released there: its tree stays
counted.
-/

namespace Grits

open Prog RefCount

variable {E : Env} {extra holders : Multiset BlobAddr} {s t : NameStore}

/-- `RootState`: what a volume stores of its name store. -/
structure RootState where
  rootAddr : BlobAddr
  serialNumber : ℤ
  lastModified : GoString
  deriving DecidableEq

/-- `ValidateContentExists`: the nodes of the cache without their content. -/
def validateContentExists (E : Env) : Op (List BlobAddr) := do
  let s ← Prog.get
  let addrs ← consult fun tick => E.cacheOrder tick s.fileCache.keys
  Prog.loop (fun broken addr => do
    match ← tryErr (exportedBlob addr) with
    | .ok _ => pure broken
    | .error _ => pure (broken ++ [addr])) [] addrs

/-- The check in `DeserializeNameStore`: a dense store whose content is incomplete ends
the process. -/
def checkContent (E : Env) : Op Unit :=
  if E.sparse then pure ()
  else do
    match ← validateContentExists E with
    | [] => pure ()
    | broken :: _ => Prog.stop (.crash (.blobMissing broken))

/-- `NameStore.DeserializeNameStore`. -/
def deserializeNameStore (E : Env) (rootAddr : BlobAddr) (serialNumber : ℤ) : Op Unit := do
  loadFileNode E rootAddr
  recursiveTake E (some rootAddr)
  checkContent E
  Prog.modify fun s => { s with rootAddr := rootAddr, serialNumber := serialNumber }

/-- `LocalVolume.load`, where `file` is what the file of the volume says. -/
def load (E : Env) : Option RootState → Op Unit
  | none => pure ()
  | some state => deserializeNameStore E state.rootAddr state.serialNumber

/-- `NewLocalVolume` of a persistent volume. -/
def newLocalVolume (E : Env) (blobs : Finmap fun _ : BlobAddr => LocalCachedFile)
    (file : Option RootState) : Except Halt Unit × NameStore :=
  match emptyNameStore E blobs with
  | (.ok (), s) => load E file s
  | (.error halt, s) => (.error halt, s)

/-! ## Its specification -/

/-- In a dense store every cached node has its content. -/
theorem validateContentExists_spec (hs : Sound E.toEncoding 0 s) :
    wp (validateContentExists E) (post (fun broken t => broken = [] ∧ Kept E.toEncoding 0 s t)
      (fun _ => False)) s := by
  have htick : Kept E.toEncoding 0 s { s with ticks := s.ticks + 1 } :=
    ⟨hs.tick _, { Quiet.refl s with }⟩
  unfold validateContentExists
  rw [wp_get_bind, wp_consult_bind]
  refine wp_post_loop_const ⟨rfl, htick⟩ ?_
  rintro addr hmem broken t ⟨rfl, ht⟩
  have hcached : Cached t addr := by
    have hkey : addr ∈ s.fileCache.keys := by
      rw [← Finset.mem_val, ← E.coe_cacheOrder s.ticks s.fileCache.keys]
      exact hmem
    obtain ⟨node, hnode⟩ := Finmap.mem_iff.mp (Finmap.mem_keys.mp hkey)
    exact Cached.kept ⟨node, hnode⟩ ht
  have hexport := tryErr_run (exportedBlob_cached ht.sound hcached)
  rw [wp, bind_run hexport]
  exact ⟨rfl, ht⟩

theorem checkContent_spec (hdense : E.sparse = false) (hs : Sound E.toEncoding 0 s) :
    wp (checkContent E) (post (fun _ t => Kept E.toEncoding 0 s t) (fun _ => False)) s := by
  rw [checkContent, if_neg (by simp [hdense])]
  refine wp_post_bind (validateContentExists_spec hs) ?_ (fun _ h => h)
  rintro _ t ⟨rfl, ht⟩
  exact ht

/-- The end of `DeserializeNameStore`, once the tree is taken. -/
theorem deserialize_tail_spec (hdense : E.sparse = false) {rootAddr : BlobAddr} (serialNumber : ℤ)
    (h : Accounts E.toEncoding extra holders s) (ht : Sound E.toEncoding 0 t) (hst : Managed s t)
    (hcounted : ∃ count, Represents t.refCount count ∧
      Counted E.references count (rootAddr ::ₘ s.rootAddr ::ₘ extra) ∧
      AllReady E.toEncoding t count) :
    wp (do
      checkContent E
      Prog.modify fun s => { s with rootAddr := rootAddr, serialNumber := serialNumber } : Op Unit)
    (post (fun _ u => Accounts E.toEncoding (s.rootAddr ::ₘ extra) holders u ∧
      u.rootAddr = rootAddr ∧ u.serialNumber = serialNumber) (fun _ => False)) t := by
  refine wp_post_bind (checkContent_spec hdense ht) ?_ (fun _ h => h)
  intro _ u htu
  obtain ⟨count, hrefs, hcounted, hready⟩ := hcounted
  refine ⟨⟨{ htu.sound with }, ⟨count, ?_, hcounted, ?_⟩, ?_⟩, rfl, rfl⟩
  · change Represents u.refCount count
    rwa [htu.quiet.refCount]
  · have hu : AllReady E.toEncoding u count := hready.managed htu.quiet.managed
    exact hu
  · intro addr
    change outside u addr = _
    rw [htu.quiet.managed.outside, hst.outside, h.outside]

theorem deserializeNameStore_spec (hdense : E.sparse = false)
    (h : Accounts E.toEncoding extra holders s) (rootAddr : BlobAddr) (serialNumber : ℤ) :
    wp (deserializeNameStore E rootAddr serialNumber)
      (post (fun _ t => Accounts E.toEncoding (s.rootAddr ::ₘ extra) holders t ∧
        t.rootAddr = rootAddr ∧ t.serialNumber = serialNumber) (Kept E.toEncoding 0 s)) s := by
  unfold deserializeNameStore
  refine wp_post_bind (loadFileNode_spec h.sound hdense rootAddr) ?_ (fun _ h => h)
  rintro _ t ⟨hst, hcached⟩
  have ht := h.kept hst
  obtain ⟨count, hrefs, hcounted, hready⟩ := ht.counted
  refine wp_post_bind (recursiveTake_spec hdense ht.outside_nonneg ht.sound hrefs hcounted hready
    hcached) ?_ (fun _ htu => hst.trans htu)
  rintro _ u ⟨hu, htu, hcounted⟩
  rw [← hst.quiet.rootAddr]
  exact wp_post_mono (deserialize_tail_spec hdense serialNumber ht hu htu hcounted) (fun _ _ h => h)
    (fun _ h => h.elim)

/-- A tree whose nodes can all be loaded is loaded. -/
theorem deserializeNameStore_ok (hdense : E.sparse = false) (h : Inv E.toEncoding holders s)
    {rootAddr : BlobAddr} (hload : Loadable E.toEncoding s rootAddr) (serialNumber : ℤ) :
    wp (deserializeNameStore E rootAddr serialNumber)
      (post (fun _ t => t.rootAddr = rootAddr ∧ t.serialNumber = serialNumber)
        (fun _ => False)) s := by
  unfold deserializeNameStore
  refine wp_post_bind (loadFileNode_ok_spec h.sound hdense (hload [] rootAddr rfl)) ?_
    (fun _ h => h)
  rintro _ t ⟨⟨hst, hcached⟩, hgrows⟩
  have ht := h.kept hst
  refine wp_post_bind (recursiveTake_ok hdense ht hcached (hload.grows hgrows)) ?_ (fun _ h => h)
  rintro _ u ⟨hu, htu, hcounted⟩
  exact wp_post_mono (deserialize_tail_spec hdense serialNumber (inv_iff_accounts.mp ht) hu htu
    hcounted) (fun _ _ h => h.2) (fun _ h => h)

/-- What `load` makes of a fresh name store. -/
theorem load_spec (hdense : E.sparse = false) (h : Inv E.toEncoding 0 s) (file : Option RootState) :
    wp (load E file) (post (fun _ t => ∃ extra, Accounts E.toEncoding extra 0 t ∧
      ∀ state, file = some state →
        t.rootAddr = state.rootAddr ∧ t.serialNumber = state.serialNumber)
      (fun _ => True)) s := by
  cases file with
  | none => exact ⟨0, inv_iff_accounts.mp h, fun _ h => by cases h⟩
  | some state =>
      refine wp_post_mono (deserializeNameStore_spec hdense (inv_iff_accounts.mp h) state.rootAddr
        state.serialNumber) ?_ (fun _ _ => trivial)
      rintro _ t ⟨ht, hroot, hserial⟩
      refine ⟨_, ht, ?_⟩
      rintro _ ⟨⟩
      exact ⟨hroot, hserial⟩

/-- A volume that was opened. -/
theorem newLocalVolume_spec (hdense : E.sparse = false)
    {blobs : Finmap fun _ : BlobAddr => LocalCachedFile} (hblobs : ProperBlobs E.toEncoding blobs)
    {file : Option RootState} (hrun : newLocalVolume E blobs file = (.ok (), t)) :
    (∃ extra, Accounts E.toEncoding extra 0 t) ∧ ∀ state, file = some state →
      t.rootAddr = state.rootAddr ∧ t.serialNumber = state.serialNumber := by
  rw [newLocalVolume] at hrun
  rcases hempty : emptyNameStore E blobs with ⟨_ | _, s⟩
  · rw [hempty] at hrun
    cases hrun
  · rw [hempty] at hrun
    have hinv := (emptyNameStore_inv hdense hblobs hempty).1
    obtain ⟨extra, haccounts, hfile⟩ := wp_of_run (load_spec hdense hinv file) hrun
    exact ⟨⟨extra, haccounts⟩, hfile⟩

end Grits
