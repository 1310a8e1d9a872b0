import Grits.Library.Runs
import Grits.NameStore.NodeCleanup
import Grits.NameStore.Volume

/-!
# Nodes in use and cleanups

Runs of a name store with either reference manager, in which nodes are loaded,
taken, released and cleaned up.  The sparse manager drops a node whose time is
over even if it was taken again since it was dropped.
-/

namespace Grits

open Prog Runs

/-- A name store with the references to nodes that are held. -/
structure ManagedStore where
  ns : NameStore
  holders : Multiset BlobAddr

/-- The steps of its users, and of the reference manager. -/
inductive ManagedStep (E : Env) (timeout : ℤ) : ManagedStore → ManagedStore → Prop
  | load {v : ManagedStore} {addr : BlobAddr} {r : Except Halt Unit} {t : NameStore}
      (hrun : loadFileNode E addr v.ns = (r, t)) : ManagedStep E timeout v { v with ns := t }
  | take {v : ManagedStore} {addr : BlobAddr} {r : Except Halt Unit} {t : NameStore}
      (hcached : Cached v.ns addr) (hrun : takeNode addr v.ns = (r, t)) :
      ManagedStep E timeout v ⟨t, addr ::ₘ v.holders⟩
  | exportedBlob {v : ManagedStore} {addr : BlobAddr} {r : Except Halt Unit} {t : NameStore}
      (hcached : Cached v.ns addr) (hrun : Grits.exportedBlob addr v.ns = (r, t)) :
      ManagedStep E timeout v { v with ns := t }
  | release {v : ManagedStore} {addr : BlobAddr} {r : Except Halt Unit} {t : NameStore}
      (hheld : addr ∈ v.holders) (hrun : releaseNode E addr v.ns = (r, t)) :
      ManagedStep E timeout v ⟨t, v.holders.erase addr⟩
  /-- The other users of the blob store leave alone what the nodes have taken. -/
  | blobs {v : ManagedStore} {blobs : Finmap fun _ : BlobAddr => LocalCachedFile}
      (hserves : ∀ blob, (loadedTotal v.ns blob : ℤ) ≤ (blobs.lookup blob).elim 0 (·.refCount)) :
      ManagedStep E timeout v { v with ns := { v.ns with blobStore := blobs } }
  /-- The clock is read by somebody else. -/
  | tick {v : ManagedStore} :
      ManagedStep E timeout v { v with ns := { v.ns with ticks := v.ns.ticks + 1 } }
  | cleanup {v : ManagedStore} {r : Except Halt Unit} {t : NameStore}
      (hrun : managerCleanup E timeout v.ns = (r, t)) : ManagedStep E timeout v { v with ns := t }

/-- Where the sparse manager cleans up, no node whose time is over was taken again. -/
def CleansUnheld (E : Env) (timeout : ℤ) (v : ManagedStore) : Prop :=
  E.sparse = true → DropsUnheld timeout (E.clock v.ns.ticks) v.ns

/-- A step that is no cleanup of a node taken again. -/
def UnheldStep (E : Env) (timeout : ℤ) (v w : ManagedStore) : Prop :=
  ManagedStep E timeout v w ∧
    ((∃ r t, managerCleanup E timeout v.ns = (r, t) ∧ w = { v with ns := t }) →
      CleansUnheld E timeout v)

/-- A name store as it is made, or a dense one that has been in use. -/
inductive Created (E : Env) : ManagedStore → Prop
  | empty {blobs : Finmap fun _ : BlobAddr => LocalCachedFile} {s : NameStore}
      (hblobs : ProperBlobs E.toEncoding blobs) (hrun : emptyNameStore E blobs = (.ok (), s)) :
      Created E ⟨s, 0⟩
  | used {holders : Multiset BlobAddr} {s : NameStore} (hdense : E.sparse = false)
      (hs : Reachable E holders s) : Created E ⟨s, holders⟩

/-- What holding a node is for. -/
structure Pinned (v : ManagedStore) : Prop where
  /-- A node that is held is in the cache. -/
  held : ∀ addr ∈ v.holders, ∃ node, v.ns.fileCache.lookup addr = some node ∧ 0 < node.refCount
  /-- What a cached node has taken is in the blob store. -/
  blobs : ∀ addr node, v.ns.fileCache.lookup addr = some node → Stored v.ns addr ∧
    ∀ blob, node.blob = some blob → Stored v.ns blob

variable {E : Env} {timeout : ℤ} {v w : ManagedStore} {past : List ManagedStore}
  {holders : Multiset BlobAddr} {s : NameStore}

theorem stored_of_blobCount_pos {blob : BlobAddr} (h : 0 < blobCount s blob) : Stored s blob := by
  rw [blobCount] at h
  cases hfile : s.blobStore.lookup blob with
  | none =>
      rw [hfile] at h
      cases h
  | some file => exact ⟨file, hfile⟩

theorem Backed.pinned (h : Backed v.holders v.ns) : Pinned v where
  held := fun _ => h.cached
  blobs := by
    intro addr node hnode
    have hrefs := h.loadedRefs_le hnode
    refine ⟨stored_of_blobCount_pos ?_, fun blob hblob => stored_of_blobCount_pos ?_⟩
    · have := hrefs addr
      rw [loadedRefs, if_pos rfl] at this
      push_cast at this
      omega
    · have := hrefs blob
      rw [loadedRefs, hblob, if_pos rfl (c := some blob = some blob)] at this
      push_cast at this
      split at this <;> omega

/-! ## Where runs start -/

theorem Inv.backed (h : Inv E.toEncoding holders s) : Backed holders s where
  counted := by
    intro blob
    have hcount := h.sound.counted blob
    rw [Multiset.count_zero, add_zero] at hcount
    refine le_trans ?_ hcount
    -- a dense node has taken its content
    have hsame : loadedTotal s blob = cacheRefs s blob := by
      unfold loadedTotal cacheRefs FinmapSum.total
      refine Finset.sum_congr rfl fun addr _ => ?_
      cases hnode : s.fileCache.lookup addr with
      | none => rfl
      | some node =>
          change loadedRefs blob addr node = nodeRefs blob addr node
          rw [loadedRefs, nodeRefs, (h.sound.nodes addr node hnode).blob]
          simp only [Option.some.injEq]
    rw [hsame]
  blobs := by
    intro addr node hnode blob hblob
    rw [(h.sound.nodes addr node hnode).blob] at hblob
    exact (Option.some.inj hblob).symm
  held := by
    intro addr
    have houtside := h.outside addr
    unfold Grits.outside tracked at houtside
    rw [← houtside]
    by_cases hmem : addr ∈ s.refCount
    · rw [if_pos hmem, if_pos (Option.isSome_iff_exists.mpr (Finmap.mem_iff.mp hmem))]
      omega
    · rw [if_neg hmem, Finmap.lookup_eq_none.mpr hmem]
      simp

theorem emptyNameStore_backed {blobs : Finmap fun _ : BlobAddr => LocalCachedFile}
    (hblobs : ProperBlobs E.toEncoding blobs) (hrun : emptyNameStore E blobs = (.ok (), s)) :
    Backed 0 s := by
  cases hsparse : E.sparse with
  | false => exact (emptyNameStore_inv hsparse hblobs hrun).1.backed
  | true =>
      let start : NameStore := ⟨blobs, [], 1, ∅, ∅, ∅, [], 0⟩
      have hstart : Backed 0 start := by
        refine ⟨fun blob => ?_, fun addr node hnode => ?_, fun addr => rfl⟩
        · have htotal : loadedTotal start blob = 0 := FinmapSum.total_empty _
          rw [htotal, blobCount]
          change (0 : ℤ) ≤ (blobs.lookup blob).elim 0 (·.refCount)
          cases hfile : blobs.lookup blob with
          | none => exact le_rfl
          | some file => exact (hblobs blob file hfile).2
        · rw [Finmap.lookup_empty] at hnode
          cases hnode
      have hcreate : wp (createTreeNode E ∅) (post (fun _ t => Backed 0 t) (fun _ => True)) start := by
        unfold createTreeNode
        refine wp_post_bind (addDataBlock_moved _ start) ?_ (fun _ _ => trivial)
        rintro content t ⟨rfl, ht⟩
        rw [wp_consult_bind]
        refine wp_post_bind (addDataBlock_moved _ _) ?_ (fun _ _ => trivial)
        rintro addr u ⟨rfl, hu⟩
        have hmoved := (ht.trans (⟨⟨_, _, rfl⟩, fun blob => (add_zero _).symm⟩ : Moved 0 t
          { t with ticks := t.ticks + 1 })).trans hu
        have hnone : ∀ addr, u.fileCache.lookup addr = none := by
          intro addr
          rw [hmoved.1.fileCache]
          exact Finmap.lookup_empty _
        rw [wp_get_bind, hnone]
        simp only
        refine hstart.insertFresh (Finmap.lookup_empty _) ⟨hmoved.1, fun blob => ?_⟩ ?_ rfl
        · rw [hmoved.2]
          simp only [loadedRefs, Pi.add_apply, Pi.single_apply, Option.some.injEq,
            eq_comm (a := blob), add_zero]
          push_cast
          ring
        · rintro blob hblob
          exact (Option.some.inj hblob).symm
      have hspec : wp (do
          let root ← createTreeNode E ∅
          recursiveTake E (some root)
          Prog.modify fun s => { s with serialNumber := 0, rootAddr := root } : Op Unit)
          (post (fun _ t => Backed 0 t) (fun _ => True)) start := by
        refine wp_post_bind hcreate ?_ (fun _ _ => trivial)
        intro root t ht
        have htake : recursiveTake E (some root) = pure () := by
          rw [recursiveTake, if_pos hsparse]
        rw [htake]
        exact ⟨ht.counted, ht.blobs, ht.held⟩
      rw [emptyNameStore] at hrun
      exact wp_of_run hspec hrun

theorem Created.backed (h : Created E v) : Backed v.holders v.ns := by
  cases h with
  | empty hblobs hrun => exact emptyNameStore_backed hblobs hrun
  | used hdense hs => exact (hs.inv hdense).backed

/-! ## Every run -/

theorem Backed.step (h : Backed v.holders v.ns) (hstep : UnheldStep E timeout v w) :
    Backed w.holders w.ns := by
  obtain ⟨hstep, hunheld⟩ := hstep
  cases hstep with
  | @load addr r t hrun =>
      have hspec := wp_of_run (loadFileNode_backed h addr) hrun
      rcases r with (_ | _ | _ | _) | _
      · exact hspec
      · exact hspec.elim
      · exact hspec.elim
      · exact hspec.elim
      · exact hspec
  | @take addr r t hcached hrun =>
      have hspec := wp_of_run (takeNode_backed h hcached) hrun
      rcases r with (_ | _ | _ | _) | _
      · exact hspec.elim
      · exact hspec.elim
      · exact hspec.elim
      · exact hspec.elim
      · exact hspec
  | @exportedBlob addr r t hcached hrun =>
      have hspec := wp_of_run (exportedBlob_backed h hcached) hrun
      rcases r with (_ | _ | _ | _) | _
      · exact hspec
      · exact hspec.elim
      · exact hspec.elim
      · exact hspec.elim
      · exact hspec
  | @release addr r t hheld hrun =>
      have hback : Backed (addr ::ₘ v.holders.erase addr) v.ns := by
        rwa [Multiset.cons_erase hheld]
      have hspec := wp_of_run (releaseNode_backed hback) hrun
      rcases r with (_ | _ | _ | _) | _
      · exact hspec.elim
      · exact hspec.elim
      · exact hspec.elim
      · exact hspec.elim
      · exact hspec
  | blobs hserves => exact ⟨hserves, h.blobs, h.held⟩
  | tick => exact ⟨h.counted, h.blobs, h.held⟩
  | @cleanup r t hrun =>
      have hspec := wp_of_run (managerCleanup_backed h (hunheld ⟨r, t, hrun, rfl⟩)) hrun
      rcases r with (_ | _ | _ | _) | _
      · exact hspec.elim
      · exact hspec.elim
      · exact hspec.elim
      · exact hspec.elim
      · exact hspec.1

/-- While no node whose time is over is taken again before the sparse manager cleans up,
nodes in use stay in the cache with their blobs, and a cleanup gives back exactly what the
nodes it drops had taken. -/
theorem cleanup_keeps_held (h : Run (Created E) (UnheldStep E timeout) past v) :
    Pinned v ∧ ∀ r t, CleansUnheld E timeout v → managerCleanup E timeout v.ns = (r, t) →
      r = .ok () ∧ Dropped v.ns t := by
  have hbacked : Backed v.holders v.ns :=
    h.invariant (I := fun v => Backed v.holders v.ns) (fun _ => Created.backed)
      (fun _ _ => Backed.step)
  refine ⟨hbacked.pinned, fun r t hunheld hrun => ?_⟩
  have hspec := wp_of_run (managerCleanup_backed hbacked hunheld) hrun
  rcases r with (_ | _ | _ | _) | _
  · exact hspec.elim
  · exact hspec.elim
  · exact hspec.elim
  · exact hspec.elim
  · exact ⟨rfl, hspec.2⟩

/-! ### Two runs -/

/-- Before anything was dropped there is nothing to clean up. -/
theorem UnheldStep.of_no_drops (hstep : ManagedStep E timeout v w)
    (hnone : v.ns.nodeDropTimes = ∅) : UnheldStep E timeout v w := by
  refine ⟨hstep, fun _ _ addr dropTime node hdrop => ?_⟩
  rw [hnone, Finmap.lookup_empty] at hdrop
  cases hdrop

/-- A sparse cleanup with one drop time. -/
theorem sparseCleanup_single {addr : BlobAddr} (h : s.nodeDropTimes.keys = {addr}) :
    sparseCleanup E timeout s =
      (sparseCleanupAt E timeout (E.clock s.ticks) addr >>= fun _ => pure ())
        { s with ticks := s.ticks + 1 + 1 } := by
  have horder : E.cacheOrder (s.ticks + 1) s.nodeDropTimes.keys = [addr] := by
    have hcoe := E.coe_cacheOrder (s.ticks + 1) s.nodeDropTimes.keys
    rw [h, Finset.singleton_val, Multiset.coe_eq_singleton] at hcoe
    rw [h, hcoe]
  unfold sparseCleanup
  rw [bind_run (consult_run _ s), bind_run (get_run _), bind_run (consult_run _ _)]
  change Prog.loop _ () (E.cacheOrder (s.ticks + 1) s.nodeDropTimes.keys) _ = _
  rw [horder]
  rfl

/-- Only a cached node is taken. -/
theorem cached_of_takeNode {addr : BlobAddr} {t : NameStore}
    (hrun : takeNode addr s = (.ok (), t)) : Cached s addr := by
  cases hnode : s.fileCache.lookup addr with
  | some node => exact ⟨node, hnode⟩
  | none =>
      have hget : getNode addr s = (.error (.dangling addr), s) := by
        unfold getNode
        rw [bind_run (get_run s), hnode]
        rfl
      unfold takeNode at hrun
      rw [bind_run_error hget] at hrun
      cases hrun

namespace Table

/-- The small blobs under a sparse name store whose clock goes in steps of 100. -/
def sparseEnv : Env := { smallEnv with sparse := true, clock := fun tick => 100 * tick }

/-- A sparse name store over the small blobs. -/
def sparseStore : NameStore := (emptyNameStore sparseEnv (blobStore smallTable)).2

/-- The file is loaded, taken, released, and taken again. -/
def sparseLoaded : NameStore := (loadFileNode sparseEnv smallFile sparseStore).2

def sparseHeld : NameStore := (takeNode smallFile sparseLoaded).2

def sparseReleased : NameStore := (releaseNode sparseEnv smallFile sparseHeld).2

def sparseTakenAgain : NameStore := (takeNode smallFile sparseReleased).2

/-- None of the calls fails. -/
theorem sparse_returned :
    (emptyNameStore sparseEnv (blobStore smallTable)).1 = .ok () ∧
    (loadFileNode sparseEnv smallFile sparseStore).1 = .ok () ∧
    (takeNode smallFile sparseLoaded).1 = .ok () ∧
    (releaseNode sparseEnv smallFile sparseHeld).1 = .ok () ∧
    (takeNode smallFile sparseReleased).1 = .ok () := by decide +kernel

theorem created_sparseStore : Created sparseEnv ⟨sparseStore, 0⟩ :=
  .empty (properBlobs proper_smallTable) (Prod.ext sparse_returned.1 rfl)

theorem load_sparseStore : loadFileNode sparseEnv smallFile sparseStore = (.ok (), sparseLoaded) :=
  run_eq sparse_returned.2.1

theorem take_sparseLoaded : takeNode smallFile sparseLoaded = (.ok (), sparseHeld) :=
  run_eq sparse_returned.2.2.1

theorem release_sparseHeld : releaseNode sparseEnv smallFile sparseHeld = (.ok (), sparseReleased) :=
  run_eq sparse_returned.2.2.2.1

theorem take_sparseReleased : takeNode smallFile sparseReleased = (.ok (), sparseTakenAgain) :=
  run_eq sparse_returned.2.2.2.2

theorem cleanup_sparseTakenAgain :
    (managerCleanup sparseEnv 10 sparseTakenAgain).2.fileCache.lookup smallFile = none := by
  have hkeys : sparseTakenAgain.nodeDropTimes.keys = {smallFile} := by decide +kernel
  have hsparse : managerCleanup sparseEnv 10 = sparseCleanup sparseEnv 10 := if_pos rfl
  rw [hsparse, sparseCleanup_single hkeys]
  decide +kernel

end Table

theorem cleanup_keeps_held_file :
    ∃ past v, Run (Created Table.sparseEnv) (UnheldStep Table.sparseEnv 10) past v ∧
      Table.smallFile ∈ v.holders ∧ (Pinned v ∧ ∀ r t, CleansUnheld Table.sparseEnv 10 v →
        managerCleanup Table.sparseEnv 10 v.ns = (r, t) → r = .ok () ∧ Dropped v.ns t) := by
  have hstart : Run (Created Table.sparseEnv) (UnheldStep Table.sparseEnv 10) [] _ :=
    .start Table.created_sparseStore
  have hloaded := hstart.step
    (.of_no_drops (.load Table.load_sparseStore) (by decide +kernel))
  have hheld := hloaded.step
    (.of_no_drops (.take (cached_of_takeNode Table.take_sparseLoaded) Table.take_sparseLoaded)
      (by decide +kernel))
  have hmem : Table.smallFile ∈ Table.smallFile ::ₘ (0 : Multiset BlobAddr) :=
    Multiset.mem_cons_self _ _
  exact ⟨_, _, hheld, hmem, cleanup_keeps_held hheld⟩

/-- A node is dropped although it is held. -/
theorem cleanup_drops_held :
    ∃ E timeout past v, Run (Created E) (ManagedStep E timeout) past v ∧
      ∃ addr ∈ v.holders, (managerCleanup E timeout v.ns).2.fileCache.lookup addr = none := by
  have hstart : Run (Created Table.sparseEnv) (ManagedStep Table.sparseEnv 10) [] _ :=
    .start Table.created_sparseStore
  have hloaded := hstart.step (.load Table.load_sparseStore)
  have hheld := hloaded.step (.take (cached_of_takeNode Table.take_sparseLoaded) Table.take_sparseLoaded)
  have hmem : ∀ holders : Multiset BlobAddr, Table.smallFile ∈ Table.smallFile ::ₘ holders :=
    fun holders => Multiset.mem_cons_self _ holders
  have hreleased := hheld.step (.release (hmem 0) Table.release_sparseHeld)
  have hagain := hreleased.step (.take
    (cached_of_takeNode Table.take_sparseReleased) Table.take_sparseReleased)
  exact ⟨_, _, _, _, hagain, Table.smallFile,
    hmem ((Table.smallFile ::ₘ 0).erase Table.smallFile), Table.cleanup_sparseTakenAgain⟩

end Grits
