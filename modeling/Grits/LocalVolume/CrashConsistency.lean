import Grits.LocalVolume.Checkpoint

/-!
# What a stopped volume leaves behind

As long as cleanups wait until the root of the volume is the stored one, every
blob below the stored root is in the blob store, and the volume can be opened
again from it.
-/

namespace Grits

open Prog Runs RefCount

variable {E : Env} {v w : LocalVolume} {past : List LocalVolume} {s t : NameStore}

/-- Every blob of the tree is in the blob store. -/
def TreeStored (E : Encoding) (s : NameStore) (root : BlobAddr) : Prop :=
  ∀ path addr, E.walk (some root) path = some addr →
    Stored s addr ∧ ∀ metadata, E.MetadataAt addr metadata → Stored s metadata.contentHash

/-- A volume that is stopped now can be opened again. -/
structure CrashSafe (E : Env) (v : LocalVolume) : Prop where
  /-- The blobs below the stored root are there. -/
  stored : ∀ state, v.file = some state → TreeStored E.toEncoding v.ns state.rootAddr
  /-- Over a blob store with these blobs, the volume is opened with the stored root. -/
  opens : ∀ state, v.file = some state → ∀ blobs, ProperBlobs E.toEncoding blobs →
    (∀ blob, Stored v.ns blob → blobs.lookup blob ≠ none) →
      ∃ t, newLocalVolume E blobs v.file = (.ok (), t) ∧ t.pair = state.pair

/-- The root a call of `save` has read. -/
def SaveCall.root : SaveCall → Option BlobAddr
  | .called _ => none
  | .locked _ => none
  | .rootRead _ root => some root
  | .stateRead _ state => some state.rootAddr
  | .written _ state => some state.rootAddr
  | .saved _ => none

/-- The root is stored, or some `save` is about to store it. -/
inductive LocalVolume.Stores (v : LocalVolume) : BlobAddr → Prop
  | file {state : RootState} (h : v.file = some state) : v.Stores state.rootAddr
  | call {id : ℕ} {call : SaveCall} {root : BlobAddr} (h : v.calls id = some call)
      (hroot : call.root = some root) : v.Stores root

/-- The step is a cleanup. -/
def Cleans (E : Env) (v w : LocalVolume) : Prop :=
  ∃ r t, Grits.cleanup E v.ns = (r, t) ∧ w = { v with ns := t }

/-- A step in which no cleanup runs while a root that is stored, or about to be, is not
the root of the name store. -/
def CarefulStep (E : Env) (v w : LocalVolume) : Prop :=
  VolumeStep E v w ∧ (Cleans E v w → ∀ root, v.Stores root → root = v.ns.rootAddr)

/-! ## Opening a volume -/

theorem emptyNameStore_ok (hdense : E.sparse = false)
    {blobs : Finmap fun _ : BlobAddr => LocalCachedFile} (hblobs : ProperBlobs E.toEncoding blobs) :
    ∃ s, emptyNameStore E blobs = (.ok (), s) ∧
      ∀ blob, blobs.lookup blob ≠ none → Stored s blob := by
  let start : NameStore := ⟨blobs, [], 1, ∅, ∅, ∅, [], 0⟩
  have hstart : Sound E.toEncoding 0 start := sound_fresh hblobs
  have hempty : ∀ name addr, (∅ : Children).lookup name = some addr → addr = [] ∨ IsCid addr := by
    rintro name addr ⟨⟩
  have hspec : wp (do
      let root ← createTreeNode E ∅
      recursiveTake E (some root)
      Prog.modify fun s => { s with serialNumber := 0, rootAddr := root } : Op Unit)
      (post (fun _ t => ∀ blob, Stored start blob → Stored t blob) (fun _ => False)) start := by
    refine wp_post_bind (createTreeNode_ok_spec hstart hempty) ?_ (fun _ h => h)
    rintro root t ⟨⟨ht, hcached, hnew⟩, hgrows⟩
    have hdir : E.DirAt root ∅ := hnew.dirAt (by rintro name addr ⟨⟩)
    have hload : Loadable E.toEncoding t root :=
      (linking_loadable hdense).newDir hcached hdir (by rintro name child ⟨⟩)
    have hrefs : Represents t.refCount 0 := by
      rw [ht.quiet.refCount]
      exact represents_empty
    have houtside : ∀ addr, 0 ≤ outside t addr := by
      intro addr
      rw [ht.quiet.managed.outside]
      exact le_rfl
    have htake : wp (recursiveTake E (some root)) (post (fun _ u => Grows t u) (fun _ => False)) t := by
      rw [← ends_const]
      exact wp_ends_mono (recursiveTake_ends hdense (linking_loadable hdense).toLoading houtside
        ht.sound hrefs Counted.zero (fun _ h => absurd rfl h) hcached hload) (fun _ _ h => h.2)
        (fun _ _ h => h.2)
    refine wp_post_bind htake ?_ (fun _ h => h)
    intro _ u htu blob hblob
    exact htu.stored blob (hgrows.stored blob hblob)
  obtain ⟨_, t, hrun, ht⟩ := exists_run_of_wp hspec
  refine ⟨t, hrun, fun blob hblob => ht blob ?_⟩
  obtain ⟨file, hfile⟩ := Option.ne_none_iff_exists'.mp hblob
  exact ⟨file, hfile⟩

/-- A loaded tree can be opened from its blobs. -/
theorem opens_of_heldTree (hdense : E.sparse = false)
    {held : Multiset BlobAddr} (hs : Sound E.toEncoding held s) {state : RootState}
    (hheld : HeldTree E.toEncoding s state.rootAddr)
    {blobs : Finmap fun _ : BlobAddr => LocalCachedFile} (hblobs : ProperBlobs E.toEncoding blobs)
    (hstored : ∀ blob, Stored s blob → blobs.lookup blob ≠ none) :
    ∃ t, newLocalVolume E blobs (some state) = (.ok (), t) ∧ t.pair = state.pair := by
  obtain ⟨u, hempty, hu⟩ := emptyNameStore_ok hdense hblobs
  have hinv := (emptyNameStore_inv hdense hblobs hempty).1
  have hload : Loadable E.toEncoding u state.rootAddr := by
    intro path addr hwalk
    have hready := hheld path addr hwalk
    obtain ⟨node, hnode⟩ := hready.cached
    have hok := hs.nodes addr node hnode
    have hnodeStored := hs.stored hnode
    refine ⟨.inr ⟨node.metadata, hok.metadata, hok.type, ?_, ?_⟩, hready.available.readable⟩
    · exact hu _ (hstored _ hnodeStored.1)
    · exact hu _ (hstored _ hnodeStored.2)
  obtain ⟨_, t, hrun, hroot, hserial⟩ := exists_run_of_wp
    (deserializeNameStore_ok hdense hinv hload state.serialNumber)
  refine ⟨t, ?_, ?_⟩
  · rw [newLocalVolume, hempty]
    exact hrun
  · rw [NameStore.pair, RootState.pair, hroot, hserial]

theorem treeStored_of_heldTree {E : Encoding} {held : Multiset BlobAddr} (hs : Sound E held s)
    {root : BlobAddr} (hheld : HeldTree E s root) : TreeStored E s root := by
  intro path addr hwalk
  obtain ⟨node, hnode⟩ := (hheld path addr hwalk).cached
  obtain ⟨hstored, hcontent⟩ := hs.stored hnode
  refine ⟨hstored, fun metadata hmetadata => ?_⟩
  rw [hmetadata.unique (hs.nodes addr node hnode).metadata]
  exact hcontent

/-! ## The invariant -/

/-- The trees that are stored, or about to be, are loaded. -/
structure KeepsStored (E : Env) (v : LocalVolume) : Prop where
  accounts : ∃ extra, Accounts E.toEncoding extra v.holders v.ns
  exclusive : Exclusive v
  temp : ∀ id own state, v.calls id = some (.written own state) → v.tempFile = some state
  held : ∀ root, v.Stores root → HeldTree E.toEncoding v.ns root

theorem HeldTree.keepsReady {E : Encoding} {root : BlobAddr} (h : HeldTree E s root)
    (hst : KeepsReady E s t) : HeldTree E t root :=
  fun path addr hwalk => hst addr (h path addr hwalk)

theorem LocalVolume.Stores.of_eq {root : BlobAddr} (h : w.Stores root) (hfile : w.file = v.file)
    (hcalls : w.calls = v.calls) : v.Stores root := by
  cases h with
  | file hstate =>
      rw [hfile] at hstate
      exact .file hstate
  | call hcall hroot =>
      rw [hcalls] at hcall
      exact .call hcall hroot

/-- The roots stored after one call went on. -/
theorem stores_goOn {id : ℕ} {call : Option SaveCall} {root : BlobAddr}
    (h : (v.goOn id call).Stores root) :
    (∃ state, v.file = some state ∧ root = state.rootAddr) ∨ (call.bind SaveCall.root = some root) ∨
      v.Stores root := by
  cases h with
  | file hfile => exact .inl ⟨_, hfile, rfl⟩
  | @call other c _ hcall hroot =>
      by_cases hother : other = id
      · subst hother
        rw [goOn_calls_self] at hcall
        rw [hcall]
        exact .inr (.inl hroot)
      · rw [goOn_calls_of_ne v hother] at hcall
        exact .inr (.inr (.call hcall hroot))

/-- A call that goes on with the root it had, or with none, stores no other root. -/
theorem stores_of_goOn {u : LocalVolume} {id : ℕ} {call : SaveCall} {next : Option SaveCall}
    {root : BlobAddr} (h : (u.goOn id next).Stores root) (hcall : v.calls id = some call)
    (hnext : next.bind SaveCall.root = call.root ∨ next.bind SaveCall.root = none)
    (hfile : u.file = v.file) (hcalls : u.calls = v.calls) : v.Stores root := by
  rcases stores_goOn h with ⟨state, hstate, rfl⟩ | hroot | hu
  · rw [hfile] at hstate
    exact .file hstate
  · rcases hnext with hnext | hnext
    · rw [hnext] at hroot
      exact .call hcall hroot
    · rw [hnext] at hroot
      cases hroot
  · exact hu.of_eq hfile hcalls

/-- Every root stored after a step was stored before it, or is the root of the name store. -/
theorem VolumeStep.stores (hstep : VolumeStep E v w)
    (htemp : ∀ id own state, v.calls id = some (.written own state) → v.tempFile = some state)
    {root : BlobAddr} (h : w.Stores root) :
    v.Stores root ∨ (root = v.ns.rootAddr ∧ w.ns = v.ns) := by
  cases hstep with
  | link hidle hH hrun =>
      rcases stores_goOn h with ⟨state, hstate, rfl⟩ | hroot | hu
      · exact .inl (.file hstate)
      · cases hroot
      · exact .inl (hu.of_eq rfl rfl)
  | checkpoint hidle =>
      rcases stores_goOn h with ⟨state, hstate, rfl⟩ | hroot | hu
      · exact .inl (.file hstate)
      · cases hroot
      · exact .inl hu
  | linkFailed hH hrun => exact .inl (h.of_eq rfl rfl)
  | serve hserved => exact .inl (h.of_eq rfl rfl)
  | cleanup hrun => exact .inl (h.of_eq rfl rfl)
  | lock hcall hfree => exact .inl (stores_of_goOn h hcall (.inr rfl) rfl rfl)
  | getRoot hcall =>
      rcases stores_goOn h with ⟨state, hstate, rfl⟩ | hroot | hu
      · exact .inl (.file hstate)
      · exact .inr ⟨(Option.some.inj hroot).symm, rfl⟩
      · exact .inl hu
  | getSerialNumber hcall => exact .inl (stores_of_goOn h hcall (.inl rfl) rfl rfl)
  | writeFile hcall => exact .inl (stores_of_goOn h hcall (.inl rfl) rfl rfl)
  | writeFileFailed hcall => exact .inl (stores_of_goOn h hcall (.inr rfl) rfl rfl)
  | @rename id own state hcall =>
      -- the file is now the temporary one, whose root the call had read
      have hstored : ∀ state', v.tempFile = some state' → v.Stores state'.rootAddr := by
        intro state' hstate'
        rw [htemp id own state hcall] at hstate'
        cases hstate'
        exact .call hcall rfl
      rcases stores_goOn h with ⟨state', hstate', rfl⟩ | hroot | hu
      · exact .inl (hstored state' hstate')
      · cases hroot
      · cases hu with
        | file hstate' => exact .inl (hstored _ hstate')
        | call hother hroot => exact .inl (.call hother hroot)
  | renameFailed hcall => exact .inl (stores_of_goOn h hcall (.inr rfl) rfl rfl)
  | returned hcall => exact .inl (stores_of_goOn h hcall (.inr rfl) rfl rfl)

/-- The temporary file is that of the call that wrote it. -/
theorem VolumeStep.temp (hexclusive : Exclusive v) (hstep : VolumeStep E v w)
    (h : ∀ id own state, v.calls id = some (.written own state) → v.tempFile = some state) :
    ∀ id own state, w.calls id = some (.written own state) → w.tempFile = some state := by
  have hgoOn : ∀ {u : LocalVolume} {id : ℕ} {next : Option SaveCall},
      (∀ own state, next = some (.written own state) → u.tempFile = some state) →
      (∀ other own state, other ≠ id → v.calls other = some (.written own state) →
        u.tempFile = some state) → u.calls = v.calls →
      ∀ other own state, (u.goOn id next).calls other = some (.written own state) →
        (u.goOn id next).tempFile = some state := by
    intro u id next hnext hothers hcalls other own state hcall
    by_cases hother : other = id
    · subst hother
      rw [goOn_calls_self] at hcall
      exact hnext own state hcall
    · rw [goOn_calls_of_ne u hother, hcalls] at hcall
      exact hothers other own state hother hcall
  -- the call that makes the step is inside `save`, so no other is
  have hinside : ∀ {u : LocalVolume} {id : ℕ} {call : SaveCall}, v.calls id = some call →
      call.Holds → ∀ other own state, other ≠ id → v.calls other = some (.written own state) →
        u.tempFile = some state := by
    intro u id call hcall hholds other own state hne hother
    exact absurd trivial (hexclusive.not_holds hcall hholds hne hother)
  cases hstep with
  | link hidle hH hrun =>
      exact hgoOn (u := { v with ns := _ }) (fun _ _ h => by cases h)
        (fun other own state _ => h other own state) rfl
  | linkFailed hH hrun => exact h
  | serve hserved => exact h
  | cleanup hrun => exact h
  | checkpoint hidle =>
      exact hgoOn (fun _ _ h => by cases h) (fun other own state _ => h other own state) rfl
  | lock hcall hfree =>
      exact hgoOn (u := { v with persistMtx := _ }) (fun _ _ h => by cases h)
        (fun other own state _ => h other own state) rfl
  | getRoot hcall =>
      exact hgoOn (fun _ _ h => by cases h) (fun other own state _ => h other own state) rfl
  | getSerialNumber hcall =>
      exact hgoOn (fun _ _ h => by cases h) (fun other own state _ => h other own state) rfl
  | writeFile hcall =>
      refine hgoOn (u := { v with tempFile := _ }) ?_ (hinside hcall trivial) rfl
      rintro _ _ ⟨⟩
      rfl
  | writeFileFailed hcall =>
      exact hgoOn (u := { v with tempFile := _, persistMtx := _ }) (fun _ _ h => by cases h)
        (hinside hcall trivial) rfl
  | rename hcall =>
      exact hgoOn (u := { v with file := _, tempFile := _, persistMtx := _ })
        (fun _ _ h => by cases h) (hinside hcall trivial) rfl
  | renameFailed hcall =>
      exact hgoOn (u := { v with persistMtx := _ }) (fun _ _ h => by cases h)
        (hinside hcall trivial) rfl
  | returned hcall =>
      exact hgoOn (fun _ _ h => by cases h) (fun other own state _ => h other own state) rfl

/-- In a careful step the loaded trees that are stored stay loaded. -/
theorem CarefulStep.held (hdense : E.sparse = false) (h : KeepsStored E v)
    (hstep : CarefulStep E v w) {root : BlobAddr} (hstores : v.Stores root) :
    HeldTree E.toEncoding w.ns root := by
  obtain ⟨extra, haccounts⟩ := h.accounts
  have hheld := h.held root hstores
  obtain ⟨hstep, hcareful⟩ := hstep
  cases hstep with
  | link hidle hH hrun =>
      obtain ⟨⟨newRoot, hcommitted⟩, -⟩ := wp_of_run (haccounts.multiLink_spec hdense hH _ _ _) hrun
      exact hheld.keepsReady hcommitted.ready
  | linkFailed hH hrun =>
      have hkept := wp_of_run (haccounts.multiLink_spec hdense hH _ _ _) hrun
      exact hheld.quiet hkept.quiet
  | serve hserved => exact hheld.keepsReady (haccounts.served hdense hserved).2.ready
  | @cleanup t r hrun =>
      -- the root is that of the name store, whose tree a cleanup keeps
      have hroot := hcareful ⟨r, t, hrun, rfl⟩ root hstores
      have hcleaned := wp_of_run haccounts.cleanup_spec hrun
      rcases r with (_ | _ | _ | _) | _
      · exact hcleaned.elim
      · exact hcleaned.elim
      · exact hcleaned.elim
      · exact hcleaned.elim
      · rw [hroot, ← hcleaned.rootAddr]
        exact hcleaned.accounts.heldTree
  | checkpoint hidle => exact hheld
  | lock hcall hfree => exact hheld
  | getRoot hcall => exact hheld
  | getSerialNumber hcall => exact hheld
  | writeFile hcall => exact hheld
  | writeFileFailed hcall => exact hheld
  | rename hcall => exact hheld
  | renameFailed hcall => exact hheld
  | returned hcall => exact hheld

theorem KeepsStored.step (hdense : E.sparse = false) (h : KeepsStored E v)
    (hstep : CarefulStep E v w) : KeepsStored E w := by
  obtain ⟨extra, haccounts⟩ := h.accounts
  refine ⟨⟨extra, (haccounts.volumeStep hdense hstep.1).1⟩, h.exclusive.volumeStep hstep.1,
    hstep.1.temp h.exclusive h.temp, fun root hstores => ?_⟩
  rcases hstep.1.stores h.temp hstores with hstores | ⟨rfl, hns⟩
  · exact hstep.held hdense h hstores
  · rw [hns]
    exact haccounts.heldTree

theorem opened_keepsStored (hdense : E.sparse = false) (h : Opened E v) : KeepsStored E v := by
  obtain ⟨blobs, hblobs, hrun⟩ := h.store
  obtain ⟨⟨extra, haccounts⟩, hfile⟩ := newLocalVolume_spec hdense hblobs hrun
  refine ⟨⟨extra, ?_⟩, ?_, ?_, ?_⟩
  · rw [h.holders]
    exact haccounts
  · intro id call hcall
    rw [h.calls] at hcall
    cases hcall
  · intro id own state hcall
    rw [h.calls] at hcall
    cases hcall
  · intro root hstores
    cases hstores with
    | file hstate =>
        rw [← (hfile _ hstate).1]
        exact haccounts.heldTree
    | call hcall hroot =>
        rw [h.calls] at hcall
        cases hcall

theorem keepsStored_of_run (hdense : E.sparse = false)
    (h : Run (Opened E) (CarefulStep E) past v) : KeepsStored E v :=
  h.invariant (fun _ => opened_keepsStored hdense) (fun _ _ => KeepsStored.step hdense)

/-- While cleanups wait for the root to be stored, the process can be stopped at any
time. -/
theorem crash_consistent (hdense : E.sparse = false)
    (h : Run (Opened E) (CarefulStep E) past v) : CrashSafe E v := by
  have hkeeps := keepsStored_of_run hdense h
  obtain ⟨extra, haccounts⟩ := hkeeps.accounts
  constructor
  · intro state hstate
    exact treeStored_of_heldTree haccounts.sound (hkeeps.held _ (.file hstate))
  · intro state hstate blobs hblobs hstored
    rw [hstate]
    exact opens_of_heldTree hdense haccounts.sound (hkeeps.held _ (.file hstate)) hblobs hstored

theorem crash_consistent_saved :
    ∃ past v, Run (Opened Table.smallEnv) (CarefulStep Table.smallEnv) past v ∧
      v.file.map RootState.pair = some (Table.smallDirectory, 1) ∧ CrashSafe Table.smallEnv v := by
  have hopened := Table.opened_openedVolume Table.proper_smallTable (by decide +kernel)
  have hstart : Run (Opened Table.smallEnv) (CarefulStep Table.smallEnv) []
      (Table.openedVolume Table.proper_smallTable) := .start hopened
  have hpair : Table.smallVolume.pair = (Table.smallDirectory, 1) := by decide +kernel
  -- nothing is stored yet when the link runs, and a step of its `save` is no cleanup
  have hlink : ∀ w, VolumeStep Table.smallEnv (Table.openedVolume Table.proper_smallTable) w →
      w.ns = Table.smallVolume →
      CarefulStep Table.smallEnv (Table.openedVolume Table.proper_smallTable) w := by
    refine fun w hstep _ => ⟨hstep, fun _ root hstores => ?_⟩
    cases hstores with
    | file hfile => cases hfile
    | call hcall => cases hcall
  have hsave : ∀ v w, VolumeStep Table.smallEnv v w → w.ns = v.ns → w.calls ≠ v.calls →
      CarefulStep Table.smallEnv v w := by
    rintro v w hstep - hcalls
    refine ⟨hstep, ?_⟩
    rintro ⟨r, t, hrun, rfl⟩
    exact absurd rfl hcalls
  obtain ⟨past, v, hrun, hfile, -⟩ := save_of_link hstart (hopened.calls 0) hopened.persistMtx
    (Hooks.none_readOnly _) Table.link_smallVolume hlink hsave
  refine ⟨past, v, hrun, ?_, crash_consistent rfl hrun⟩
  have hmap : ∀ s : NameStore, Option.map RootState.pair
      (some ⟨s.rootAddr, s.serialNumber, []⟩) = some s.pair := fun _ => rfl
  rw [hfile, hmap, hpair]

/-- A link commits after its predecessor was saved, and a cleanup comes before its `save`. -/
theorem lost_of_cleanup {H : Hooks} {requests : List LinkRequest} {own : Option (BlobAddr × ℤ)}
    {response : Option LookupResponse} {lastModified : GoString}
    (h : Run (Opened E) (VolumeStep E) past v) (hsaved : v.calls 0 = some (.saved own))
    (hns : v.ns = s) (hfile : v.file = some ⟨s.rootAddr, s.serialNumber, lastModified⟩)
    (hH : H.ReadOnly E.toEncoding)
    (hlink : multiLink E H requests false .backend s = (.ok response, t))
    (hlost : (cleanup E t).2.blobStore.lookup s.rootAddr = none) :
    ∃ past w, Run (Opened E) (VolumeStep E) past w ∧ ¬ CrashSafe E w := by
  subst hns
  have hreturned := h.step (.returned hsaved)
  have hlinked := hreturned.step
    (@VolumeStep.link _ _ _ 0 _ _ _ _ _ (goOn_calls_self _ 0 _) hH hlink)
  have hcleaned := hlinked.step (@VolumeStep.cleanup _ _ (cleanup E t).2 (cleanup E t).1 rfl)
  refine ⟨_, _, hcleaned, fun hsafe => ?_⟩
  obtain ⟨file, hstored⟩ := (hsafe.stored _ hfile [] v.ns.rootAddr rfl).1
  have hnone : (cleanup E t).2.blobStore.lookup v.ns.rootAddr = some file := hstored
  rw [hlost] at hnone
  cases hnone

namespace Table

/-- The cleanup of a volume whose cached nodes are known. -/
theorem cleanup_env {table : List KnownBlob} (h : Proper table) {addrs : List BlobAddr}
    (hsorted : addrs.Pairwise (· ≤ ·)) (hnodup : addrs.Nodup)
    (hkeys : addrs.toFinset = s.fileCache.keys) :
    cleanup (env table h) s = Prog.loop (fun _ addr => cleanupAt (env table h) addr) () addrs
      { s with ticks := s.ticks + 1 } := by
  have horder : (env table h).cacheOrder s.ticks s.fileCache.keys = addrs := by
    rw [← hkeys]
    exact (List.toFinset_sort (· ≤ ·) hnodup).mpr hsorted
  unfold cleanup
  rw [bind_run (get_run _), bind_run (consult_run _ s), horder]

/-- The small volume after its entry `a` was unlinked. -/
def unlinkedVolume : NameStore := (link proper_smallTable [⟨['a'], [], [], 0⟩] smallVolume).2

/-- The nodes in the cache of this volume. -/
def smallNodes : List BlobAddr :=
  [smallFile, "QmZ4KUwK6CkEiGa6skJmQ1EaLPzwZffTjeRCUDSJGtiV8J".toList, smallDirectory]

theorem unlink_smallVolume :
    multiLink smallEnv Hooks.none [⟨['a'], [], [], 0⟩] false .backend smallVolume =
      (.ok none, unlinkedVolume) := by
  have hresult : (link proper_smallTable [⟨['a'], [], [], 0⟩] smallVolume).1 = .ok none := by
    decide +kernel
  exact run_eq hresult

theorem cleanup_unlinkedVolume :
    (cleanup smallEnv unlinkedVolume).2.blobStore.lookup smallVolume.rootAddr = none := by
  have hsorted : smallNodes.Pairwise (· ≤ ·) := by decide +kernel
  have hnodup : smallNodes.Nodup := by decide +kernel
  have hkeys : smallNodes.toFinset = unlinkedVolume.fileCache.keys := by decide +kernel
  rw [cleanup_env proper_smallTable hsorted hnodup hkeys]
  decide +kernel

end Table

theorem crash_loses_root :
    ∃ E past v, E.sparse = false ∧ Run (Opened E) (VolumeStep E) past v ∧ ¬ CrashSafe E v := by
  have hopened := Table.opened_openedVolume Table.proper_smallTable (by decide +kernel)
  have hstart : Run (Opened Table.smallEnv) (VolumeStep Table.smallEnv) []
      (Table.openedVolume Table.proper_smallTable) := .start hopened
  obtain ⟨past, v, hrun, hfile, hsaved, hns, -⟩ := save_of_link hstart (hopened.calls 0)
    hopened.persistMtx (Hooks.none_readOnly _) Table.link_smallVolume (fun _ hstep _ => hstep)
    (fun _ _ hstep _ _ => hstep)
  obtain ⟨past, w, hrun, hunsafe⟩ := lost_of_cleanup hrun hsaved hns hfile (Hooks.none_readOnly _)
    Table.unlink_smallVolume Table.cleanup_unlinkedVolume
  exact ⟨Table.smallEnv, past, w, rfl, hrun, hunsafe⟩

end Grits
