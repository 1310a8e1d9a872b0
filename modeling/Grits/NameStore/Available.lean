import Grits.NameStore.StateSpec

/-!
# Blobs and nodes that are there

Reading loses nothing, and where the blobs of a node are stored, loading the
node and reading its children succeed.
-/

namespace Grits

open Prog

variable {E : Env} {held : Multiset BlobAddr} {s t u : NameStore}

/-! ## Blobs and nodes that stay -/

/-- The blob is in the store. -/
def Stored (s : NameStore) (blob : BlobAddr) : Prop := ∃ file, s.blobStore.lookup blob = some file

/-- No blob and no cached node of `s` is missing in `t`. -/
structure Grows (s t : NameStore) : Prop where
  stored : ∀ blob, Stored s blob → Stored t blob
  cached : ∀ addr, Cached s addr → Cached t addr

theorem Grows.refl (s : NameStore) : Grows s s := ⟨fun _ h => h, fun _ h => h⟩

theorem Grows.trans (h : Grows s t) (h' : Grows t u) : Grows s u where
  stored := fun blob hblob => h'.stored blob (h.stored blob hblob)
  cached := fun addr haddr => h'.cached addr (h.cached addr haddr)

/-- A fact about the final state, whichever way the call ends, is a fact about
the state it returns in. -/
theorem wp_post_and {σ α : Type} {m : Prog σ Halt α} {P : α → σ → Prop} {Q R : σ → Prop} {x : σ}
    (h : wp m (post P Q) x) (hR : wp m (fun _ y => R y) x) :
    wp m (post (fun a y => P a y ∧ R y) Q) x :=
  wp_mono (wp_and h hR) fun _ _ hpost => hpost.1.imp (fun _ hP => ⟨hP, hpost.2⟩) (fun hQ => hQ)

/-- Turn a specification that allows errors into one that does not. -/
theorem wp_post_of_run {α : Type} {m : Op α} {P : α → NameStore → Prop} {Q : NameStore → Prop}
    {R : NameStore → Prop} (h : wp m (post P Q) s) (hrun : ∃ a t, m s = (.ok a, t) ∧ R t) :
    wp m (post (fun a t => P a t ∧ R t) (fun _ => False)) s := by
  obtain ⟨a, t, hrun, hR⟩ := hrun
  rw [wp, hrun] at h ⊢
  exact ⟨h, hR⟩

theorem exists_run_of_wp {α : Type} {m : Op α} {P : α → NameStore → Prop}
    (h : wp m (post P (fun _ => False)) s) : ∃ a t, m s = (.ok a, t) ∧ P a t := by
  rw [wp] at h
  rcases hrun : m s with ⟨(_ | _ | _ | _) | a, t⟩
  · rw [hrun] at h
    exact h.elim
  · rw [hrun] at h
    exact h.elim
  · rw [hrun] at h
    exact h.elim
  · rw [hrun] at h
    exact h.elim
  · rw [hrun] at h
    exact ⟨a, t, rfl, h⟩

/-- The blobs of a cached node are in the store. -/
theorem Sound.stored {E : Encoding} (hs : Sound E held s) {addr : BlobAddr} {node : FileNode}
    (hnode : s.fileCache.lookup addr = some node) :
    Stored s addr ∧ Stored s node.metadata.contentHash := by
  refine ⟨?_, hs.exists_content hnode⟩
  have hle := FinmapSum.le_total (nodeRefs addr) hnode
  have hpos : 0 < cacheRefs s addr + held.count addr := by
    refine Nat.add_pos_left (lt_of_lt_of_le ?_ hle) _
    rw [nodeRefs, if_pos rfl]
    omega
  obtain ⟨file, hfile, -⟩ := hs.exists_blob hpos
  exact ⟨file, hfile⟩

theorem grows_insertBlob (s : NameStore) (addr : BlobAddr) (file : LocalCachedFile) :
    Grows s { s with blobStore := s.blobStore.insert addr file } where
  stored := by
    intro blob hblob
    by_cases h : blob = addr
    · subst h
      exact ⟨file, Finmap.lookup_insert _⟩
    · obtain ⟨other, hother⟩ := hblob
      exact ⟨other, (Finmap.lookup_insert_of_ne _ h).trans hother⟩
  cached := fun _ h => h

theorem grows_setNode (s : NameStore) (addr : BlobAddr) (node : FileNode) (ticks : ℕ) :
    Grows s { s with fileCache := s.fileCache.insert addr node, ticks := ticks } where
  stored := fun _ h => h
  cached := by
    intro other hother
    by_cases h : other = addr
    · subst h
      exact ⟨node, Finmap.lookup_insert _⟩
    · obtain ⟨node', hnode'⟩ := hother
      exact ⟨node', (Finmap.lookup_insert_of_ne _ h).trans hnode'⟩

theorem readFile_run {addr : BlobAddr} {file : LocalCachedFile}
    (hfile : s.blobStore.lookup addr = some file) :
    readFile addr s = (.ok file.data, { s with
      blobStore := s.blobStore.insert addr { file with refCount := file.refCount + 1 } }) := by
  unfold readFile
  rw [bind_run (get_run s), hfile]
  rfl

/-! ## Available nodes -/

/-- The node at `addr` can be loaded, and read if it is a directory. -/
structure Available (E : Encoding) (s : NameStore) (addr : BlobAddr) : Prop where
  loadable : Cached s addr ∨ ∃ metadata, E.MetadataAt addr metadata ∧
    (metadata.type = .file ∨ metadata.type = .directory) ∧ Stored s addr ∧
    Stored s metadata.contentHash
  readable : E.IsDir addr → ∃ children, E.DirAt addr children

theorem Available.grows {E : Encoding} {addr : BlobAddr} (h : Available E s addr)
    (hgrows : Grows s t) : Available E t addr where
  loadable := by
    rcases h.loadable with hcached | ⟨metadata, hmetadata, htype, hstored, hcontent⟩
    · exact .inl (hgrows.cached addr hcached)
    · exact .inr ⟨metadata, hmetadata, htype, hgrows.stored _ hstored, hgrows.stored _ hcontent⟩
  readable := h.readable

/-- Loading the node at `addr` succeeds. -/
def CanLoad (E : Encoding) (s : NameStore) (addr : BlobAddr) : Prop :=
  Cached s addr ∨ ∃ metadata, E.MetadataAt addr metadata ∧
    (metadata.type = .file ∨ metadata.type = .directory) ∧ Stored s addr ∧
    Stored s metadata.contentHash

theorem CanLoad.grows {E : Encoding} {addr : BlobAddr} (h : CanLoad E s addr)
    (hgrows : Grows s t) : CanLoad E t addr := by
  rcases h with hcached | ⟨metadata, hmetadata, htype, hstored, hcontent⟩
  · exact .inl (hgrows.cached addr hcached)
  · exact .inr ⟨metadata, hmetadata, htype, hgrows.stored _ hstored, hgrows.stored _ hcontent⟩

theorem loadFileNode_ok (hs : Sound E.toEncoding held s) (hdense : E.sparse = false)
    {addr : BlobAddr} (h : CanLoad E.toEncoding s addr) :
    ∃ a t, loadFileNode E addr s = (.ok a, t) ∧ Grows s t := by
  cases hnode : s.fileCache.lookup addr with
  | some node => exact ⟨(), s, loadFileNode_cached ⟨node, hnode⟩, .refl s⟩
  | none =>
      rcases h with ⟨node, hnode'⟩ | ⟨metadata, hmetadata, htype, ⟨file, hfile⟩, hcontent⟩
      · rw [hnode] at hnode'
        cases hnode'
      obtain ⟨data, hsum, hdata⟩ := hmetadata
      have hfileData : file.data = data :=
        E.sum_injective ((hs.hashed addr file hfile).trans hsum.symm)
      subst hfileData
      -- the metadata blob is read first, then the content
      let read : NameStore := { s with
        blobStore := s.blobStore.insert addr { file with refCount := file.refCount + 1 } }
      have hread : Grows s read := grows_insertBlob s addr _
      obtain ⟨content, hcontent⟩ := hread.stored _ hcontent
      let loaded : NameStore := { read with
        blobStore := read.blobStore.insert metadata.contentHash
          { content with refCount := content.refCount + 1 } }
      have hloaded : Grows s loaded := hread.trans (grows_insertBlob read metadata.contentHash _)
      have hblob : (do
          let _ ← readFile metadata.contentHash
          pure (some metadata.contentHash) : Op (Option BlobAddr)) read =
          (.ok (some metadata.contentHash), loaded) := by
        rw [bind_run (readFile_run hcontent)]
        rfl
      refine ⟨(), _, ?_, hloaded.trans (grows_setNode loaded addr
        ⟨metadata, some metadata.contentHash, none, 0⟩ loaded.ticks)⟩
      unfold loadFileNode actuallyLoadFileNode
      rw [bind_run (get_run s), hnode]
      simp only [hdense, Bool.false_eq_true, if_false]
      refine bind_run ?_
      rw [bind_run (readFile_run hfile), hdata]
      refine (bind_run (catching_run hblob)).trans ?_
      rcases htype with htype | htype
      · rw [htype]
        rfl
      · rw [htype]
        rfl

/-- Loading an available node. -/
theorem loadFileNode_ok_spec (hs : Sound E.toEncoding held s) (hdense : E.sparse = false)
    {addr : BlobAddr} (h : Available E.toEncoding s addr) :
    wp (loadFileNode E addr) (post
      (fun _ t => (Kept E.toEncoding held s t ∧ Cached t addr) ∧ Grows s t)
      (fun _ => False)) s :=
  wp_post_of_run (loadFileNode_spec hs hdense addr) (loadFileNode_ok hs hdense h.loadable)

theorem fillChildren_wellFormed {entries : List (Σ _ : GoString, BlobAddr)} {filled : Children}
    (h : ∀ entry ∈ entries, IsCid entry.2) : (fillChildren filled entries).2 = true := by
  induction entries generalizing filled with
  | nil => rfl
  | cons entry rest ih =>
      rw [fillChildren, if_pos (h entry List.mem_cons_self)]
      exact ih fun other hother => h other (List.mem_cons_of_mem _ hother)

theorem nodeChildren_ok (hs : Sound E.toEncoding held s) {addr : BlobAddr}
    (hcached : Cached s addr) (hdir : E.IsDir addr → ∃ children, E.DirAt addr children) :
    ∃ a t, nodeChildren E addr s = (.ok a, t) ∧ Grows s t := by
  by_cases hisDir : E.IsDir addr
  swap
  · exact ⟨none, s, nodeChildren_file hs hcached hisDir, .refl s⟩
  obtain ⟨node, hnode⟩ := hcached
  cases hmap : node.childrenMap with
  | some children =>
      exact ⟨some children, s, nodeChildren_read hs ⟨node, hnode, hmap⟩, .refl s⟩
  | none =>
      obtain ⟨children, metadata, hmetadata, -, data, hsum, hdata, hwf⟩ := hdir hisDir
      have hm : metadata = node.metadata := hmetadata.unique (hs.nodes addr node hnode).metadata
      subst hm
      have hfill : (fillChildren ∅ (E.childOrder s.ticks children)).2 = true := by
        refine fillChildren_wellFormed fun entry hentry => hwf entry.1 entry.2 ?_
        exact (mem_entries_iff (E.coe_childOrder s.ticks children)).mp hentry
      let filled := (fillChildren ∅ (E.childOrder s.ticks children)).1
      refine ⟨some filled, _, ?_,
        grows_setNode s addr { node with childrenMap := some filled } (s.ticks + 1)⟩
      have htree := treeChildren_fill hs hnode hmap ⟨data, hsum, hdata⟩
      rw [if_pos hfill] at htree
      unfold nodeChildren
      rw [bind_run (getNode_run hnode), if_pos ((hs.isDir_iff hnode).mp hisDir), bind_run htree]
      rfl

/-! ## Reading loses nothing -/

theorem readFile_grows (addr : BlobAddr) (s : NameStore) :
    wp (readFile addr) (fun _ t => Grows s t) s := by
  unfold readFile
  rw [wp_get_bind]
  split
  next => exact grows_insertBlob s addr _
  next => exact .refl s

/-- A call that only fails has not returned a value. -/
theorem wp_bind_fail {α β : Type} {m : Op α} {e : GoErr} {P : β → NameStore → Prop} :
    wp (m >>= fun _ => fail e) (fun r t => ∀ b, r = .ok b → P b t) s := by
  refine wp_bind (P := fun _ _ => True) trivial ?_ ?_
  · intro a t _ b hb
    cases hb
  · intro e t _ b hb
    cases hb

theorem actuallyLoadFileNode_grows (hdense : E.sparse = false) (addr : BlobAddr) (s : NameStore) :
    wp (actuallyLoadFileNode E addr) (fun r t => ∀ node, r = .ok node → Grows s t) s := by
  unfold actuallyLoadFileNode
  refine wp_bind (readFile_grows addr s) ?_ (fun _ _ _ _ => nofun)
  intro data t ht
  split
  next => exact wp_bind_fail
  next metadata _ =>
    simp only [hdense, Bool.false_eq_true, if_false]
    refine wp_bind (P := fun r u => ∀ blob, r = .ok blob → Grows s u) ?_ ?_ ?_
    · refine wp_catching (P := fun _ u => Grows s u) ?_ (fun _ _ h _ _ => h) ?_
      · refine wp_bind (readFile_grows _ t) ?_ (fun _ _ h => ht.trans h)
        exact fun _ _ h => ht.trans h
      · intro halt u _
        cases halt with
        | err e => exact wp_bind_fail
        | crash c => exact fun _ => nofun
        | dangling a => exact fun _ => nofun
        | outOfFuel => exact fun _ => nofun
    · intro blob u hu
      split
      next => exact fun _ _ => hu blob rfl
      next => exact fun _ _ => hu blob rfl
      next => exact wp_bind_fail
    · intro halt u _ node hnode
      cases hnode

/-- Loading a node loses nothing, if it succeeds. -/
theorem loadFileNode_grows (hdense : E.sparse = false) (addr : BlobAddr) (s : NameStore) :
    wp (loadFileNode E addr) (fun r t => ∀ a, r = .ok a → Grows s t) s := by
  unfold loadFileNode
  rw [wp_get_bind]
  split
  next => exact fun _ _ => .refl s
  next =>
    refine wp_bind (actuallyLoadFileNode_grows hdense addr s) ?_ (fun _ _ _ _ => nofun)
    intro node t ht _ _
    exact (ht node rfl).trans (grows_setNode t addr node t.ticks)

theorem getNode_unchanged (addr : BlobAddr) (s : NameStore) :
    wp (getNode addr) (fun _ t => t = s) s := by
  unfold getNode
  rw [wp_get_bind]
  split <;> rfl

theorem readAll_unchanged (addr : BlobAddr) (s : NameStore) :
    wp (readAll addr) (fun _ t => t = s) s := by
  unfold readAll
  rw [wp_get_bind]
  split <;> rfl

theorem exportedBlob_grows (addr : BlobAddr) (s : NameStore) :
    wp (exportedBlob addr) (fun _ t => Grows s t) s := by
  unfold exportedBlob
  refine wp_bind (getNode_unchanged addr s) ?_ (fun _ _ h => h ▸ .refl s)
  rintro node _ rfl
  split
  next => exact .refl _
  next =>
    refine wp_bind (readFile_grows _ _) ?_ (fun _ _ h => h)
    intro _ t ht
    exact ht.trans (grows_setNode t addr _ t.ticks)

/-- Reading children loses nothing. -/
theorem treeChildren_grows (addr : BlobAddr) (s : NameStore) :
    wp (treeChildren E addr) (fun _ t => Grows s t) s := by
  unfold treeChildren
  refine wp_bind (exportedBlob_grows addr s) ?_ (fun _ _ h => h)
  intro _ t ht
  refine wp_bind (getNode_unchanged addr t) ?_ (fun _ _ h => h ▸ ht)
  rintro node u rfl
  split
  next => exact ht
  next =>
    refine wp_bind (readAll_unchanged _ u) ?_ (fun _ _ h => h ▸ ht)
    rintro data v rfl
    split
    next => exact ht
    next dirMap _ =>
      rw [wp_consult_bind]
      have hset : ∀ filled ticks, Grows s { v with
          fileCache := v.fileCache.insert addr { node with childrenMap := some filled }
          ticks := ticks } := fun filled ticks => ht.trans (grows_setNode v addr _ ticks)
      simp only
      rw [setNode, wp_bind_run (modify_run _ _)]
      split
      next => exact hset _ _
      next => exact hset _ _

/-! ## Reading adds nothing -/

/-- What is stored in `t` was stored in `s`, and what is cached could be loaded. -/
structure Within (E : Encoding) (s t : NameStore) : Prop where
  stored : ∀ blob, Stored t blob → Stored s blob
  cached : ∀ addr, Cached t addr → CanLoad E s addr

theorem Within.refl (E : Encoding) (s : NameStore) : Within E s s :=
  ⟨fun _ h => h, fun _ h => .inl h⟩

theorem Within.canLoad {E : Encoding} (h : Within E s t) {addr : BlobAddr}
    (hload : CanLoad E t addr) : CanLoad E s addr := by
  rcases hload with hcached | ⟨metadata, hmetadata, htype, hstored, hcontent⟩
  · exact h.cached addr hcached
  · exact .inr ⟨metadata, hmetadata, htype, h.stored _ hstored, h.stored _ hcontent⟩

theorem Within.trans {E : Encoding} (h : Within E s t) (h' : Within E t u) : Within E s u where
  stored := fun blob hblob => h.stored blob (h'.stored blob hblob)
  cached := fun addr haddr => h.canLoad (h'.cached addr haddr)

/-- The nodes are the same and no blob is new. -/
def FewerBlobs (s t : NameStore) : Prop :=
  t.fileCache = s.fileCache ∧ ∀ blob, Stored t blob → Stored s blob

theorem FewerBlobs.trans (h : FewerBlobs s t) (h' : FewerBlobs t u) : FewerBlobs s u :=
  ⟨h'.1.trans h.1, fun blob hblob => h.2 blob (h'.2 blob hblob)⟩

theorem stored_of_insert {addr blob : BlobAddr} {file : LocalCachedFile} (haddr : Stored s addr)
    (h : Stored { s with blobStore := s.blobStore.insert addr file } blob) : Stored s blob := by
  by_cases hblob : blob = addr
  · rwa [hblob]
  · obtain ⟨other, hother⟩ := h
    exact ⟨other, (Finmap.lookup_insert_of_ne _ hblob).symm.trans hother⟩

theorem readFile_fewer (addr : BlobAddr) (s : NameStore) :
    wp (readFile addr) (fun r t => FewerBlobs s t ∧ ∀ data, r = .ok data →
      ∃ file, s.blobStore.lookup addr = some file ∧ file.data = data) s := by
  unfold readFile
  rw [wp_get_bind]
  split
  next file hfile =>
    refine ⟨⟨rfl, fun blob h => stored_of_insert ⟨file, hfile⟩ h⟩, ?_⟩
    rintro data ⟨⟩
    exact ⟨file, hfile, rfl⟩
  next => exact ⟨⟨rfl, fun _ h => h⟩, fun _ => nofun⟩

theorem releaseBlob_fewer (addr : BlobAddr) (s : NameStore) :
    wp (releaseBlob E addr) (fun _ t => FewerBlobs s t) s := by
  unfold releaseBlob
  rw [wp_get_bind]
  split
  next => exact ⟨rfl, fun _ h => h⟩
  next file hfile =>
    simp only
    split
    next => exact ⟨rfl, fun _ h => h⟩
    next =>
      split
      next => exact ⟨rfl, fun blob h => stored_of_insert ⟨file, hfile⟩ h⟩
      next =>
        rw [wp_consult_bind]
        split
        next =>
          refine ⟨rfl, ?_⟩
          rintro blob ⟨other, hother⟩
          by_cases hblob : blob = addr
          · exact ⟨file, hblob ▸ hfile⟩
          · exact ⟨other, (Finmap.lookup_erase_ne hblob).symm.trans hother⟩
        next => exact ⟨rfl, fun blob h => stored_of_insert ⟨file, hfile⟩ h⟩

theorem releaseBlob_fail_fewer {α : Type} (addr : BlobAddr) (e : GoErr) (s : NameStore) :
    wp (releaseBlob E addr >>= fun _ => fail e : Op α)
      (fun r t => FewerBlobs s t ∧ ∀ a, r ≠ .ok a) s := by
  refine wp_bind (releaseBlob_fewer addr s) ?_ ?_
  · exact fun _ t ht => ⟨ht, fun _ => nofun⟩
  · exact fun _ t ht => ⟨ht, fun _ => nofun⟩

theorem actuallyLoadFileNode_fewer (hs : Sound E.toEncoding held s) (hdense : E.sparse = false)
    (addr : BlobAddr) :
    wp (actuallyLoadFileNode E addr) (fun r t => FewerBlobs s t ∧ ∀ node, r = .ok node →
      CanLoad E.toEncoding s addr) s := by
  unfold actuallyLoadFileNode
  refine wp_bind (readFile_fewer addr s) ?_ (fun _ t ht => ⟨ht.1, fun _ => nofun⟩)
  rintro data t ⟨ht, hdata⟩
  obtain ⟨file, hfile, rfl⟩ := hdata data rfl
  split
  next =>
    refine wp_mono (releaseBlob_fail_fewer addr _ t) ?_
    exact fun r u hu => ⟨ht.trans hu.1, fun node hnode => absurd hnode (hu.2 node)⟩
  next metadata hmetadata =>
    simp only [hdense, Bool.false_eq_true, if_false]
    refine wp_bind (P := fun r u => FewerBlobs t u ∧ ∀ blob, r = .ok blob →
      Stored t metadata.contentHash) ?_ ?_ ?_
    · refine wp_catching (P := fun r u => FewerBlobs t u ∧ ∀ blob, r = .ok blob →
        Stored t metadata.contentHash) ?_ (fun _ _ h => h) ?_
      · refine wp_bind (readFile_fewer _ t) ?_ (fun _ _ h => ⟨h.1, fun _ => nofun⟩)
        rintro content u ⟨hu, hcontent⟩
        obtain ⟨other, hother, -⟩ := hcontent content rfl
        exact ⟨hu, fun _ _ => ⟨other, hother⟩⟩
      · rintro halt u ⟨hu, -⟩
        cases halt with
        | err e =>
            refine wp_mono (releaseBlob_fail_fewer addr _ u) ?_
            exact fun r v hv => ⟨hu.trans hv.1, fun blob hblob => absurd hblob (hv.2 blob)⟩
        | crash c => exact ⟨hu, fun _ => nofun⟩
        | dangling a => exact ⟨hu, fun _ => nofun⟩
        | outOfFuel => exact ⟨hu, fun _ => nofun⟩
    · rintro blob u ⟨hu, hcontent⟩
      have hload : ∀ type, metadata.type = type → type = .file ∨ type = .directory →
          CanLoad E.toEncoding s addr := by
        rintro type rfl htype
        exact .inr ⟨metadata, ⟨file.data, hs.hashed addr file hfile, hmetadata⟩, htype,
          ⟨file, hfile⟩, ht.2 _ (hcontent blob rfl)⟩
      split
      next htype => exact ⟨ht.trans hu, fun _ _ => hload _ htype (.inl rfl)⟩
      next htype => exact ⟨ht.trans hu, fun _ _ => hload _ htype (.inr rfl)⟩
      next =>
        refine wp_mono (releaseBlob_fail_fewer addr _ u) ?_
        exact fun r v hv => ⟨(ht.trans hu).trans hv.1, fun node hnode => absurd hnode (hv.2 node)⟩
    · rintro halt u ⟨hu, -⟩
      exact ⟨ht.trans hu, fun _ => nofun⟩

/-- A node that has been loaded could be loaded. -/
theorem loadFileNode_within (hs : Sound E.toEncoding held s) (hdense : E.sparse = false)
    (addr : BlobAddr) :
    wp (loadFileNode E addr) (fun _ t => Within E.toEncoding s t) s := by
  have hfewer : ∀ t, FewerBlobs s t → Within E.toEncoding s t := fun t ht =>
    ⟨ht.2, fun other hother => .inl (by rwa [Cached, ht.1] at hother)⟩
  unfold loadFileNode
  rw [wp_get_bind]
  split
  next => exact .refl _ s
  next =>
    refine wp_bind (actuallyLoadFileNode_fewer hs hdense addr) ?_ (fun _ t ht => hfewer t ht.1)
    rintro node t ⟨ht, hload⟩
    refine ⟨ht.2, ?_⟩
    rintro other ⟨node', hnode'⟩
    by_cases hother : other = addr
    · rw [hother]
      exact hload node rfl
    · refine (hfewer t ht).cached other ⟨node', ?_⟩
      exact (Finmap.lookup_insert_of_ne _ hother).symm.trans hnode'

theorem within_setNode {addr : BlobAddr} (hcached : Cached s addr) (node : FileNode) (ticks : ℕ) :
    Within E.toEncoding s
      { s with fileCache := s.fileCache.insert addr node, ticks := ticks } where
  stored := fun _ h => h
  cached := by
    rintro other ⟨node', hnode'⟩
    by_cases hother : other = addr
    · rw [hother]
      exact .inl hcached
    · exact .inl ⟨node', (Finmap.lookup_insert_of_ne _ hother).symm.trans hnode'⟩

/-- Reading the children of a cached node loads nothing. -/
theorem treeChildren_within (hs : Sound E.toEncoding held s) {addr : BlobAddr}
    (hcached : Cached s addr) :
    wp (treeChildren E addr) (fun _ t => Within E.toEncoding s t) s := by
  obtain ⟨node, hnode⟩ := id hcached
  unfold treeChildren
  rw [wp_bind_run (exportedBlob_cached hs hcached), wp_getNode_bind hnode]
  split
  next => exact .refl _ s
  next =>
    refine wp_bind (readAll_unchanged _ s) ?_ ?_
    swap
    · rintro halt t rfl
      exact .refl _ _
    rintro data t rfl
    split
    next => exact .refl _ _
    next dirMap _ =>
      rw [wp_consult_bind]
      simp only
      rw [setNode, wp_bind_run (modify_run _ _)]
      split
      next => exact within_setNode hcached _ _
      next => exact within_setNode hcached _ _

/-- The same nodes can be loaded, and nothing is lost. -/
structure Steady (E : Encoding) (s t : NameStore) : Prop where
  grows : Grows s t
  within : Within E s t

theorem Steady.refl (E : Encoding) (s : NameStore) : Steady E s s := ⟨.refl s, .refl E s⟩

theorem Steady.trans {E : Encoding} (h : Steady E s t) (h' : Steady E t u) : Steady E s u :=
  ⟨h.grows.trans h'.grows, h.within.trans h'.within⟩

theorem Steady.canLoad_iff {E : Encoding} (h : Steady E s t) {addr : BlobAddr} :
    CanLoad E t addr ↔ CanLoad E s addr :=
  ⟨h.within.canLoad, fun hload => hload.grows h.grows⟩

theorem takeNode_steady (hs : Sound E.toEncoding held s) {addr : BlobAddr}
    (hcached : Cached s addr) :
    wp (takeNode addr) (post
      (fun _ t => (Sound E.toEncoding held t ∧ Quiet (Pi.single addr 1) s t) ∧
        Steady E.toEncoding s t) (fun _ => False)) s := by
  refine wp_post_and (takeNode_spec hs hcached) ?_
  obtain ⟨node, hnode⟩ := id hcached
  unfold takeNode
  rw [wp_getNode_bind hnode]
  split
  next => exact .refl _ s
  next => exact ⟨grows_setNode s addr _ s.ticks, within_setNode hcached _ s.ticks⟩

theorem treeChildren_steady (hs : Sound E.toEncoding held s) {addr : BlobAddr} {node : FileNode}
    (hnode : s.fileCache.lookup addr = some node) (htype : node.metadata.type = .directory) :
    wp (treeChildren E addr) (post
      (fun children t => (Kept E.toEncoding held s t ∧ ChildrenRead t addr children) ∧
        Steady E.toEncoding s t) (Kept E.toEncoding held s)) s := by
  refine wp_post_and (treeChildren_spec hs hnode htype) ?_
  refine wp_mono (wp_and (treeChildren_grows addr s) (treeChildren_within hs ⟨node, hnode⟩)) ?_
  exact fun _ t ht => ⟨ht.1, ht.2⟩

theorem loadFileNode_steady (hs : Sound E.toEncoding held s) (hdense : E.sparse = false)
    (addr : BlobAddr) :
    wp (loadFileNode E addr) (post
      (fun _ t => (Kept E.toEncoding held s t ∧ Cached t addr) ∧ Steady E.toEncoding s t)
      (Kept E.toEncoding held s)) s := by
  refine wp_mono (wp_and (loadFileNode_spec hs hdense addr)
    (wp_and (loadFileNode_grows hdense addr s) (loadFileNode_within hs hdense addr))) ?_
  rintro (e | a) t ⟨hpost, hgrows, hwithin⟩
  · cases e <;> exact hpost
  · exact ⟨hpost, hgrows a rfl, hwithin⟩

/-! ## Causes of errors -/

/-- The call returns an error in this state. -/
def Failing {α : Type} (m : Op α) (s : NameStore) : Prop := ∃ e t, m s = (.error (.err e), t)

/-- Only the children of a malformed directory cannot be read. -/
theorem not_dirAt_of_failing (hs : Sound E.toEncoding held s) {addr : BlobAddr} {node : FileNode}
    (hnode : s.fileCache.lookup addr = some node) (htype : node.metadata.type = .directory)
    (h : Failing (treeChildren E addr) s) : ∀ children, ¬ E.DirAt addr children := by
  intro children hdir
  obtain ⟨e, t, herror⟩ := h
  obtain ⟨result, u, hrun, -⟩ := nodeChildren_ok hs ⟨node, hnode⟩ fun _ => ⟨children, hdir⟩
  rw [nodeChildren, bind_run (getNode_run hnode), if_pos htype, bind_run_error herror] at hrun
  cases hrun

/-- Only a node that is not there cannot be loaded. -/
theorem not_canLoad_of_failing (hs : Sound E.toEncoding held s) (hdense : E.sparse = false)
    {addr : BlobAddr} (h : Failing (loadFileNode E addr) s) : ¬ CanLoad E.toEncoding s addr := by
  intro hload
  obtain ⟨e, t, herror⟩ := h
  obtain ⟨a, u, hrun, -⟩ := loadFileNode_ok hs hdense hload
  rw [herror] at hrun
  cases hrun

end Grits
