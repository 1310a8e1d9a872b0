import Grits.NameStore.Reachable

/-!
# Dropping nodes from the cache

The `cleanup` of both reference managers.  The dense one looks at the count of
every node; the sparse one goes by the times at which nodes were last dropped,
which a later `Take` does not clear.

`Moved δ s t` says exactly how the counts of blobs have moved, so that what a
cleanup gives back can be compared with what the dropped nodes held.
-/

namespace Grits

open Prog

variable {E : Env} {holders : Multiset BlobAddr} {s t u : NameStore}

/-! ## The sparse reference manager -/

/-- One round of the loop of `SparseRefManager.cleanup`.  The entry leaves the cache first
in the code, but nobody sees the cache before the round is over. -/
def sparseCleanupAt (E : Env) (timeout now : ℤ) (addr : BlobAddr) : Op Unit := do
  let s ← Prog.get
  match s.nodeDropTimes.lookup addr with
  | none => pure ()
  | some dropTime =>
      if timeout < now - dropTime then
        match s.fileCache.lookup addr with
        | none => Prog.modify fun s => { s with nodeDropTimes := s.nodeDropTimes.erase addr }
        | some node => do
            releaseBlob E addr
            match ← tryErr (exportedBlob addr) with
            | .ok _ => releaseBlob E node.metadata.contentHash
            | .error _ => pure ()
            Prog.modify fun s =>
              { s with
                fileCache := s.fileCache.erase addr
                nodeDropTimes := s.nodeDropTimes.erase addr }
      else pure ()

/-- `SparseRefManager.cleanup`. -/
def sparseCleanup (E : Env) (timeout : ℤ) : Op Unit := do
  let now ← consult E.clock
  let s ← Prog.get
  let addrs ← consult fun tick => E.cacheOrder tick s.nodeDropTimes.keys
  Prog.loop (fun _ addr => sparseCleanupAt E timeout now addr) () addrs

/-- `RefManager.cleanup`. -/
def managerCleanup (E : Env) (timeout : ℤ) : Op Unit :=
  if E.sparse then sparseCleanup E timeout else cleanup E

/-! ## What is counted -/

/-- The references to `blob` that the node at `addr` has taken: its content only once that
is loaded. -/
def loadedRefs (blob addr : BlobAddr) (node : FileNode) : ℕ :=
  (if addr = blob then 1 else 0) + (if node.blob = some blob then 1 else 0)

/-- The references to `blob` that all cached nodes have taken. -/
def loadedTotal (s : NameStore) (blob : BlobAddr) : ℕ :=
  FinmapSum.total (loadedRefs blob) s.fileCache

/-- Only blobs and the clock have moved, and the counts of blobs by `δ`. -/
def Moved (δ : BlobAddr → ℤ) (s t : NameStore) : Prop :=
  OnlyBlobs s t ∧ ∀ blob, blobCount t blob = blobCount s blob + δ blob

theorem Moved.refl (s : NameStore) : Moved 0 s s :=
  ⟨.refl s, fun blob => by simp⟩

theorem Moved.trans {δ ε : BlobAddr → ℤ} (h : Moved δ s t) (h' : Moved ε t u) :
    Moved (δ + ε) s u := by
  refine ⟨h.1.trans h'.1, fun blob => ?_⟩
  rw [h'.2, h.2, Pi.add_apply]
  ring

theorem blobCount_tick (s : NameStore) (ticks : ℕ) (blob : BlobAddr) :
    blobCount { s with ticks := ticks } blob = blobCount s blob := rfl

/-- A stored blob whose count is written. -/
theorem moved_insert {addr : BlobAddr} {file : LocalCachedFile} {shift : ℤ} (ticks : ℕ)
    (hcount : file.refCount = blobCount s addr + shift) :
    Moved (Pi.single addr shift) s
      { s with blobStore := s.blobStore.insert addr file, ticks := ticks } := by
  refine ⟨⟨_, _, rfl⟩, fun blob => ?_⟩
  rw [blobCount_insert]
  by_cases hblob : blob = addr
  · subst hblob
    rw [if_pos rfl, Pi.single_eq_same, hcount]
  · rw [if_neg hblob, Pi.single_eq_of_ne hblob, add_zero]

/-- A blob that is deleted with its last reference. -/
theorem moved_erase {addr : BlobAddr} {shift : ℤ} (ticks : ℕ)
    (hcount : blobCount s addr + shift = 0) :
    Moved (Pi.single addr shift) s
      { s with blobStore := s.blobStore.erase addr, ticks := ticks } := by
  refine ⟨⟨_, _, rfl⟩, fun blob => ?_⟩
  rw [blobCount_erase]
  by_cases hblob : blob = addr
  · subst hblob
    rw [if_pos rfl, Pi.single_eq_same, hcount]
  · rw [if_neg hblob, Pi.single_eq_of_ne hblob, add_zero]

theorem blobCount_of_lookup {addr : BlobAddr} {file : LocalCachedFile}
    (h : s.blobStore.lookup addr = some file) : blobCount s addr = file.refCount := by
  rw [blobCount, h]
  rfl

/-! ## Blobs -/

theorem readFile_moved (addr : BlobAddr) (s : NameStore) :
    wp (readFile addr) (post (fun _ t => Moved (Pi.single addr 1) s t) (fun t => t = s)) s := by
  unfold readFile
  rw [wp_get_bind]
  cases hfile : s.blobStore.lookup addr with
  | none => exact rfl
  | some file =>
      have hcount := blobCount_of_lookup hfile
      exact moved_insert s.ticks (by rw [hcount])

theorem addDataBlock_moved (data : Bytes) (s : NameStore) :
    wp (addDataBlock E data) (post (fun addr t => addr = E.sum data ∧
      Moved (Pi.single (E.sum data) 1) s t) (fun _ => False)) s := by
  unfold addDataBlock
  rw [wp_get_bind]
  simp only [wp_modify_bind]
  refine ⟨rfl, moved_insert s.ticks ?_⟩
  rw [blobCount]
  cases s.blobStore.lookup (E.sum data) with
  | none => rfl
  | some file => rfl

theorem releaseBlob_moved {addr : BlobAddr} (hpos : 0 < blobCount s addr) :
    wp (releaseBlob E addr) (post (fun _ t => Moved (Pi.single addr (-1)) s t)
      (fun _ => False)) s := by
  unfold releaseBlob
  rw [wp_get_bind]
  cases hfile : s.blobStore.lookup addr with
  | none =>
      rw [blobCount, hfile] at hpos
      cases hpos
  | some file =>
      have hcount := blobCount_of_lookup hfile
      rw [hcount] at hpos
      simp only
      split
      next hneg => omega
      next =>
        split
        next =>
          refine moved_insert s.ticks ?_
          rw [hcount]
          rfl
        next hzero =>
          rw [wp_consult_bind]
          split
          next =>
            refine moved_erase (s.ticks + 1) ?_
            rw [hcount]
            omega
          next =>
            refine moved_insert (s.ticks + 1) ?_
            rw [hcount]
            rfl

/-! ## The invariant -/

/-- Every cached node has what it refers to, and its count is that of its holders, with
one for the reference manager. -/
structure Backed (holders : Multiset BlobAddr) (s : NameStore) : Prop where
  counted : ∀ blob, (loadedTotal s blob : ℤ) ≤ blobCount s blob
  blobs : ∀ addr node, s.fileCache.lookup addr = some node → ∀ blob, node.blob = some blob →
    blob = node.metadata.contentHash
  held : ∀ addr, nodeCount s addr =
    (holders.count addr : ℤ) + if addr ∈ s.refCount then 1 else 0

theorem Backed.moved {δ : BlobAddr → ℤ} (h : Backed holders s) (hst : Moved δ s t)
    (hδ : ∀ blob, 0 ≤ δ blob) : Backed holders t := by
  obtain ⟨⟨blobs, ticks, rfl⟩, hcount⟩ := hst
  refine ⟨fun blob => ?_, h.blobs, h.held⟩
  rw [hcount]
  have := h.counted blob
  have := hδ blob
  change (loadedTotal s blob : ℤ) ≤ _
  omega

theorem Backed.refCount_nonneg (h : Backed holders s) {addr : BlobAddr} {node : FileNode}
    (hnode : s.fileCache.lookup addr = some node) : 0 ≤ node.refCount := by
  have hheld := h.held addr
  rw [nodeCount_of_lookup hnode] at hheld
  rw [hheld]
  split <;> omega

/-- A node that is held is in the cache. -/
theorem Backed.cached (h : Backed holders s) {addr : BlobAddr} (hmem : addr ∈ holders) :
    ∃ node, s.fileCache.lookup addr = some node ∧ 0 < node.refCount := by
  have hheld := h.held addr
  have hpos := Multiset.count_pos.mpr hmem
  cases hnode : s.fileCache.lookup addr with
  | none =>
      rw [nodeCount_of_lookup_eq_none hnode] at hheld
      split at hheld <;> omega
  | some node =>
      rw [nodeCount_of_lookup hnode] at hheld
      refine ⟨node, rfl, ?_⟩
      rw [hheld]
      split <;> omega

/-- The references a cached node has taken are counted. -/
theorem Backed.loadedRefs_le (h : Backed holders s) {addr : BlobAddr} {node : FileNode}
    (hnode : s.fileCache.lookup addr = some node) (blob : BlobAddr) :
    (loadedRefs blob addr node : ℤ) ≤ blobCount s blob := by
  have hle := FinmapSum.le_total (loadedRefs blob) hnode
  have hcount := h.counted blob
  rw [loadedTotal] at hcount
  omega

/-- The count of a node is written. -/
theorem Backed.setCount {holders' : Multiset BlobAddr} (h : Backed holders s) {addr : BlobAddr}
    {node : FileNode} (hnode : s.fileCache.lookup addr = some node) {count : ℤ}
    (hcount : count = (holders'.count addr : ℤ) + if addr ∈ s.refCount then 1 else 0)
    (hothers : ∀ other, other ≠ addr → holders'.count other = holders.count other) :
    Backed holders'
      { s with fileCache := s.fileCache.insert addr { node with refCount := count } } where
  counted := by
    intro blob
    have htotal : loadedTotal
        { s with fileCache := s.fileCache.insert addr { node with refCount := count } } blob =
          loadedTotal s blob := FinmapSum.total_insert_of_same _ hnode rfl
    rw [htotal]
    exact h.counted blob
  blobs := by
    intro other node' hnode' blob hblob
    by_cases hother : other = addr
    · subst hother
      rw [Finmap.lookup_insert] at hnode'
      cases hnode'
      exact h.blobs other node hnode blob hblob
    · rw [Finmap.lookup_insert_of_ne _ hother] at hnode'
      exact h.blobs other node' hnode' blob hblob
  held := by
    intro other
    rw [nodeCount_insert]
    by_cases hother : other = addr
    · subst hother
      rw [if_pos rfl]
      exact hcount
    · rw [if_neg hother, hothers other hother]
      exact h.held other

/-- A node is loaded, and its references with it. -/
theorem Backed.insertFresh (h : Backed holders s) {addr : BlobAddr} {node : FileNode}
    (hnone : s.fileCache.lookup addr = none) (hst : Moved (fun blob => loadedRefs blob addr node) s t)
    (hblob : ∀ blob, node.blob = some blob → blob = node.metadata.contentHash)
    (hcount : node.refCount = 0) :
    Backed holders { t with fileCache := t.fileCache.insert addr node } := by
  obtain ⟨⟨blobs, ticks, rfl⟩, hmoved⟩ := hst
  refine ⟨fun blob => ?_, ?_, fun other => ?_⟩
  · have htotal : FinmapSum.total (loadedRefs blob) (s.fileCache.insert addr node) =
        loadedRefs blob addr node + FinmapSum.total (loadedRefs blob) s.fileCache :=
      FinmapSum.total_insert_of_lookup_eq_none _ hnone
    have hbefore := h.counted blob
    have hafter := hmoved blob
    change (FinmapSum.total (loadedRefs blob) (s.fileCache.insert addr node) : ℤ) ≤
      blobCount { s with blobStore := blobs, ticks := ticks } blob
    rw [htotal, hafter]
    rw [loadedTotal] at hbefore
    push_cast
    omega
  · intro other node' hnode' blob hblob'
    by_cases hother : other = addr
    · subst hother
      rw [Finmap.lookup_insert] at hnode'
      cases hnode'
      exact hblob blob hblob'
    · rw [Finmap.lookup_insert_of_ne _ hother] at hnode'
      exact h.blobs other node' hnode' blob hblob'
  · have hheld := h.held other
    change nodeCount { s with fileCache := s.fileCache.insert addr node } other = _
    rw [nodeCount_insert]
    by_cases hother : other = addr
    · subst hother
      rw [nodeCount_of_lookup_eq_none hnone] at hheld
      rw [if_pos rfl, hcount]
      exact hheld
    · rw [if_neg hother]
      exact hheld

/-- The content of a cached node is loaded, with a reference to it. -/
theorem Backed.setBlob (h : Backed holders s) {addr : BlobAddr} {node : FileNode}
    (hnode : s.fileCache.lookup addr = some node) (hblob : node.blob = none)
    (hst : Moved (Pi.single node.metadata.contentHash 1) s t) :
    Backed holders { t with
      fileCache := t.fileCache.insert addr { node with blob := some node.metadata.contentHash } } := by
  obtain ⟨⟨blobs, ticks, rfl⟩, hmoved⟩ := hst
  refine ⟨fun blob => ?_, ?_, fun other => ?_⟩
  · have htotal := @FinmapSum.total_insert_add _ _ _ (loadedRefs blob) _ _ _
      { node with blob := some node.metadata.contentHash } hnode
    have hbefore := h.counted blob
    have hafter := hmoved blob
    change (FinmapSum.total (loadedRefs blob) (s.fileCache.insert addr _) : ℤ) ≤
      blobCount { s with blobStore := blobs, ticks := ticks } blob
    rw [hafter]
    rw [loadedTotal] at hbefore
    simp only [loadedRefs, hblob, Option.some.injEq, reduceCtorEq, if_false] at htotal hbefore ⊢
    by_cases heq : node.metadata.contentHash = blob
    · subst heq
      rw [Pi.single_eq_same]
      simp only [if_true] at htotal
      omega
    · rw [Pi.single_eq_of_ne (Ne.symm heq)]
      simp only [heq, if_false] at htotal
      omega
  · intro other node' hnode' blob hblob'
    by_cases hother : other = addr
    · subst hother
      rw [Finmap.lookup_insert] at hnode'
      cases hnode'
      exact (Option.some.inj hblob').symm
    · rw [Finmap.lookup_insert_of_ne _ hother] at hnode'
      exact h.blobs other node' hnode' blob hblob'
  · have hheld := h.held other
    change nodeCount { s with fileCache := s.fileCache.insert addr _ } other = _
    rw [nodeCount_insert]
    by_cases hother : other = addr
    · subst hother
      rw [nodeCount_of_lookup hnode] at hheld
      rw [if_pos rfl]
      exact hheld
    · rw [if_neg hother]
      exact hheld

/-! ## Nodes -/

theorem takeNode_backed (h : Backed holders s) {addr : BlobAddr} (hcached : Cached s addr) :
    wp (takeNode addr) (post (fun _ t => Backed (addr ::ₘ holders) t) (fun _ => False)) s := by
  obtain ⟨node, hnode⟩ := hcached
  have hheld := h.held addr
  rw [nodeCount_of_lookup hnode] at hheld
  unfold takeNode
  rw [wp_getNode_bind hnode, if_neg (not_lt.mpr (h.refCount_nonneg hnode))]
  refine h.setCount hnode ?_ fun other hother => Multiset.count_cons_of_ne hother holders
  rw [Multiset.count_cons_self, hheld]
  push_cast
  ring

theorem releaseNode_backed {addr : BlobAddr} (h : Backed (addr ::ₘ holders) s) :
    wp (releaseNode E addr) (post (fun _ t => Backed holders t) (fun _ => False)) s := by
  obtain ⟨node, hnode, hpos⟩ := h.cached (Multiset.mem_cons_self addr holders)
  have hheld := h.held addr
  rw [nodeCount_of_lookup hnode, Multiset.count_cons_self] at hheld
  have hset : Backed holders { s with
      fileCache := s.fileCache.insert addr { node with refCount := node.refCount - 1 } } := by
    refine h.setCount hnode ?_ fun other hother => (Multiset.count_cons_of_ne hother holders).symm
    rw [hheld]
    push_cast
    ring
  unfold releaseNode
  rw [wp_getNode_bind hnode]
  simp only [setNode, wp_modify_bind]
  rw [if_neg (by omega)]
  split
  · exact ⟨hset.counted, hset.blobs, hset.held⟩
  · exact hset

theorem exportedBlob_backed (h : Backed holders s) {addr : BlobAddr} (hcached : Cached s addr) :
    wp (exportedBlob addr) (post (fun _ t => Backed holders t) (Backed holders)) s := by
  obtain ⟨node, hnode⟩ := hcached
  unfold exportedBlob
  rw [wp_getNode_bind hnode]
  cases hblob : node.blob with
  | some blob => exact h
  | none =>
      refine wp_post_bind (readFile_moved _ s) ?_ ?_
      · intro _ t ht
        exact h.setBlob hnode hblob ht
      · rintro _ rfl
        exact h

/-- What is counted when a node is read from its blobs. -/
theorem actuallyLoadFileNode_moved (addr : BlobAddr) (h : Backed holders s) :
    wp (actuallyLoadFileNode E addr) (post
      (fun node t => Moved (fun blob => loadedRefs blob addr node) s t ∧
        (∀ blob, node.blob = some blob → blob = node.metadata.contentHash) ∧ node.refCount = 0)
      (Backed holders)) s := by
  have hnonneg : ∀ blob, 0 ≤ blobCount s blob := fun blob => by
    have := h.counted blob
    omega
  unfold actuallyLoadFileNode
  refine wp_post_bind (readFile_moved addr s) ?_ (fun _ ht => ht ▸ h)
  intro data t ht
  -- giving the metadata blob back leaves what was there
  have hgive : ∀ {δ : BlobAddr → ℤ} {u : NameStore}, Moved δ s u → 1 ≤ δ addr →
      (∀ blob, 0 ≤ δ blob) → ∀ e : GoErr, ∀ {α : Type},
        wp (do releaseBlob E addr; fail e : Op α) (post (fun _ _ => False) (Backed holders)) u := by
    intro δ u hu haddr hδ e α
    refine wp_post_bind (releaseBlob_moved (by
      rw [hu.2]
      have := hnonneg addr
      omega)) ?_ (fun _ hfalse => hfalse.elim)
    intro _ w hw
    refine h.moved (hu.trans hw) fun blob => ?_
    rw [Pi.add_apply]
    by_cases hblob : blob = addr
    · subst hblob
      rw [Pi.single_eq_same]
      omega
    · rw [Pi.single_eq_of_ne hblob]
      have := hδ blob
      omega
  have hsingle : ∀ blob, 0 ≤ (Pi.single addr 1 : BlobAddr → ℤ) blob := by
    intro blob
    by_cases hblob : blob = addr
    · subst hblob
      simp
    · rw [Pi.single_eq_of_ne hblob]
  cases hdata : E.unmarshalMetadata data with
  | none =>
      refine wp_post_mono (hgive ht (by simp) hsingle _) (fun _ _ hfalse => hfalse.elim)
        (fun _ hu => hu)
  | some metadata =>
      simp only
      -- the node holds its metadata blob, and its content where that was read
      have hend : ∀ (m : Op FileNode) (blob : Option BlobAddr) (u : NameStore),
          (m = pure ⟨metadata, blob, none, 0⟩ ∨ ∃ e, m = do releaseBlob E addr; fail e) →
          Moved (fun other => loadedRefs other addr ⟨metadata, blob, none, 0⟩) s u →
          (∀ other, blob = some other → other = metadata.contentHash) →
          wp m (post (fun node t => Moved (fun blob => loadedRefs blob addr node) s t ∧
            (∀ blob, node.blob = some blob → blob = node.metadata.contentHash) ∧
              node.refCount = 0) (Backed holders)) u := by
        rintro m blob u (rfl | ⟨e, rfl⟩) hu hblob
        · exact ⟨hu, hblob, rfl⟩
        · refine wp_post_mono (hgive hu ?_ (fun _ => Int.natCast_nonneg _) _)
            (fun _ _ hfalse => hfalse.elim) (fun _ hw => hw)
          rw [loadedRefs, if_pos rfl]
          exact_mod_cast Nat.le_add_right 1 _
      split
      next =>
        refine hend _ none t ?_ ⟨ht.1, fun blob => ?_⟩ (fun other hnone => by cases hnone)
        · cases metadata.type with
          | file => exact .inl rfl
          | directory => exact .inl rfl
          | other value => exact .inr ⟨_, rfl⟩
        · rw [ht.2]
          simp [loadedRefs, Pi.single_apply, eq_comm]
      next =>
        refine wp_post_bind (P := fun blob u => blob = some metadata.contentHash ∧
          Moved (Pi.single metadata.contentHash 1) t u) (Q := Backed holders) ?_ ?_ (fun _ hu => hu)
        · refine wp_catching_err (P := fun blob u => blob = some metadata.contentHash ∧
            Moved (Pi.single metadata.contentHash 1) t u) (Q := fun u => u = t) ?_ (fun _ _ hu => hu) ?_
          · refine wp_post_bind (readFile_moved _ t) ?_ (fun _ hu => hu)
            intro _ u hu
            exact ⟨rfl, hu⟩
          · rintro e _ rfl
            exact wp_post_mono (hgive ht (by simp) hsingle _) (fun _ _ hfalse => hfalse.elim)
              (fun _ hu => hu)
        · rintro _ u ⟨rfl, hu⟩
          refine hend _ (some metadata.contentHash) u ?_ ⟨ht.1.trans hu.1, fun blob => ?_⟩
            (fun other hsome => (Option.some.inj hsome).symm)
          · cases metadata.type with
            | file => exact .inl rfl
            | directory => exact .inl rfl
            | other value => exact .inr ⟨_, rfl⟩
          · rw [hu.2, ht.2]
            simp [loadedRefs, Pi.single_apply, eq_comm, add_assoc]

theorem loadFileNode_backed (h : Backed holders s) (addr : BlobAddr) :
    wp (loadFileNode E addr) (post (fun _ t => Backed holders t) (Backed holders)) s := by
  unfold loadFileNode
  rw [wp_get_bind]
  cases hnone : s.fileCache.lookup addr with
  | some node => exact h
  | none =>
      refine wp_post_bind (actuallyLoadFileNode_moved addr h) ?_ (fun _ ht => ht)
      rintro node t ⟨ht, hblob, hcount⟩
      exact h.insertFresh hnone ht hblob hcount

/-! ## Dropping -/

/-- Nodes have left the cache, and what they had taken is given back, once each. -/
structure Dropped (s t : NameStore) : Prop where
  kept : ∀ addr node, s.fileCache.lookup addr = some node →
    t.fileCache.lookup addr = some node ∨ (t.fileCache.lookup addr = none ∧ node.refCount = 0)
  nothingNew : ∀ addr, s.fileCache.lookup addr = none → t.fileCache.lookup addr = none
  givenBack : ∀ blob, blobCount t blob =
    blobCount s blob - ((loadedTotal s blob : ℤ) - loadedTotal t blob)
  refCount : t.refCount = s.refCount

theorem Dropped.of_moved (h : Moved 0 s t) : Dropped s t := by
  obtain ⟨⟨blobs, ticks, rfl⟩, hmoved⟩ := h
  refine ⟨fun addr node hnode => .inl hnode, fun addr hnone => hnone, fun blob => ?_, rfl⟩
  rw [hmoved]
  change _ = _ - ((loadedTotal s blob : ℤ) - loadedTotal s blob)
  simp

theorem Dropped.trans (h : Dropped s t) (h' : Dropped t u) : Dropped s u where
  kept := by
    intro addr node hnode
    rcases h.kept addr node hnode with hnode' | ⟨hnone, hzero⟩
    · exact h'.kept addr node hnode'
    · exact .inr ⟨h'.nothingNew addr hnone, hzero⟩
  nothingNew := fun addr hnone => h'.nothingNew addr (h.nothingNew addr hnone)
  givenBack := by
    intro blob
    rw [h'.givenBack, h.givenBack]
    ring
  refCount := h'.refCount.trans h.refCount

/-- The blobs of the node at `addr` are given back, and only that node was touched. -/
structure Emptied (addr : BlobAddr) (node : FileNode) (s t : NameStore) : Prop where
  same : ∃ blobs ticks cache, t = { s with blobStore := blobs, ticks := ticks, fileCache := cache }
  others : t.fileCache.erase addr = s.fileCache.erase addr
  givenBack : ∀ blob, blobCount t blob = blobCount s blob - loadedRefs blob addr node

/-- A node without references that is emptied is dropped. -/
theorem Emptied.dropped (h : Backed holders s) {addr : BlobAddr} {node : FileNode}
    (hnode : s.fileCache.lookup addr = some node) (hzero : node.refCount = 0)
    (hst : Emptied addr node s t) (dropTimes : Finmap fun _ : BlobAddr => ℤ) :
    Backed holders { t with fileCache := t.fileCache.erase addr, nodeDropTimes := dropTimes } ∧
      Dropped s { t with fileCache := t.fileCache.erase addr, nodeDropTimes := dropTimes } := by
  obtain ⟨⟨blobs, ticks, cache, rfl⟩, hothers, hgiven⟩ := hst
  change cache.erase addr = s.fileCache.erase addr at hothers
  have htotal : ∀ blob, FinmapSum.total (loadedRefs blob) (s.fileCache.erase addr) +
      loadedRefs blob addr node = loadedTotal s blob :=
    fun blob => FinmapSum.total_erase_add (loadedRefs blob) hnode
  have hgiven' : ∀ blob, blobCount { s with blobStore := blobs } blob =
      blobCount s blob - loadedRefs blob addr node := hgiven
  have hheld := h.held addr
  rw [nodeCount_of_lookup hnode, hzero] at hheld
  simp only [hothers]
  refine ⟨⟨fun blob => ?_, ?_, fun other => ?_⟩, ?_, ?_, fun blob => ?_, rfl⟩
  · have hcount := h.counted blob
    have := htotal blob
    change (FinmapSum.total (loadedRefs blob) (s.fileCache.erase addr) : ℤ) ≤
      blobCount { s with blobStore := blobs } blob
    rw [hgiven']
    omega
  · intro other node' hnode' blob hblob
    by_cases hother : other = addr
    · subst hother
      rw [Finmap.lookup_erase] at hnode'
      cases hnode'
    · rw [Finmap.lookup_erase_ne hother] at hnode'
      exact h.blobs other node' hnode' blob hblob
  · by_cases hother : other = addr
    · subst hother
      rw [nodeCount_of_lookup_eq_none (Finmap.lookup_erase _ _)]
      exact hheld
    · have hsame : nodeCount { s with fileCache := s.fileCache.erase addr } other =
          nodeCount s other := by
        unfold nodeCount
        rw [Finmap.lookup_erase_ne hother]
      exact hsame.trans (h.held other)
  · intro other node' hnode'
    by_cases hother : other = addr
    · subst hother
      cases hnode.symm.trans hnode'
      exact .inr ⟨Finmap.lookup_erase _ _, hzero⟩
    · exact .inl ((Finmap.lookup_erase_ne hother).trans hnode')
  · intro other hnone
    by_cases hother : other = addr
    · subst hother
      exact Finmap.lookup_erase _ _
    · exact (Finmap.lookup_erase_ne hother).trans hnone
  · have := htotal blob
    change blobCount { s with blobStore := blobs } blob = blobCount s blob -
      ((loadedTotal s blob : ℤ) - FinmapSum.total (loadedRefs blob) (s.fileCache.erase addr))
    rw [hgiven']
    omega

/-- What both managers do with the blobs of a node, before `rest`. -/
theorem wp_empty (h : Backed holders s) {addr : BlobAddr} {node : FileNode}
    (hnode : s.fileCache.lookup addr = some node) {rest : Op Unit} {P : Unit → NameStore → Prop}
    (hrest : ∀ t, Emptied addr node s t → wp rest (post P (fun _ => False)) t) :
    wp (do
      releaseBlob E addr
      match ← tryErr (exportedBlob addr) with
      | .ok _ => releaseBlob E node.metadata.contentHash
      | .error _ => pure ()
      rest) (post P (fun _ => False)) s := by
  have hrefs := h.loadedRefs_le hnode
  have hmetadata : 0 < blobCount s addr := by
    have := hrefs addr
    rw [loadedRefs, if_pos rfl] at this
    push_cast at this
    omega
  refine wp_post_bind (releaseBlob_moved hmetadata) ?_ (fun _ hfalse => hfalse)
  intro _ t ht
  have hnode' : t.fileCache.lookup addr = some node := by rw [ht.1.fileCache, hnode]
  cases hblob : node.blob with
  | some blob =>
      -- the content is loaded
      have hcontent := h.blobs addr node hnode blob hblob
      subst hcontent
      rw [wp_bind_iff, wp, tryErr_run (exportedBlob_run hnode' hblob), andThen_ok]
      have hpos : 0 < blobCount t node.metadata.contentHash := by
        have := hrefs node.metadata.contentHash
        rw [ht.2]
        rw [loadedRefs, hblob, if_pos rfl] at this
        by_cases heq : addr = node.metadata.contentHash
        · rw [if_pos heq] at this
          rw [← heq, Pi.single_eq_same, heq]
          omega
        · rw [if_neg heq] at this
          rw [Pi.single_eq_of_ne (Ne.symm heq)]
          omega
      refine wp_post_bind (releaseBlob_moved hpos) ?_ (fun _ hfalse => hfalse)
      intro _ u hu
      refine hrest u ?_
      obtain ⟨⟨blobs, ticks, rfl⟩, hcount⟩ := ht.trans hu
      refine ⟨⟨_, _, s.fileCache, rfl⟩, rfl, fun other => ?_⟩
      rw [hcount, loadedRefs, hblob, Pi.add_apply, Pi.single_apply, Pi.single_apply]
      simp only [Option.some.injEq, eq_comm (a := other)]
      push_cast
      split <;> split <;> omega
  | none =>
      -- the content is loaded now, to be given back at once, or it is not there
      have hexport : wp (exportedBlob addr) (post
          (fun _ u => ∃ v, Moved (Pi.single node.metadata.contentHash 1) t v ∧ u = { v with
            fileCache := v.fileCache.insert addr { node with blob := some node.metadata.contentHash } })
          (fun u => u = t)) t := by
        unfold exportedBlob
        rw [wp_getNode_bind hnode', hblob]
        refine wp_post_bind (readFile_moved _ t) ?_ (fun _ hu => hu)
        exact fun _ v hv => ⟨v, hv, rfl⟩
      refine wp_post_bind (wp_tryErr (R := fun r u => match r with
        | .ok _ => ∃ v, Moved (Pi.single node.metadata.contentHash 1) t v ∧ u = { v with
            fileCache := v.fileCache.insert addr { node with blob := some node.metadata.contentHash } }
        | .error _ => u = t) (S := fun _ => False) hexport (fun _ _ hu => hu) (fun _ _ hu => hu)) ?_
        (fun _ hfalse => hfalse)
      have hgiven : ∀ blob, (Pi.single addr (-1) : BlobAddr → ℤ) blob =
          -(loadedRefs blob addr node : ℤ) := by
        intro blob
        rw [loadedRefs, hblob, Pi.single_apply]
        simp only [reduceCtorEq, if_false, eq_comm (a := blob)]
        split <;> rfl
      rintro (e | _) u hu
      · subst hu
        refine hrest u ?_
        obtain ⟨⟨blobs, ticks, rfl⟩, hcount⟩ := ht
        refine ⟨⟨_, _, s.fileCache, rfl⟩, rfl, fun other => ?_⟩
        rw [hcount, hgiven, Int.sub_eq_add_neg]
      · obtain ⟨v, hv, rfl⟩ := hu
        obtain ⟨⟨blobs, ticks, rfl⟩, hcount⟩ := ht.trans hv
        have hpos : 0 < blobCount { s with blobStore := blobs } node.metadata.contentHash := by
          have hbefore := hcount node.metadata.contentHash
          change blobCount { s with blobStore := blobs } _ = _ at hbefore
          rw [hbefore, Pi.add_apply, Pi.single_eq_same, hgiven]
          have := hrefs node.metadata.contentHash
          omega
        refine wp_post_bind (releaseBlob_moved hpos) ?_ (fun _ hfalse => hfalse)
        rintro _ w ⟨⟨blobs', ticks', rfl⟩, hafter⟩
        refine hrest _ ⟨⟨_, _, _, rfl⟩, ?_, fun other => ?_⟩
        · refine Finmap.ext_lookup fun other => ?_
          by_cases hother : other = addr
          · subst hother
            rw [Finmap.lookup_erase, Finmap.lookup_erase]
          · rw [Finmap.lookup_erase_ne hother, Finmap.lookup_erase_ne hother]
            exact Finmap.lookup_insert_of_ne _ hother
        · have hbefore := hcount other
          change blobCount { s with blobStore := blobs } other = _ at hbefore
          have hlast := hafter other
          change _ = blobCount { s with blobStore := blobs } other + _ at hlast
          rw [hlast, hbefore, Pi.add_apply, hgiven]
          rw [Pi.single_apply, Pi.single_apply]
          split <;> omega

/-! ## Both cleanups -/

theorem cleanupAt_backed (h : Backed holders s) (addr : BlobAddr) :
    wp (cleanupAt E addr) (post (fun _ t => Backed holders t ∧ Dropped s t) (fun _ => False)) s := by
  unfold cleanupAt
  rw [wp_get_bind]
  cases hnode : s.fileCache.lookup addr with
  | none => exact ⟨h, .of_moved (.refl s)⟩
  | some node =>
      simp only
      split
      next => exact ⟨h, .of_moved (.refl s)⟩
      next hcount =>
        rw [not_not] at hcount
        have hheld := h.held addr
        rw [nodeCount_of_lookup hnode, hcount] at hheld
        cases hrefs : s.refCount.lookup addr with
        | some n =>
            rw [if_pos (Finmap.mem_of_lookup_eq_some hrefs)] at hheld
            omega
        | none =>
            simp only
            refine wp_empty h hnode fun t ht => ?_
            exact ht.dropped h hnode hcount t.nodeDropTimes

theorem cleanup_backed (h : Backed holders s) :
    wp (cleanup E) (post (fun _ t => Backed holders t ∧ Dropped s t) (fun _ => False)) s := by
  have htick : Moved 0 s { s with ticks := s.ticks + 1 } :=
    ⟨⟨_, _, rfl⟩, fun blob => (add_zero _).symm⟩
  unfold cleanup
  rw [wp_get_bind, wp_consult_bind]
  refine wp_post_loop_const ⟨h.moved htick fun _ => le_rfl, .of_moved htick⟩ ?_
  rintro addr - _ t ⟨ht, hst⟩
  refine wp_post_mono (cleanupAt_backed ht addr) ?_ (fun _ h => h)
  rintro _ u ⟨hu, htu⟩
  exact ⟨hu, hst.trans htu⟩

/-- No node whose drop time is over has been taken again. -/
def DropsUnheld (timeout now : ℤ) (s : NameStore) : Prop :=
  ∀ addr dropTime node, s.nodeDropTimes.lookup addr = some dropTime → timeout < now - dropTime →
    s.fileCache.lookup addr = some node → node.refCount = 0

theorem DropsUnheld.dropped {timeout now : ℤ} (h : DropsUnheld timeout now s) (hst : Dropped s t)
    (hsub : ∀ addr dropTime, t.nodeDropTimes.lookup addr = some dropTime →
      s.nodeDropTimes.lookup addr = some dropTime) : DropsUnheld timeout now t := by
  intro addr dropTime node hdrop hover hnode
  cases hbefore : s.fileCache.lookup addr with
  | none =>
      rw [hst.nothingNew addr hbefore] at hnode
      cases hnode
  | some before =>
      rcases hst.kept addr before hbefore with hkept | ⟨hnone, -⟩
      · cases hnode.symm.trans hkept
        exact h addr dropTime node (hsub addr dropTime hdrop) hover hbefore
      · rw [hnone] at hnode
        cases hnode

theorem sparseCleanupAt_backed (h : Backed holders s) {timeout now : ℤ}
    (hunheld : DropsUnheld timeout now s) (addr : BlobAddr) :
    wp (sparseCleanupAt E timeout now addr) (post (fun _ t => Backed holders t ∧ Dropped s t ∧
      DropsUnheld timeout now t) (fun _ => False)) s := by
  have herase : ∀ {dropTimes : Finmap fun _ : BlobAddr => ℤ} {other : BlobAddr} {dropTime : ℤ},
      (dropTimes.erase addr).lookup other = some dropTime → dropTimes.lookup other = some dropTime := by
    intro dropTimes other dropTime hlookup
    by_cases hother : other = addr
    · rw [hother, Finmap.lookup_erase] at hlookup
      cases hlookup
    · rwa [Finmap.lookup_erase_ne hother] at hlookup
  unfold sparseCleanupAt
  rw [wp_get_bind]
  cases hdrop : s.nodeDropTimes.lookup addr with
  | none => exact ⟨h, .of_moved (.refl s), hunheld⟩
  | some dropTime =>
      simp only
      split
      next hover =>
        cases hnode : s.fileCache.lookup addr with
        | none =>
            have hdropped : Dropped s { s with nodeDropTimes := s.nodeDropTimes.erase addr } := by
              refine ⟨fun _ node hnode => .inl hnode, fun _ hnone => hnone, fun blob => ?_, rfl⟩
              change _ = _ - ((loadedTotal s blob : ℤ) - loadedTotal s blob)
              rw [sub_self, sub_zero]
              rfl
            exact ⟨⟨h.counted, h.blobs, h.held⟩, hdropped,
              hunheld.dropped hdropped fun _ _ => herase⟩
        | some node =>
            simp only
            have hzero := hunheld addr dropTime node hdrop hover hnode
            refine wp_empty h hnode fun t ht => ?_
            obtain ⟨hbacked, hdropped⟩ := ht.dropped h hnode hzero (t.nodeDropTimes.erase addr)
            obtain ⟨⟨blobs, ticks, cache, rfl⟩, -, -⟩ := ht
            exact ⟨hbacked, hdropped, hunheld.dropped hdropped fun _ _ => herase⟩
      next => exact ⟨h, .of_moved (.refl s), hunheld⟩

theorem sparseCleanup_backed (h : Backed holders s) {timeout : ℤ}
    (hunheld : DropsUnheld timeout (E.clock s.ticks) s) :
    wp (sparseCleanup E timeout) (post (fun _ t => Backed holders t ∧ Dropped s t)
      (fun _ => False)) s := by
  have htick : Moved 0 s { s with ticks := s.ticks + 1 + 1 } :=
    ⟨⟨_, _, rfl⟩, fun blob => (add_zero _).symm⟩
  have hdropped := Dropped.of_moved htick
  unfold sparseCleanup
  rw [wp_consult_bind, wp_get_bind, wp_consult_bind]
  refine wp_post_mono (wp_post_loop_const
    (I := fun _ t => Backed holders t ∧ Dropped s t ∧ DropsUnheld timeout (E.clock s.ticks) t)
    ⟨h.moved htick fun _ => le_rfl, hdropped, hunheld.dropped hdropped fun _ _ h => h⟩ ?_)
    (fun _ _ ht => ⟨ht.1, ht.2.1⟩) (fun _ h => h)
  rintro addr - _ t ⟨ht, hst, hunheld'⟩
  refine wp_post_mono (sparseCleanupAt_backed ht hunheld' addr) ?_ (fun _ h => h)
  rintro _ u ⟨hu, htu, hunheld''⟩
  exact ⟨hu, hst.trans htu, hunheld''⟩

/-- A cleanup of either manager drops only nodes without references, and gives back what
they had taken. -/
theorem managerCleanup_backed (h : Backed holders s) {timeout : ℤ}
    (hunheld : E.sparse = true → DropsUnheld timeout (E.clock s.ticks) s) :
    wp (managerCleanup E timeout) (post (fun _ t => Backed holders t ∧ Dropped s t)
      (fun _ => False)) s := by
  unfold managerCleanup
  split
  next hsparse => exact sparseCleanup_backed h (hunheld hsparse)
  next => exact cleanup_backed h

end Grits
