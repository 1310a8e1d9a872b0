import Grits.NameStore.Sound

/-!
# Specifications of the blob store and node operations

Every operation keeps a dense store sound and is quiet; what it returns is
described by the tree its addresses name.
-/

namespace Grits

open Prog

variable {E : Env} {held : Multiset BlobAddr} {s : NameStore}

/-! ## Blobs -/

theorem blobCount_insert (s : NameStore) (addr : BlobAddr) (file : LocalCachedFile)
    (ticks : ℕ) (blob : BlobAddr) :
    blobCount { s with blobStore := s.blobStore.insert addr file, ticks := ticks } blob =
      if blob = addr then file.refCount else blobCount s blob := by
  unfold blobCount
  by_cases h : blob = addr
  · subst h
    simp
  · simp [h, Finmap.lookup_insert_of_ne _ h]

theorem blobCount_erase (s : NameStore) (addr : BlobAddr) (ticks : ℕ) (blob : BlobAddr) :
    blobCount { s with blobStore := s.blobStore.erase addr, ticks := ticks } blob =
      if blob = addr then 0 else blobCount s blob := by
  unfold blobCount
  by_cases h : blob = addr
  · subst h
    simp
  · simp [h, Finmap.lookup_erase_ne h]

/-- Held references may be forgotten. -/
theorem Sound.mono {E : Encoding} {held' : Multiset BlobAddr} (h : Sound E held s)
    (hle : held' ≤ held) : Sound E held' s where
  hashed := h.hashed
  counted := by
    intro blob
    have hcount := h.counted blob
    have := Multiset.count_le_of_le blob hle
    omega
  nodes := h.nodes

theorem Sound.insertBlob {E : Encoding} {held' : Multiset BlobAddr} (h : Sound E held s)
    {addr : BlobAddr} {file : LocalCachedFile} (ticks : ℕ) (hsum : E.sum file.data = addr)
    (hfile : ((cacheRefs s addr + held'.count addr : ℕ) : ℤ) ≤ file.refCount)
    (hother : ∀ blob, blob ≠ addr → held'.count blob ≤ held.count blob) :
    Sound E held' { s with blobStore := s.blobStore.insert addr file, ticks := ticks } where
  hashed := by
    intro blob file' hlookup
    by_cases hblob : blob = addr
    · subst hblob
      rw [Finmap.lookup_insert] at hlookup
      cases hlookup
      exact hsum
    · rw [Finmap.lookup_insert_of_ne _ hblob] at hlookup
      exact h.hashed blob file' hlookup
  counted := by
    intro blob
    rw [blobCount_insert]
    change ((cacheRefs s blob + held'.count blob : ℕ) : ℤ) ≤ _
    split
    next heq =>
      subst heq
      exact hfile
    next hne =>
      have hcount := h.counted blob
      have := hother blob hne
      omega
  nodes := h.nodes

theorem Sound.eraseBlob {E : Encoding} {held' : Multiset BlobAddr} (h : Sound E held s)
    {addr : BlobAddr} (ticks : ℕ) (haddr : cacheRefs s addr + held'.count addr = 0)
    (hother : ∀ blob, blob ≠ addr → held'.count blob ≤ held.count blob) :
    Sound E held' { s with blobStore := s.blobStore.erase addr, ticks := ticks } where
  hashed := by
    intro blob file' hlookup
    by_cases hblob : blob = addr
    · subst hblob
      simp at hlookup
    · rw [Finmap.lookup_erase_ne hblob] at hlookup
      exact h.hashed blob file' hlookup
  counted := by
    intro blob
    rw [blobCount_erase]
    change ((cacheRefs s blob + held'.count blob : ℕ) : ℤ) ≤ _
    split
    next heq =>
      subst heq
      omega
    next hne =>
      have hcount := h.counted blob
      have := hother blob hne
      omega
  nodes := h.nodes

/-- A tick of an oracle. -/
theorem Sound.tick {E : Encoding} (h : Sound E held s) (ticks : ℕ) :
    Sound E held { s with ticks := ticks } where
  hashed := h.hashed
  counted := h.counted
  nodes := h.nodes

theorem readFile_spec (hs : Sound E.toEncoding held s) (addr : BlobAddr) :
    wp (readFile addr) (post (fun data t => Sound E.toEncoding (addr ::ₘ held) t ∧
      OnlyBlobs s t ∧ E.sum data = addr) (fun t => t = s)) s := by
  unfold readFile
  rw [wp_get_bind]
  cases hfile : s.blobStore.lookup addr with
  | none => rfl
  | some file =>
      have hcount := hs.counted addr
      rw [blobCount, hfile] at hcount
      refine ⟨hs.insertBlob s.ticks (hs.hashed addr file hfile) ?_ ?_,
        ⟨_, s.ticks, rfl⟩, hs.hashed addr file hfile⟩
      · simp only [Option.elim_some] at hcount
        rw [Multiset.count_cons_self]
        push_cast at hcount ⊢
        omega
      · intro blob hblob
        rw [Multiset.count_cons_of_ne hblob]

theorem addDataBlock_spec (hs : Sound E.toEncoding held s) (data : Bytes) :
    wp (addDataBlock E data) (post (fun addr t => addr = E.sum data ∧
      Sound E.toEncoding (addr ::ₘ held) t ∧ OnlyBlobs s t) (fun _ => False)) s := by
  have hcount := hs.counted (E.sum data)
  have hother : ∀ blob, blob ≠ E.sum data →
      (E.sum data ::ₘ held).count blob ≤ held.count blob := by
    intro blob hblob
    rw [Multiset.count_cons_of_ne hblob]
  rw [blobCount] at hcount
  refine ⟨rfl, hs.insertBlob s.ticks ?_ ?_ hother, _, s.ticks, rfl⟩
  · cases hfile : s.blobStore.lookup (E.sum data) with
    | none => rfl
    | some file => exact hs.hashed _ file hfile
  · rw [Multiset.count_cons_self]
    cases hfile : s.blobStore.lookup (E.sum data) with
    | none =>
        rw [hfile, Option.elim_none] at hcount
        change _ ≤ (1 : ℤ)
        push_cast at hcount ⊢
        omega
    | some file =>
        rw [hfile, Option.elim_some] at hcount
        change _ ≤ file.refCount + 1
        push_cast at hcount ⊢
        omega

theorem releaseBlob_spec {addr : BlobAddr} (hs : Sound E.toEncoding (addr ::ₘ held) s) :
    wp (releaseBlob E addr) (post (fun _ t => Sound E.toEncoding held t ∧ OnlyBlobs s t)
      (fun _ => False)) s := by
  obtain ⟨file, hfile, hcount⟩ := hs.exists_blob (show 0 < cacheRefs s addr + (addr ::ₘ held).count addr by simp)
  rw [Multiset.count_cons_self] at hcount
  have hother : ∀ blob, blob ≠ addr → held.count blob ≤ (addr ::ₘ held).count blob := by
    intro blob hblob
    rw [Multiset.count_cons_of_ne hblob]
  have hinsert : ∀ ticks, Sound E.toEncoding held { s with
      blobStore := s.blobStore.insert addr { file with refCount := file.refCount - 1 }
      ticks := ticks } := by
    intro ticks
    refine hs.insertBlob ticks (hs.hashed addr file hfile) ?_ hother
    push_cast at hcount ⊢
    omega
  unfold releaseBlob
  rw [wp_get_bind, hfile]
  simp only
  split
  next hneg => omega
  next =>
    split
    next => exact ⟨hinsert s.ticks, _, s.ticks, rfl⟩
    next hpos =>
      rw [wp_consult_bind]
      split
      next =>
        refine ⟨hs.eraseBlob (s.ticks + 1) ?_ hother, _, s.ticks + 1, rfl⟩
        omega
      next => exact ⟨hinsert (s.ticks + 1), _, s.ticks + 1, rfl⟩

/-! ## Cache entries -/

theorem Sound.insertFresh {E : Encoding} {addr : BlobAddr} {node : FileNode}
    (h : Sound E (addr ::ₘ node.metadata.contentHash ::ₘ held) s)
    (hnone : s.fileCache.lookup addr = none) (hok : NodeOk E addr node) :
    Sound E held { s with fileCache := s.fileCache.insert addr node } where
  hashed := h.hashed
  counted := by
    intro blob
    have hcount := h.counted blob
    have htotal : cacheRefs { s with fileCache := s.fileCache.insert addr node } blob =
        nodeRefs blob addr node + cacheRefs s blob :=
      FinmapSum.total_insert_of_lookup_eq_none _ hnone
    change _ ≤ blobCount s blob
    rw [htotal, nodeRefs]
    rw [Multiset.count_cons, Multiset.count_cons] at hcount
    simp only [eq_comm (a := blob)] at hcount
    omega
  nodes := by
    intro other node' hlookup
    by_cases hother : other = addr
    · subst hother
      rw [Finmap.lookup_insert] at hlookup
      cases hlookup
      exact hok
    · rw [Finmap.lookup_insert_of_ne _ hother] at hlookup
      exact h.nodes other node' hlookup

theorem Sound.overwrite {E : Encoding} {addr : BlobAddr} {node node' : FileNode}
    (h : Sound E held s) (hnode : s.fileCache.lookup addr = some node)
    (hmetadata : node'.metadata = node.metadata) (hok : NodeOk E addr node') :
    Sound E held { s with fileCache := s.fileCache.insert addr node' } where
  hashed := h.hashed
  counted := by
    intro blob
    have hsame : nodeRefs blob addr node' = nodeRefs blob addr node := by
      rw [nodeRefs, nodeRefs, hmetadata]
    have htotal : cacheRefs { s with fileCache := s.fileCache.insert addr node' } blob =
        cacheRefs s blob := FinmapSum.total_insert_of_same _ hnode hsame
    rw [htotal]
    exact h.counted blob
  nodes := by
    intro other node'' hlookup
    by_cases hother : other = addr
    · subst hother
      rw [Finmap.lookup_insert] at hlookup
      cases hlookup
      exact hok
    · rw [Finmap.lookup_insert_of_ne _ hother] at hlookup
      exact h.nodes other node'' hlookup

theorem nodeCount_insert (s : NameStore) (addr other : BlobAddr) (node : FileNode) :
    nodeCount { s with fileCache := s.fileCache.insert addr node } other =
      if other = addr then node.refCount else nodeCount s other := by
  unfold nodeCount
  by_cases h : other = addr
  · subst h
    simp
  · simp [h, Finmap.lookup_insert_of_ne _ h]

theorem quiet_insertFresh {addr : BlobAddr} {node : FileNode}
    (hnone : s.fileCache.lookup addr = none) (hcount : node.refCount = 0) :
    Quiet 0 s { s with fileCache := s.fileCache.insert addr node } where
  rootAddr := rfl
  serialNumber := rfl
  refCount := rfl
  kept := by
    intro other node' hnode'
    have hother : other ≠ addr := by
      rintro rfl
      rw [hnone] at hnode'
      cases hnode'
    exact ⟨node', by rw [Finmap.lookup_insert_of_ne _ hother, hnode'], rfl, fun _ h => h⟩
  nodeCount := by
    intro other
    rw [nodeCount_insert]
    split
    next heq =>
      subst heq
      rw [nodeCount_of_lookup_eq_none hnone, hcount]
      rfl
    next => simp

theorem quiet_overwrite {addr : BlobAddr} {node node' : FileNode} {shift : ℤ}
    (hnode : s.fileCache.lookup addr = some node) (hmetadata : node'.metadata = node.metadata)
    (hchildren : ∀ map, node.childrenMap = some map → node'.childrenMap = some map)
    (hcount : node'.refCount = node.refCount + shift) :
    Quiet (Pi.single addr shift) s { s with fileCache := s.fileCache.insert addr node' } where
  rootAddr := rfl
  serialNumber := rfl
  refCount := rfl
  kept := by
    intro other node'' hnode''
    by_cases hother : other = addr
    · subst hother
      rw [hnode] at hnode''
      cases hnode''
      exact ⟨node', Finmap.lookup_insert _, hmetadata, hchildren⟩
    · exact ⟨node'', by rw [Finmap.lookup_insert_of_ne _ hother, hnode''], rfl, fun _ h => h⟩
  nodeCount := by
    intro other
    rw [nodeCount_insert]
    split
    next heq =>
      subst heq
      rw [nodeCount_of_lookup hnode, Pi.single_eq_same, hcount]
    next hne => rw [Pi.single_eq_of_ne hne, add_zero]

/-! ## Nodes -/

theorem getNode_run {addr : BlobAddr} {node : FileNode}
    (hnode : s.fileCache.lookup addr = some node) : getNode addr s = (.ok node, s) := by
  unfold getNode
  rw [bind_run (get_run s), hnode]
  rfl

theorem wp_getNode {addr : BlobAddr} {node : FileNode} {R : Except Halt FileNode → NameStore → Prop}
    (hnode : s.fileCache.lookup addr = some node) :
    wp (getNode addr) R s ↔ R (.ok node) s := by
  rw [wp, getNode_run hnode]

theorem wp_getNode_bind {α : Type} {addr : BlobAddr} {node : FileNode} {f : FileNode → Op α}
    {R : Except Halt α → NameStore → Prop} (hnode : s.fileCache.lookup addr = some node) :
    wp (getNode addr >>= f) R s ↔ wp (f node) R s := by
  rw [wp_bind_iff, wp_getNode hnode, andThen_ok]

theorem takeNode_spec (hs : Sound E.toEncoding held s) {addr : BlobAddr} (haddr : Cached s addr) :
    wp (takeNode addr) (post (fun _ t => Sound E.toEncoding held t ∧
      Quiet (Pi.single addr 1) s t) (fun _ => False)) s := by
  obtain ⟨node, hnode⟩ := haddr
  have hok := hs.nodes addr node hnode
  unfold takeNode
  rw [wp_getNode_bind hnode, if_neg (not_lt.mpr hok.refCount)]
  refine ⟨hs.overwrite hnode rfl { hok with refCount := ?_ },
    quiet_overwrite hnode rfl (fun _ h => h) rfl⟩
  have := hok.refCount
  change 0 ≤ node.refCount + 1
  omega

theorem releaseNode_spec (hs : Sound E.toEncoding held s) (hdense : E.sparse = false)
    {addr : BlobAddr} (hpos : 0 < nodeCount s addr) :
    wp (releaseNode E addr) (post (fun _ t => Sound E.toEncoding held t ∧
      Quiet (Pi.single addr (-1)) s t) (fun _ => False)) s := by
  cases hnode : s.fileCache.lookup addr with
  | none =>
      rw [nodeCount_of_lookup_eq_none hnode] at hpos
      omega
  | some node =>
      have hok := hs.nodes addr node hnode
      rw [nodeCount_of_lookup hnode] at hpos
      unfold releaseNode
      rw [wp_getNode_bind hnode]
      simp only [setNode, wp_modify_bind]
      rw [if_neg (by omega), if_neg (by simp [hdense])]
      refine ⟨hs.overwrite hnode rfl { hok with refCount := ?_ },
        quiet_overwrite hnode rfl (fun _ h => h) (by rw [Int.sub_eq_add_neg])⟩
      change 0 ≤ node.refCount - 1
      omega

/-- A node as it is loaded. -/
theorem nodeOk_loaded {E : Encoding} {addr : BlobAddr} {metadata : GNodeMetadata}
    (hmetadata : E.MetadataAt addr metadata)
    (htype : metadata.type = .file ∨ metadata.type = .directory) :
    NodeOk E addr ⟨metadata, some metadata.contentHash, none, 0⟩ where
  metadata := hmetadata
  type := htype
  blob := rfl
  children := by
    intro map hmap
    cases hmap
  decoded := by
    intro map hmap
    cases hmap
  refCount := le_rfl

theorem actuallyLoadFileNode_spec (hs : Sound E.toEncoding held s) (hdense : E.sparse = false)
    (addr : BlobAddr) :
    wp (actuallyLoadFileNode E addr) (post
      (fun node t => Sound E.toEncoding (addr ::ₘ node.metadata.contentHash ::ₘ held) t ∧
        OnlyBlobs s t ∧ NodeOk E.toEncoding addr node ∧ node.refCount = 0)
      (fun t => Sound E.toEncoding held t ∧ OnlyBlobs s t)) s := by
  have hrelease : ∀ u, Sound E.toEncoding (addr ::ₘ held) u → OnlyBlobs s u → ∀ e : GoErr,
      wp (do releaseBlob E addr; fail e : Op FileNode) (post
        (fun node t => Sound E.toEncoding (addr ::ₘ node.metadata.contentHash ::ₘ held) t ∧
          OnlyBlobs s t ∧ NodeOk E.toEncoding addr node ∧ node.refCount = 0)
        (fun t => Sound E.toEncoding held t ∧ OnlyBlobs s t)) u := by
    intro u hu hsu e
    refine wp_post_bind (releaseBlob_spec hu) ?_ (fun _ h => h.elim)
    rintro _ v ⟨hv, huv⟩
    exact ⟨hv, hsu.trans huv⟩
  unfold actuallyLoadFileNode
  refine wp_post_bind (readFile_spec hs addr) ?_ ?_
  swap
  · rintro t rfl
    exact ⟨hs, .refl _⟩
  rintro data t ⟨ht, hst, hsum⟩
  cases hmetadata : E.unmarshalMetadata data with
  | none => exact hrelease t ht hst _
  | some metadata =>
      have hat : E.MetadataAt addr metadata := ⟨data, hsum, hmetadata⟩
      simp only [hdense, Bool.false_eq_true, if_false]
      -- the content is read now; where it is missing the metadata is let go
      refine wp_post_bind (P := fun blob u => blob = some metadata.contentHash ∧
          Sound E.toEncoding (metadata.contentHash ::ₘ addr ::ₘ held) u ∧ OnlyBlobs s u)
        (Q := fun u => Sound E.toEncoding held u ∧ OnlyBlobs s u) ?_ ?_ (fun _ h => h)
      · refine wp_catching_err (P := fun blob u => blob = some metadata.contentHash ∧
            Sound E.toEncoding (metadata.contentHash ::ₘ addr ::ₘ held) u ∧ OnlyBlobs s u)
          (Q := fun u => u = t) ?_ (fun _ _ h => h) ?_
        · refine wp_post_bind (readFile_spec ht metadata.contentHash) ?_ (fun _ h => h)
          rintro _ u ⟨hu, htu, -⟩
          exact ⟨rfl, hu, hst.trans htu⟩
        · rintro e u rfl
          refine wp_post_bind (releaseBlob_spec ht) ?_ (fun _ h => h.elim)
          rintro _ v ⟨hv, huv⟩
          exact ⟨hv, hst.trans huv⟩
      · rintro blob u ⟨rfl, hu, hsu⟩
        rw [Multiset.cons_swap] at hu
        cases htype : metadata.type with
        | file =>
            exact ⟨hu, hsu, nodeOk_loaded hat (.inl htype), rfl⟩
        | directory =>
            exact ⟨hu, hsu, nodeOk_loaded hat (.inr htype), rfl⟩
        | other value =>
            refine hrelease u (hu.mono ?_) hsu _
            exact Multiset.cons_le_cons _ (Multiset.le_cons_self _ _)

theorem loadFileNode_cached {addr : BlobAddr} (h : Cached s addr) :
    loadFileNode E addr s = (.ok (), s) := by
  obtain ⟨node, hnode⟩ := h
  unfold loadFileNode
  rw [bind_run (get_run s), hnode]
  rfl

theorem loadFileNode_spec (hs : Sound E.toEncoding held s) (hdense : E.sparse = false)
    (addr : BlobAddr) :
    wp (loadFileNode E addr) (post (fun _ t => Kept E.toEncoding held s t ∧ Cached t addr)
      (Kept E.toEncoding held s)) s := by
  cases hnode : s.fileCache.lookup addr with
  | some node =>
      have hcached : Cached s addr := ⟨node, hnode⟩
      rw [wp, loadFileNode_cached hcached]
      exact ⟨hs.kept, hcached⟩
  | none =>
      unfold loadFileNode
      rw [wp_get_bind, hnode]
      refine wp_post_bind (actuallyLoadFileNode_spec hs hdense addr) ?_ ?_
      · rintro node t ⟨ht, hst, hok, hcount⟩
        have hnone : t.fileCache.lookup addr = none := by rw [hst.fileCache, hnode]
        refine ⟨⟨ht.insertFresh hnone hok, ?_⟩, node, Finmap.lookup_insert _⟩
        exact hst.quiet.trans_zero (quiet_insertFresh hnone hcount)
      · rintro t ⟨ht, hst⟩
        exact ⟨ht, hst.quiet⟩

/-- In a dense store the content of a cached node has been read already. -/
theorem exportedBlob_cached (hs : Sound E.toEncoding held s) {addr : BlobAddr}
    (h : Cached s addr) : exportedBlob addr s = (.ok (), s) := by
  obtain ⟨node, hnode⟩ := h
  have hblob := (hs.nodes addr node hnode).blob
  unfold exportedBlob
  rw [bind_run (getNode_run hnode), hblob]
  rfl

/-! ## Children -/

theorem fillChildren_lookup_of_notMem {entries : List (Σ _ : GoString, BlobAddr)}
    {filled : Children} {name : GoString} (h : name ∉ entries.keys) :
    (fillChildren filled entries).1.lookup name = filled.lookup name := by
  induction entries generalizing filled with
  | nil => rfl
  | cons entry rest ih =>
      obtain ⟨first, cid⟩ := entry
      rw [List.keys_cons, List.mem_cons, not_or] at h
      rw [fillChildren]
      split
      · rw [ih h.2, Finmap.lookup_insert_of_ne _ h.1]
      · exact Finmap.lookup_insert_of_ne _ h.1

/-- A loop that reaches the end has entered every name, with a good address. -/
theorem fillChildren_complete {entries : List (Σ _ : GoString, BlobAddr)} {filled : Children}
    (hnodup : entries.NodupKeys) (h : (fillChildren filled entries).2 = true) :
    ∀ entry ∈ entries, IsCid entry.2 ∧
      (fillChildren filled entries).1.lookup entry.1 = some entry.2 := by
  induction entries generalizing filled with
  | nil =>
      intro entry hentry
      cases hentry
  | cons first rest ih =>
      obtain ⟨name, cid⟩ := first
      rw [List.nodupKeys_cons] at hnodup
      rw [fillChildren] at h ⊢
      split at h
      next hcid =>
        rw [if_pos hcid]
        intro entry hentry
        rcases List.mem_cons.mp hentry with rfl | hentry
        · exact ⟨hcid, by rw [fillChildren_lookup_of_notMem hnodup.1, Finmap.lookup_insert]⟩
        · exact ih hnodup.2 h entry hentry
      next => cases h

/-- A loop that stops early has met a malformed address and left an empty one. -/
theorem fillChildren_incomplete {entries : List (Σ _ : GoString, BlobAddr)} {filled : Children}
    (h : (fillChildren filled entries).2 = false) :
    (∃ entry ∈ entries, ¬ IsCid entry.2) ∧
      ∃ name, (fillChildren filled entries).1.lookup name = some [] := by
  induction entries generalizing filled with
  | nil => cases h
  | cons first rest ih =>
      obtain ⟨name, cid⟩ := first
      rw [fillChildren] at h ⊢
      split at h
      next hcid =>
        obtain ⟨⟨entry, hentry, hbad⟩, hname⟩ := ih h
        rw [if_pos hcid]
        exact ⟨⟨entry, List.mem_cons_of_mem _ hentry, hbad⟩, hname⟩
      next hcid =>
        rw [if_neg hcid]
        exact ⟨⟨⟨name, cid⟩, List.mem_cons_self, hcid⟩, name, Finmap.lookup_insert _⟩

theorem fillChildren_lookup {entries : List (Σ _ : GoString, BlobAddr)} {filled : Children}
    {name : GoString} {addr : BlobAddr}
    (h : (fillChildren filled entries).1.lookup name = some addr) :
    addr = [] ∨ (IsCid addr ∧ ⟨name, addr⟩ ∈ entries) ∨ filled.lookup name = some addr := by
  induction entries generalizing filled with
  | nil => exact .inr (.inr h)
  | cons first rest ih =>
      obtain ⟨next, cid⟩ := first
      rw [fillChildren] at h
      split at h
      next hcid =>
        rcases ih h with hnil | ⟨hgood, hmem⟩ | hlookup
        · exact .inl hnil
        · exact .inr (.inl ⟨hgood, List.mem_cons_of_mem _ hmem⟩)
        · by_cases hname : name = next
          · subst hname
            rw [Finmap.lookup_insert] at hlookup
            cases hlookup
            exact .inr (.inl ⟨hcid, List.mem_cons_self⟩)
          · rw [Finmap.lookup_insert_of_ne _ hname] at hlookup
            exact .inr (.inr hlookup)
      next hcid =>
        by_cases hname : name = next
        · subst hname
          rw [Finmap.lookup_insert] at h
          cases h
          exact .inl rfl
        · rw [Finmap.lookup_insert_of_ne _ hname] at h
          exact .inr (.inr h)

section Fill

variable {dirMap : Children} {entries : List (Σ _ : GoString, BlobAddr)}
  (hentries : (entries : Multiset _) = dirMap.entries)

include hentries

theorem mem_entries_iff {name : GoString} {addr : BlobAddr} :
    (⟨name, addr⟩ : Σ _ : GoString, BlobAddr) ∈ entries ↔ dirMap.lookup name = some addr := by
  rw [Finmap.lookup_eq_some_iff, ← hentries, Multiset.mem_coe]

theorem nodupKeys_entries : entries.NodupKeys := by
  have h := dirMap.nodupKeys
  rwa [← hentries, Multiset.coe_nodupKeys] at h

theorem fillChildren_eq (h : (fillChildren ∅ entries).2 = true) :
    (fillChildren ∅ entries).1 = dirMap := by
  refine Finmap.ext_lookup fun name => ?_
  cases hname : dirMap.lookup name with
  | some addr =>
      have hmem := (mem_entries_iff hentries).mpr hname
      exact (fillChildren_complete (nodupKeys_entries hentries) h _ hmem).2
  | none =>
      rw [fillChildren_lookup_of_notMem, Finmap.lookup_empty]
      intro hkey
      obtain ⟨⟨name', addr⟩, hmem, rfl⟩ := List.mem_map.mp hkey
      rw [(mem_entries_iff hentries).mp hmem] at hname
      cases hname

/-- The map the loop of `TreeNode.Children` leaves behind is readable. -/
theorem readable_fillChildren {E : Encoding} {content : BlobAddr} {data : Bytes}
    (hsum : E.sum data = content) (hdata : E.unmarshalDir data = some dirMap) :
    E.Readable content (fillChildren ∅ entries).1 := by
  cases hcomplete : (fillChildren ∅ entries).2 with
  | true =>
      refine .inl ⟨data, hsum, ?_, ?_⟩
      · rw [fillChildren_eq hentries hcomplete, hdata]
      · intro name addr hname
        rw [fillChildren_eq hentries hcomplete] at hname
        have hmem := (mem_entries_iff hentries).mpr hname
        exact (fillChildren_complete (nodupKeys_entries hentries) hcomplete _ hmem).1
  | false =>
      obtain ⟨⟨⟨name, addr⟩, hmem, hbad⟩, hnil⟩ := fillChildren_incomplete hcomplete
      refine .inr ⟨?_, hnil, ?_⟩
      · rintro ⟨exact', data', hsum', hdata', hwf⟩
        have hdd : data' = data := E.sum_injective (hsum'.trans hsum.symm)
        subst hdd
        rw [hdata] at hdata'
        cases hdata'
        exact hbad (hwf name addr ((mem_entries_iff hentries).mp hmem))
      · intro name addr hname
        rcases fillChildren_lookup hname with h | ⟨hcid, hmem⟩ | h
        · exact .inl h
        · refine .inr ⟨hcid, ?_⟩
          rw [← hsum]
          exact E.rank_child hdata ((mem_entries_iff hentries).mp hmem)
        · rw [Finmap.lookup_empty] at h
          cases h

end Fill

/-- The children of the node at `addr` have been read, and are `children`. -/
def ChildrenRead (s : NameStore) (addr : BlobAddr) (children : Children) : Prop :=
  ∃ node, s.fileCache.lookup addr = some node ∧ node.childrenMap = some children

theorem ChildrenRead.quiet {δ : BlobAddr → ℤ} {t : NameStore} {addr : BlobAddr}
    {children : Children} (h : ChildrenRead s addr children) (hquiet : Quiet δ s t) :
    ChildrenRead t addr children := by
  obtain ⟨node, hnode, hchildren⟩ := h
  obtain ⟨node', hnode', -, hkept⟩ := hquiet.kept addr node hnode
  exact ⟨node', hnode', hkept children hchildren⟩

theorem ChildrenRead.cached {addr : BlobAddr} {children : Children}
    (h : ChildrenRead s addr children) : Cached s addr := by
  obtain ⟨node, hnode, -⟩ := h
  exact ⟨node, hnode⟩

theorem ChildrenRead.readable {E : Encoding} {addr : BlobAddr} {children : Children}
    (h : ChildrenRead s addr children) (hs : Sound E held s) :
    ∃ metadata, E.MetadataAt addr metadata ∧ metadata.type = .directory ∧
      E.Readable metadata.contentHash children := by
  obtain ⟨node, hnode, hchildren⟩ := h
  have hok := hs.nodes addr node hnode
  obtain ⟨htype, hreadable⟩ := hok.children children hchildren
  exact ⟨node.metadata, hok.metadata, htype, hreadable⟩

theorem ChildrenRead.reads {E : Encoding} {addr : BlobAddr} {children : Children}
    (h : ChildrenRead s addr children) (hs : Sound E held s) :
    E.Reads addr fun name => children.lookup name := by
  obtain ⟨metadata, hmetadata, htype, hreadable⟩ := h.readable hs
  exact ⟨metadata, children, hmetadata, htype, hreadable, rfl⟩

theorem treeChildren_read (hs : Sound E.toEncoding held s) {addr : BlobAddr}
    {children : Children} (h : ChildrenRead s addr children) :
    treeChildren E addr s = (.ok children, s) := by
  have hexported := exportedBlob_cached hs h.cached
  obtain ⟨node, hnode, hchildren⟩ := h
  unfold treeChildren
  rw [bind_run hexported, bind_run (getNode_run hnode), hchildren]
  rfl

theorem readAll_run {blob : BlobAddr} {file : LocalCachedFile}
    (h : s.blobStore.lookup blob = some file) : readAll blob s = (.ok file.data, s) := by
  rw [readAll, bind_run (get_run s), h]
  rfl

theorem Sound.readAll_content {data : Bytes} (hs : Sound E.toEncoding held s) {addr : BlobAddr}
    {node : FileNode} (hnode : s.fileCache.lookup addr = some node)
    (hsum : E.sum data = node.metadata.contentHash) :
    readAll node.metadata.contentHash s = (.ok data, s) := by
  obtain ⟨file, hfile⟩ := hs.exists_content hnode
  have hdata : file.data = data := E.sum_injective ((hs.hashed _ file hfile).trans hsum.symm)
  rw [readAll_run hfile, hdata]

/-- The first reading of the children: the map is kept in the node, whether it is complete
or not. -/
theorem treeChildren_fill (hs : Sound E.toEncoding held s) {addr : BlobAddr} {node : FileNode}
    (hnode : s.fileCache.lookup addr = some node) (hnone : node.childrenMap = none)
    {dirMap : Children} (hdecodes : E.Decodes node.metadata.contentHash dirMap) :
    treeChildren E addr s =
      (if (fillChildren ∅ (E.childOrder s.ticks dirMap)).2 then
        .ok (fillChildren ∅ (E.childOrder s.ticks dirMap)).1
      else .error (.err (.message "invalid CID v0 format".toList)),
      { s with
        ticks := s.ticks + 1
        fileCache := s.fileCache.insert addr { node with
          childrenMap := some (fillChildren ∅ (E.childOrder s.ticks dirMap)).1 } }) := by
  obtain ⟨data, hsum, hdata⟩ := hdecodes
  unfold treeChildren
  rw [bind_run (exportedBlob_cached hs ⟨node, hnode⟩), bind_run (getNode_run hnode), hnone]
  simp only
  rw [bind_run (hs.readAll_content hnode hsum), hdata]
  simp only
  rw [bind_run (consult_run _ s), setNode, bind_run (modify_run _ _)]
  split
  next => rfl
  next => rfl

theorem wp_readAll_bind {α : Type} {blob : BlobAddr} {file : LocalCachedFile} {f : Bytes → Op α}
    {R : Except Halt α → NameStore → Prop} (hfile : s.blobStore.lookup blob = some file) :
    wp (readAll blob >>= f) R s ↔ wp (f file.data) R s := by
  rw [wp_bind_iff]
  unfold readAll
  rw [wp_get_bind, hfile]
  rfl

/-- Entering the children of a directory into its node is quiet. -/
theorem Sound.kept_setChildren {E : Encoding} (hs : Sound E held s) (ticks : ℕ)
    {addr : BlobAddr} {node : FileNode} {children : Children}
    (hnode : s.fileCache.lookup addr = some node) (hnone : node.childrenMap = none)
    (htype : node.metadata.type = .directory)
    (hreadable : E.Readable node.metadata.contentHash children)
    (hdecoded : ∃ dirMap, E.Decodes node.metadata.contentHash dirMap) :
    Kept E held s { s with
      ticks := ticks
      fileCache := s.fileCache.insert addr { node with childrenMap := some children } } := by
  have hchildren : ∀ map, node.childrenMap = some map → some children = some map := by
    intro map hmap
    rw [hnone] at hmap
    cases hmap
  have hok : NodeOk E addr { node with childrenMap := some children } := by
    refine { hs.nodes addr node hnode with children := ?_, decoded := fun _ _ => hdecoded }
    rintro map ⟨⟩
    exact ⟨htype, hreadable⟩
  have hquiet : Quiet (Pi.single addr 0) s { s with
      fileCache := s.fileCache.insert addr { node with childrenMap := some children } } :=
    quiet_overwrite hnode rfl hchildren (by simp)
  rw [Pi.single_zero] at hquiet
  exact ⟨(hs.tick ticks).overwrite hnode rfl hok, { hquiet with }⟩

theorem treeChildren_spec (hs : Sound E.toEncoding held s) {addr : BlobAddr} {node : FileNode}
    (hnode : s.fileCache.lookup addr = some node) (htype : node.metadata.type = .directory) :
    wp (treeChildren E addr) (post
      (fun children t => Kept E.toEncoding held s t ∧ ChildrenRead t addr children)
      (Kept E.toEncoding held s)) s := by
  have hcached : Cached s addr := ⟨node, hnode⟩
  cases hchildren : node.childrenMap with
  | some children =>
      have hread : ChildrenRead s addr children := ⟨node, hnode, hchildren⟩
      rw [wp, treeChildren_read hs hread]
      exact ⟨hs.kept, hread⟩
  | none =>
      unfold treeChildren
      rw [wp_bind_iff, wp, exportedBlob_cached hs hcached, andThen_ok, wp_getNode_bind hnode]
      simp only [hchildren]
      obtain ⟨file, hfile⟩ := hs.exists_content hnode
      rw [wp_readAll_bind hfile]
      cases hdata : E.unmarshalDir file.data with
      | none => exact hs.kept
      | some dirMap =>
          simp only [wp_consult_bind]
          have hreadable := readable_fillChildren (E.coe_childOrder s.ticks dirMap)
            (hs.hashed _ file hfile) hdata
          have hkept := hs.kept_setChildren (s.ticks + 1) hnode hchildren htype hreadable
            ⟨dirMap, file.data, hs.hashed _ file hfile, hdata⟩
          simp only [setNode, wp_modify_bind]
          split
          · exact ⟨hkept, _, Finmap.lookup_insert _, rfl⟩
          · exact hkept

theorem Sound.isDir_iff {E : Encoding} (hs : Sound E held s) {addr : BlobAddr} {node : FileNode}
    (hnode : s.fileCache.lookup addr = some node) :
    E.IsDir addr ↔ node.metadata.type = .directory := by
  have hat := (hs.nodes addr node hnode).metadata
  constructor
  · rintro ⟨metadata, hmetadata, htype⟩
    rw [← hmetadata.unique hat, htype]
  · intro htype
    exact ⟨node.metadata, hat, htype⟩

/-- What `FileNode.Children` has returned for the node at `addr`. -/
def ChildrenResult (E : Encoding) (addr : BlobAddr) : Option Children → NameStore → Prop
  | some children, t => ChildrenRead t addr children
  | none, t => ¬ E.IsDir addr ∧ Cached t addr

theorem nodeChildren_spec (hs : Sound E.toEncoding held s) {addr : BlobAddr}
    (h : Cached s addr) :
    wp (nodeChildren E addr) (post
      (fun children t => Kept E.toEncoding held s t ∧ ChildrenResult E.toEncoding addr children t)
      (Kept E.toEncoding held s)) s := by
  obtain ⟨node, hnode⟩ := h
  unfold nodeChildren
  rw [wp_getNode_bind hnode]
  split
  next htype =>
    refine wp_post_bind (treeChildren_spec hs hnode htype) ?_ (fun _ h => h)
    intro children t h
    exact h
  next htype =>
    refine ⟨hs.kept, ?_, node, hnode⟩
    rwa [hs.isDir_iff hnode]

theorem nodeChildren_read (hs : Sound E.toEncoding held s) {addr : BlobAddr}
    {children : Children} (h : ChildrenRead s addr children) :
    nodeChildren E addr s = (.ok (some children), s) := by
  have htree := treeChildren_read hs h
  obtain ⟨node, hnode, hchildren⟩ := h
  have htype := ((hs.nodes addr node hnode).children children hchildren).1
  unfold nodeChildren
  rw [bind_run (getNode_run hnode), if_pos htype, bind_run htree]
  rfl

theorem nodeChildren_file (hs : Sound E.toEncoding held s) {addr : BlobAddr}
    (h : Cached s addr) (hfile : ¬ E.IsDir addr) :
    nodeChildren E addr s = (.ok none, s) := by
  obtain ⟨node, hnode⟩ := h
  rw [hs.isDir_iff hnode] at hfile
  unfold nodeChildren
  rw [bind_run (getNode_run hnode), if_neg hfile]
  rfl

theorem tryErr_run {α : Type} {m : Op α} {a : α} {t : NameStore} (h : m s = (.ok a, t)) :
    tryErr m s = (.ok (.ok a), t) := by
  refine catching_run ?_
  rw [bind_run h]
  rfl

theorem tryErr_run_error {α : Type} {m : Op α} {e : GoErr} {t : NameStore}
    (h : m s = (.error (.err e), t)) : tryErr m s = (.ok (.error e), t) := by
  rw [tryErr, catching_run_error (bind_run_error h)]
  rfl

/-! ## New directories -/

/-- The map written for a directory reads back as far as it is well formed. -/
theorem readable_marshalDir {E : Encoding} {children : Children}
    (h : ∀ name addr, children.lookup name = some addr → addr = [] ∨ IsCid addr) :
    E.Readable (E.sum (E.marshalDir children)) children := by
  by_cases hnil : ∃ name, children.lookup name = some []
  · obtain ⟨bad, hbad⟩ := hnil
    have hdata := E.unmarshalDir_marshalDir children
    refine .inr ⟨?_, ⟨bad, hbad⟩, ?_⟩
    · rintro ⟨exact', data, hsum, hdata', hwf⟩
      have hdd := E.sum_injective hsum
      subst hdd
      rw [hdata] at hdata'
      cases hdata'
      exact not_isCid_nil (hwf bad [] hbad)
    · intro name addr hname
      exact (h name addr hname).imp_right fun hcid => ⟨hcid, E.rank_child hdata hname⟩
  · refine .inl (Encoding.contentAt_marshalDir ?_)
    intro name addr hname
    refine (h name addr hname).resolve_left ?_
    rintro rfl
    exact hnil ⟨name, hname⟩

theorem metadataAt_directoryMetadata (E : Env) (children : Children) (now : ℤ) :
    E.MetadataAt (E.sum (E.marshalMetadata (directoryMetadata E children now)))
      (directoryMetadata E children now) :=
  ⟨_, rfl, E.unmarshalMetadata_marshalMetadata _ (.inr rfl)⟩

/-- `addr` names a directory with the mode of `createMetadataBlob`. -/
def Encoding.MadeDirectory (E : Encoding) (addr : BlobAddr) : Prop :=
  ∃ metadata, E.MetadataAt addr metadata ∧ metadata.type = .directory ∧ metadata.mode = 0o755

/-- What `CreateTreeNode` returns for a map of children. -/
structure NewDir (E : Encoding) (addr : BlobAddr) (children : Children) : Prop where
  plain : E.MadeDirectory addr
  reads : E.Reads addr fun name => children.lookup name
  dirAt : children.WellFormed → E.DirAt addr children

theorem newDir_directoryMetadata (E : Env) {children : Children}
    (h : ∀ name addr, children.lookup name = some addr → addr = [] ∨ IsCid addr) (now : ℤ) :
    NewDir E.toEncoding (E.sum (E.marshalMetadata (directoryMetadata E children now)))
      children where
  plain := ⟨_, metadataAt_directoryMetadata E children now, rfl, rfl⟩
  reads := ⟨_, children, metadataAt_directoryMetadata E children now, rfl,
    readable_marshalDir h, rfl⟩
  dirAt := fun hwf => ⟨_, metadataAt_directoryMetadata E children now, rfl,
    Encoding.contentAt_marshalDir hwf⟩

theorem createTreeNode_spec (hs : Sound E.toEncoding held s) {children : Children}
    (h : ∀ name addr, children.lookup name = some addr → addr = [] ∨ IsCid addr) :
    wp (createTreeNode E children) (post
      (fun addr t => Kept E.toEncoding held s t ∧ Cached t addr ∧
        NewDir E.toEncoding addr children) (fun _ => False)) s := by
  unfold createTreeNode
  refine wp_post_bind (addDataBlock_spec hs _) ?_ (fun _ h => h)
  rintro content t ⟨rfl, ht, hst⟩
  rw [wp_consult_bind]
  have hsu : OnlyBlobs s { t with ticks := t.ticks + 1 } := hst.trans ⟨_, _, rfl⟩
  generalize hnow : E.clock t.ticks = now
  refine wp_post_bind (addDataBlock_spec (ht.tick (t.ticks + 1)) _) ?_ (fun _ h => h)
  rintro addr v ⟨rfl, hv, htv⟩
  have hsv : OnlyBlobs s v := hsu.trans htv
  have hat := metadataAt_directoryMetadata E children now
  have hnew := newDir_directoryMetadata E h now
  rw [wp_get_bind]
  split
  next existing hexisting =>
    rw [Multiset.cons_swap] at hv
    refine wp_post_bind (releaseBlob_spec hv) ?_ (fun _ h => h)
    rintro _ w ⟨hw, hvw⟩
    refine wp_post_bind (releaseBlob_spec hw) ?_ (fun _ h => h)
    rintro _ x ⟨hx, hwx⟩
    have hvx : OnlyBlobs v x := hvw.trans hwx
    have hmetadata := (hv.nodes _ existing hexisting).metadata.unique hat
    rw [if_pos (by rw [hmetadata]; rfl)]
    rw [wp_post_pure]
    refine ⟨⟨hx, (hsv.trans hvx).quiet⟩, ⟨existing, ?_⟩, hnew⟩
    rw [hvx.fileCache, hexisting]
  next hnone =>
    simp only [setNode, wp_modify_bind, wp_post_pure]
    have hok : NodeOk E.toEncoding (E.sum (E.marshalMetadata (directoryMetadata E children now)))
        ⟨directoryMetadata E children now, some (E.sum (E.marshalDir children)),
          some children, 0⟩ := by
      refine ⟨hat, .inr rfl, rfl, ?_, ?_, le_rfl⟩
      · rintro map ⟨⟩
        exact ⟨rfl, readable_marshalDir h⟩
      · exact fun _ _ => ⟨children, _, rfl, E.unmarshalDir_marshalDir children⟩
    refine ⟨⟨hv.insertFresh hnone hok, ?_⟩, ⟨_, Finmap.lookup_insert _⟩, hnew⟩
    exact hsv.quiet.trans_zero (quiet_insertFresh hnone rfl)

end Grits
