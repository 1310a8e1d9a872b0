import Mathlib
import Grits.Mount.FileModel

/-!
# The files of the mount are what they are for

Every call on a file of the mount does what the abstract file says, whatever fails on the way and
whatever other goroutines do elsewhere; so does every sequence of calls.
-/

namespace Grits

namespace Mount

open Prog SlashPath PosixFile Simulation
open LocalTree (writing writing_spec)

variable {E : Env} {H : Hooks} {readOnly : Bool} {others : Op Unit} {host : Host}
  {path : GoString} {held holders : Multiset BlobAddr} {x y : FileState} {m m' : FileModel}
  {saved : Option FileView}

/-! ## Postconditions -/

/-- The call returns a value with `P`, or an error number with `Q`; it does not end in any other
way. -/
def outcome {α : Type} (P : α → FileState → Prop) (Q : FileState → Prop) :
    Except FileStop α → FileState → Prop
  | .ok a, y => P a y
  | .error (.errno _), y => Q y
  | .error _, _ => False

section

variable {α β : Type} {P P' : α → FileState → Prop} {Q Q' : FileState → Prop}

theorem wp_outcome_mono {m : FileOp α} (h : wp m (outcome P Q) x) (hP : ∀ a y, P a y → P' a y)
    (hQ : ∀ y, Q y → Q' y) : wp m (outcome P' Q') x := by
  refine wp_mono h ?_
  rintro ((_ | _ | _) | _) y hpost
  · exact hQ y hpost
  · exact hpost
  · exact hpost
  · exact hP _ y hpost

theorem wp_outcome_bind {m : FileOp α} {f : α → FileOp β} {R : β → FileState → Prop}
    (h : wp m (outcome P Q) x) (hok : ∀ a y, P a y → wp (f a) (outcome R Q') y)
    (herr : ∀ y, Q y → Q' y) : wp (m >>= f) (outcome R Q') x := by
  refine wp_bind h hok ?_
  rintro (_ | _ | _) y hpost
  · exact herr y hpost
  · exact hpost
  · exact hpost

@[simp] theorem wp_errno {e : FileErrno} : wp (errno e : FileOp α) (outcome P Q) x ↔ Q x := Iff.rfl

@[simp] theorem wp_setNode_bind {f : GritsNode → GritsNode} {next : Unit → FileOp α}
    {R : Except FileStop α → FileState → Prop} :
    wp (setNode f >>= next) R x ↔ wp (next ()) R { x with node := f x.node } := Iff.rfl

@[simp] theorem wp_setNode {f : GritsNode → GritsNode} {R : Except FileStop Unit → FileState → Prop} :
    wp (setNode f) R x ↔ R (.ok ()) { x with node := f x.node } := Iff.rfl

/-- A system call either fails or goes on. -/
theorem wp_check_bind {fault : Option GoErr} {next : Unit → FileOp α}
    (hok : wp (next ()) (outcome P Q) x) (herr : ∀ e, fault = some e → Q x) :
    wp (check fault >>= next) (outcome P Q) x := by
  cases fault with
  | none => exact hok
  | some e => exact herr e rfl

/-- What is deferred runs wherever the body has come to. -/
theorem wp_deferring {last : FileOp Unit} {body : FileOp α}
    (h : wp body (outcome (fun a y => wp last (outcome (fun _ => P a) fun _ => False) y)
      (fun y => wp last (outcome (fun _ => Q) fun _ => False) y)) x) :
    wp (deferring last body) (outcome P Q) x := by
  rw [deferring, wp_bind_iff]
  apply wp_attempt h
  rintro ((_ | _ | _) | a) y hpost
  · refine wp_outcome_bind hpost ?_ (fun _ h => h.elim)
    intro _ z hz
    exact hz
  · exact hpost.elim
  · exact hpost.elim
  · refine wp_outcome_bind hpost ?_ (fun _ h => h.elim)
    intro _ z hz
    exact hz

end

/-! ## Calls of the volume -/

/-- The references that a node holds. -/
def cachedRefs (node : GritsNode) : Multiset BlobAddr := node.cachedFile.elim 0 fun addr => {addr}

/-- The node stands for the path, and the volume shows the file there. -/
structure Backed (E : Env) (path : GoString) (held holders : Multiset BlobAddr)
    (saved : Option FileView) (x : FileState) : Prop where
  atPath : x.node.path = path
  inPlace : x.node.isDangling = false
  store : Referenced E.toEncoding (cachedRefs x.node + held) holders x.store
  shown : Shown E path x.store saved

theorem Backed.withStore {held' holders' : Multiset BlobAddr} {t : NameStore}
    (h : Backed E path held holders saved x)
    (ht : Referenced E.toEncoding (cachedRefs x.node + held') holders' t)
    (hshown : Shown E path t saved) :
    Backed E path held' holders' saved { x with store := t } where
  atPath := h.atPath
  inPlace := h.inPlace
  store := ht
  shown := hshown

/-- A change of the node that is not about its cached file. -/
theorem Backed.withNode (h : Backed E path held holders saved x) (node : GritsNode)
    (hpath : node.path = x.node.path) (hplace : node.isDangling = x.node.isDangling)
    (hcached : node.cachedFile = x.node.cachedFile) :
    Backed E path held holders saved { x with node := node } where
  atPath := hpath.trans h.atPath
  inPlace := hplace.trans h.inPlace
  store := by
    change Referenced E.toEncoding (cachedRefs node + held) holders x.store
    rw [cachedRefs, hcached]
    exact h.store
  shown := h.shown

/-- A call of the volume, by what comes of it after whatever other goroutines have done. -/
theorem wp_onVolume_bind {α β : Type} {m : Op α} {f : Except GoErr α → FileOp β}
    {R : Except FileStop β → FileState → Prop} (hothers : Aside E path others)
    (hstore : Referenced E.toEncoding held holders x.store) (hshown : Shown E path x.store saved)
    (h : ∀ s, Referenced E.toEncoding held holders s → Shown E path s saved →
      wp m (post (fun a t => wp (f (.ok a)) R { x with store := t })
        (fun t => ∀ e, wp (f (.error e)) R { x with store := t })) s) :
    wp (onVolume others m >>= f) R x := by
  have hbody : wp (do others; tryErr m : Op (Except GoErr α))
      (post (fun r t => wp (f r) R { x with store := t }) fun _ => False) x.store := by
    refine wp_post_bind (hothers _ _ _ hstore) ?_ (fun _ h => h.elim)
    rintro _ s ⟨hs, hpath⟩
    exact wp_tryErr (h s hs (hshown.congr hpath)) (fun _ _ h => h) (fun e _ h => h e)
  rw [wp_bind_iff]
  unfold wp at hbody ⊢
  unfold onVolume
  generalize (do others; tryErr m : Op (Except GoErr α)) x.store = run at hbody ⊢
  obtain ⟨(_ | _ | _ | _) | r, t⟩ := run
  · exact hbody.elim
  · exact hbody.elim
  · exact hbody.elim
  · exact hbody.elim
  · exact hbody

/-- A call of the volume that returns no error. -/
theorem volume_spec {m : Op Unit} {P : FileState → Prop} (hothers : Aside E path others)
    (hstore : Referenced E.toEncoding held holders x.store) (hshown : Shown E path x.store saved)
    (h : ∀ s, Referenced E.toEncoding held holders s → Shown E path s saved →
      wp m (post (fun _ t => P { x with store := t }) fun _ => False) s) :
    wp (volume others m) (outcome (fun _ => P) fun _ => False) x := by
  refine wp_onVolume_bind hothers hstore hshown fun s hs hpath => ?_
  exact wp_post_mono (h s hs hpath) (fun _ _ ht => ht) (fun _ h => h.elim)

/-- The release of a blob that the call holds besides. -/
theorem releaseBlob_backed {addr : BlobAddr} (hdense : E.sparse = false)
    (hothers : Aside E path others) (hx : Backed E path (addr ::ₘ held) holders saved x) :
    wp (volume others (releaseBlob E addr)) (outcome (fun _ y =>
      ∃ t, y = { x with store := t } ∧ Backed E path held holders saved y) fun _ => False) x := by
  refine volume_spec hothers hx.store hx.shown fun s hs hpath => ?_
  rw [Multiset.add_cons] at hs
  refine wp_post_mono hs.releaseBlob_spec ?_ (fun _ h => h)
  rintro _ t ⟨ht, hroot⟩
  refine ⟨t, rfl, hx.withStore ht (hpath.congr ?_)⟩
  exact resolvedAddr_of_rootAddr hdense hs.inv ht.inv hroot path

/-- The release of a node that the call holds. -/
theorem releaseNode_backed {addr : BlobAddr} (hdense : E.sparse = false)
    (hothers : Aside E path others) (hx : Backed E path held (addr ::ₘ holders) saved x) :
    wp (volume others (releaseNode E addr)) (outcome (fun _ y =>
      ∃ t, y = { x with store := t } ∧ Backed E path held holders saved y) fun _ => False) x := by
  refine volume_spec hothers hx.store hx.shown fun s hs hpath => ?_
  refine wp_post_mono (hs.releaseNode_spec hdense) ?_ (fun _ h => h)
  rintro _ t ⟨ht, hroot⟩
  refine ⟨t, rfl, hx.withStore ht (hpath.congr ?_)⟩
  exact resolvedAddr_of_rootAddr hdense hs.inv ht.inv hroot path

/-! ## What stands for what -/

/-- The node has the file of the volume. -/
structure HoldsCached (E : Encoding) (saved : Option FileView) (node : GritsNode) (data : Bytes)
    (metadata : GNodeMetadata) : Prop where
  cachedFile : node.cachedFile = some metadata.contentHash
  tmpFile : node.tmpFile = none
  cachedMetadata : node.cachedMetadata = some metadata
  content : E.sum data = metadata.contentHash
  known : metadata.type = .file ∨ metadata.type = .directory
  shown : saved = some (viewOf data metadata)

/-- The node has a temporary file. -/
structure HoldsTmp (node : GritsNode) (content : Bytes) (metadata : GNodeMetadata)
    (view : FileView) : Prop where
  cachedFile : node.cachedFile = none
  tmpFile : node.tmpFile = some content
  tmpMetadata : node.tmpMetadata = some metadata
  openFile : node.openFile = some .tmp
  known : metadata.type = .file ∨ metadata.type = .directory
  view : view = viewOf content metadata

/-- The node has these edits of the file in the volume. -/
def Holds (E : Encoding) (x : FileState) (saved : Option FileView) : Edits → Prop
  | .closed => x.node.cachedFile = none ∧ x.node.tmpFile = none ∧ x.node.openFile = none
  | .clean => ∃ data metadata, HoldsCached E saved x.node data metadata ∧
      x.node.openFile = some (.blob data)
  | .stuck => x.node.cachedFile ≠ none ∧ x.node.tmpFile = none ∧ x.node.openFile = some .invalid
  | .unsaved view => (∃ content metadata, HoldsTmp x.node content metadata view) ∧
      x.node.path ∈ x.dirtyNodes

/-- The node and the volume stand for the file, besides the references of other callers. -/
structure Stands (E : Env) (path : GoString) (held holders : Multiset BlobAddr) (x : FileState)
    (m : FileModel) : Prop where
  backed : Backed E path held holders m.saved x
  handles : x.node.refCount = m.handles
  edits : Holds E.toEncoding x m.saved m.edits

/-! ## Opening -/

theorem faulty_of_ne {host : Host} {field : Host → Option GoErr} {e : GoErr}
    (hnone : ∀ now, field { now := now } = none) (h : field host = some e) : host.Faulty := by
  intro hhost
  rw [hhost, hnone] at h
  cases h

/-- What `Reader` leaves in the node. -/
theorem openReader_spec {fault : Option GoErr} {data : Bytes} {addr : BlobAddr}
    (hothers : Aside E path others) (hx : Backed E path held holders saved x)
    (hcached : x.node.cachedFile = some addr) (hsum : E.sum data = addr) :
    wp (openReader others fault addr) (outcome (fun r y =>
      Backed E path held holders saved y ∧ y.dirtyNodes = x.dirtyNodes ∧ r = fault ∧
        y.node = { x.node with
          openFile := some (if fault = none then .blob data else .invalid) }) fun _ => False) x := by
  cases fault with
  | some e => exact ⟨hx.withNode _ rfl rfl rfl, rfl, rfl, rfl⟩
  | none =>
      refine wp_onVolume_bind hothers hx.store hx.shown fun s hs hpath => ?_
      have hsound := hs.sound
      rw [cachedRefs, hcached, Option.elim_some, Multiset.singleton_add] at hsound
      rw [wp, (readAll_held hsound hsum).1]
      exact ⟨(hx.withStore hs hpath).withNode _ rfl rfl rfl, rfl, rfl, rfl⟩

/-- Opening the cached file. -/
theorem openCachedReader_spec {data : Bytes} {metadata : GNodeMetadata}
    (hothers : Aside E path others) (hx : Backed E path held holders saved x)
    (hholds : HoldsCached E.toEncoding saved x.node data metadata) (hopen : x.node.openFile = none) :
    wp (openCachedReader others host metadata.contentHash) (outcome
      (fun _ y => Backed E path held holders saved y ∧
        y.node = { x.node with openFile := some (.blob data) })
      (fun y => Backed E path held holders saved y ∧ host.Faulty ∧
        y.node = { x.node with openFile := some .invalid })) x := by
  unfold openCachedReader
  rw [wp_get_bind, if_pos hopen]
  refine wp_outcome_bind (openReader_spec hothers hx hholds.cachedFile hholds.content) ?_
    (fun _ h => h.elim)
  rintro result y ⟨hy, -, rfl, hnode⟩
  cases hfault : host.reader with
  | none =>
      rw [hfault, if_pos rfl] at hnode
      exact ⟨hy, hnode⟩
  | some e =>
      rw [hfault, if_neg (by simp)] at hnode
      exact ⟨hy, faulty_of_ne (fun _ => rfl) hfault, hnode⟩

theorem HoldsCached.congr {E : Encoding} {node node' : GritsNode} {data : Bytes}
    {metadata : GNodeMetadata} (h : HoldsCached E saved node data metadata)
    (hcached : node'.cachedFile = node.cachedFile) (htmp : node'.tmpFile = node.tmpFile)
    (hmetadata : node'.cachedMetadata = node.cachedMetadata) :
    HoldsCached E saved node' data metadata :=
  { h with
    cachedFile := hcached.trans h.cachedFile
    tmpFile := htmp.trans h.tmpFile
    cachedMetadata := hmetadata.trans h.cachedMetadata }

/-- A node that is held is loaded. -/
theorem cached_of_held {s : NameStore} {addr : BlobAddr}
    (hs : Inv E.toEncoding (addr ::ₘ holders) s) : Cached s addr := by
  have hpos := (inv_iff_accounts.mp hs).nodeCount_pos
  cases hnode : s.fileCache.lookup addr with
  | some node => exact ⟨node, hnode⟩
  | none =>
      rw [nodeCount_of_lookup_eq_none hnode] at hpos
      omega

/-- The metadata and the content of what the volume shows. -/
theorem Shown.described {s : NameStore} {addr : BlobAddr} (hs : Sound E.toEncoding held s)
    (hcached : Cached s addr) (hshown : Shown E path s saved)
    (haddr : resolvedAddr E path s = some addr) :
    ∃ data metadata, E.MetadataAt addr metadata ∧ E.sum data = metadata.contentHash ∧
      (metadata.type = .file ∨ metadata.type = .directory) ∧
      saved = some (viewOf data metadata) := by
  obtain ⟨node, hnode⟩ := hcached
  have hok := hs.nodes addr node hnode
  obtain ⟨file, hfile⟩ := hs.exists_content hnode
  have hsum := hs.hashed _ file hfile
  refine ⟨file.data, node.metadata, hok.metadata, hsum, hok.type, ?_⟩
  apply hshown.unique
  exact ⟨addr, node.metadata, file.data, haddr, hok.metadata, hsum, rfl⟩

/-- The content of a node that is held, for one who has its metadata. -/
theorem exportedNode_spec {s : NameStore} {fileNode : BlobAddr} {metadata : GNodeMetadata}
    (hs : Referenced E.toEncoding held (fileNode ::ₘ holders) s)
    (hmetadata : E.MetadataAt fileNode metadata) :
    wp (fatalIfBlobMissing (do exportedBlob fileNode; getNode fileNode))
      (post (fun node t => node.metadata = metadata ∧ t = s) fun _ => False) s := by
  obtain ⟨node, hnode⟩ := cached_of_held hs.inv
  rw [wp, exportedNode_run hs.sound hnode]
  exact ⟨(hs.sound.nodes _ _ hnode).metadata.unique hmetadata, rfl⟩

/-- Another reference to the content of a node that is held. -/
theorem takeContent_spec {s : NameStore} {fileNode : BlobAddr} {metadata : GNodeMetadata}
    (hs : Referenced E.toEncoding held (fileNode ::ₘ holders) s)
    (hmetadata : E.MetadataAt fileNode metadata) :
    wp (takeBlob metadata.contentHash) (post (fun _ t =>
      Referenced E.toEncoding (metadata.contentHash ::ₘ held) (fileNode ::ₘ holders) t ∧
        t.rootAddr = s.rootAddr) fun _ => False) s := by
  obtain ⟨node, hnode⟩ := cached_of_held hs.inv
  obtain ⟨file, hfile⟩ := hs.sound.exists_content hnode
  rw [(hs.sound.nodes _ _ hnode).metadata.unique hmetadata] at hfile
  exact takeBlob_spec hs hfile

/-- What `openCachedFile` does with the node that it has looked up. -/
theorem openFound_spec {fileNode : BlobAddr} {data : Bytes} {metadata : GNodeMetadata}
    (hdense : E.sparse = false) (hothers : Aside E path others)
    (hx : Backed E path held (fileNode ::ₘ holders) saved x)
    (hclosed : Holds E.toEncoding x saved .closed)
    (hmetadata : E.MetadataAt fileNode metadata) (hsum : E.sum data = metadata.contentHash)
    (hknown : metadata.type = .file ∨ metadata.type = .directory)
    (hsaved : saved = some (viewOf data metadata)) :
    wp (openFound others host fileNode) (outcome
      (fun _ y => Backed E path held (fileNode ::ₘ holders) saved y ∧
        y.node.refCount = x.node.refCount ∧ Holds E.toEncoding y saved .clean)
      (fun y => Backed E path held (fileNode ::ₘ holders) saved y ∧ host.Faulty ∧
        y.node.refCount = x.node.refCount ∧ Holds E.toEncoding y saved .stuck)) x := by
  obtain ⟨hcached, htmp, hopen⟩ := hclosed
  unfold openFound
  refine wp_onVolume_bind hothers hx.store hx.shown fun s hs hpath => ?_
  refine wp_post_mono (exportedNode_spec hs hmetadata) ?_ (fun _ h => h.elim)
  rintro blobNode t ⟨hsame, rfl⟩
  simp only [hsame]
  rw [wp_setNode_bind]
  have htake : wp (volume others (takeBlob metadata.contentHash)) (outcome
      (fun _ y => ∃ u, y = { x with
          node := { x.node with cachedFile := some metadata.contentHash }, store := u } ∧
        Backed E path held (fileNode ::ₘ holders) saved y) fun _ => False)
      { x with node := { x.node with cachedFile := some metadata.contentHash }, store := t } := by
    refine volume_spec hothers hs hpath fun u hu hpath' => ?_
    refine wp_post_mono (takeContent_spec hu hmetadata) ?_ (fun _ h => h)
    rintro _ v ⟨hv, hroot⟩
    have hshown := hpath'.congr (resolvedAddr_of_rootAddr hdense hu.inv hv.inv hroot path)
    rw [cachedRefs, hcached, Option.elim_none, zero_add] at hv
    exact ⟨v, rfl, hx.atPath, hx.inPlace, hv, hshown⟩
  refine wp_outcome_bind htake ?_ (fun _ h => h.elim)
  rintro _ y ⟨u, rfl, hy⟩
  rw [wp_setNode_bind]
  have hholds : HoldsCached E.toEncoding saved { x.node with
      cachedFile := some metadata.contentHash, cachedMetadata := some metadata } data metadata :=
    ⟨rfl, htmp, rfl, hsum, hknown, hsaved⟩
  refine wp_outcome_mono (openCachedReader_spec hothers (hy.withNode _ rfl rfl rfl) hholds hopen)
    ?_ ?_
  · rintro _ z ⟨hz, hnode⟩
    refine ⟨hz, by rw [hnode], data, metadata, ?_, by rw [hnode]⟩
    rw [hnode]
    exact ⟨rfl, htmp, rfl, hsum, hknown, hsaved⟩
  · rintro z ⟨hz, hfaulty, hnode⟩
    refine ⟨hz, hfaulty, by rw [hnode], ?_⟩
    change z.node.cachedFile ≠ none ∧ z.node.tmpFile = none ∧ z.node.openFile = some .invalid
    rw [hnode]
    exact ⟨Option.some_ne_none _, htmp, rfl⟩

/-- What is held is about the node and its entry of `dirtyNodesMap`. -/
theorem Holds.withStore {E : Encoding} {edits : Edits} (h : Holds E x saved edits) (t : NameStore) :
    Holds E { x with store := t } saved edits := by
  cases edits <;> exact h

/-- What a node has once it has looked for the file. -/
theorem openCachedFile_spec (hdense : E.sparse = false) (hothers : Aside E path others)
    (hpath : MountPath path) (hx : Stands E path held holders x m) :
    wp (openCachedFile E others host) (outcome
      (fun _ y => ∃ m', Loads host.Faulty m true m' ∧ Stands E path held holders y m')
      (fun y => ∃ m', Loads host.Faulty m false m' ∧ Stands E path held holders y m')) x := by
  have hedits := hx.edits
  unfold openCachedFile
  rw [wp_get_bind]
  cases hkind : m.edits with
  | clean =>
      rw [hkind] at hedits
      obtain ⟨data, metadata, hholds, hopen⟩ := hedits
      rw [hholds.cachedFile]
      simp only [openCachedReader]
      rw [wp_get_bind, hopen, if_neg (by simp)]
      exact ⟨m, .already (by simp [hkind]), hx⟩
  | stuck =>
      rw [hkind] at hedits
      obtain ⟨hcached, -, hopen⟩ := hedits
      obtain ⟨addr, haddr⟩ := Option.ne_none_iff_exists'.mp hcached
      rw [haddr]
      simp only [openCachedReader]
      rw [wp_get_bind, hopen, if_neg (by simp)]
      exact ⟨m, .already (by simp [hkind]), hx⟩
  | unsaved view =>
      rw [hkind] at hedits
      obtain ⟨⟨content, metadata, hholds⟩, -⟩ := hedits
      rw [hholds.cachedFile]
      simp only
      rw [hholds.tmpFile, if_pos (by simp)]
      exact ⟨m, .already (by simp [hkind]), hx⟩
  | closed =>
      rw [hkind] at hedits
      have hclosed := hedits
      obtain ⟨hcached, htmp, -⟩ := hedits
      rw [hcached]
      simp only
      rw [htmp, if_neg (by simp), hx.backed.atPath]
      refine wp_onVolume_bind hothers hx.backed.store hx.backed.shown fun s hs hshown => ?_
      refine wp_post_mono (fatalLookupNode_shown hdense hpath hs) ?_ ?_
      · rintro fileNode t ⟨haddr, hcachedNode, ht, hroot⟩
        have hpath' := hshown.congr (resolvedAddr_of_rootAddr hdense hs.inv ht.inv hroot path)
        have haddr' := (resolvedAddr_of_rootAddr hdense hs.inv ht.inv hroot path).trans haddr
        obtain ⟨data, metadata, hmetadata, hsum, hknown, hsaved⟩ :=
          hpath'.described ht.sound hcachedNode haddr'
        have hbacked := hx.backed.withStore ht hpath'
        have hne : m.saved ≠ none := by
          rw [hsaved]
          exact Option.some_ne_none _
        refine wp_deferring (wp_outcome_mono (openFound_spec hdense hothers hbacked
          (hclosed.withStore t) hmetadata hsum hknown hsaved) ?_ ?_)
        · rintro _ y ⟨hy, hcount, hholds⟩
          refine wp_outcome_mono (releaseNode_backed hdense hothers hy) ?_ (fun _ h => h)
          rintro _ z ⟨u, rfl, hz⟩
          exact ⟨_, .found hkind hne, hz, hcount.trans hx.handles, hholds.withStore u⟩
        · rintro y ⟨hy, hfaulty, hcount, hholds⟩
          refine wp_outcome_mono (releaseNode_backed hdense hothers hy) ?_ (fun _ h => h)
          rintro _ z ⟨u, rfl, hz⟩
          exact ⟨_, .unreadable hkind hne hfaulty, hz, hcount.trans hx.handles, hholds.withStore u⟩
      · rintro t ⟨haddr, rfl⟩ e
        have hnone : m.saved = none := hshown.unique haddr
        refine ⟨m, .missing hkind hnone, hx.backed.withStore hs hshown, hx.handles, ?_⟩
        rw [hkind]
        exact hclosed.withStore t

/-! ## Starting to write -/

theorem viewOf_resize (content : Bytes) (metadata : GNodeMetadata) {truncLen : ℤ}
    (h : truncLen ≠ -1) : viewOf (resize content truncLen.toNat) metadata =
      (viewOf content metadata).truncated truncLen := by
  rw [FileView.truncated, if_neg h, viewOf, ofList_resize]
  rfl

/-- A copy of the bytes that are asked for. -/
theorem viewOf_take {data : Bytes} (metadata : GNodeMetadata) {truncLen copied : ℤ}
    (h : (if truncLen = -1 then (data.length : ℤ) else truncLen) = copied)
    (hle : copied ≤ data.length) (hpos : 0 ≤ copied) :
    viewOf (data.take copied.toNat) metadata = (viewOf data metadata).truncated truncLen := by
  split at h
  next hlen =>
    rw [FileView.truncated, if_pos hlen, ← h, Int.toNat_natCast, List.take_length]
  next hlen =>
    subst h
    rw [← viewOf_resize data metadata hlen, resize_eq_take (by omega)]

/-- What a node has after `openTmpFile`. -/
theorem useTmpFile_spec {content : Bytes} {metadata : GNodeMetadata}
    (hx : Backed E path held holders saved x) (hcached : x.node.cachedFile = none)
    (hmetadata : x.node.tmpMetadata = some metadata)
    (hknown : metadata.type = .file ∨ metadata.type = .directory) :
    wp (useTmpFile content) (outcome (fun _ y => Backed E path held holders saved y ∧
      y.node.refCount = x.node.refCount ∧
      Holds E.toEncoding y saved (.unsaved (viewOf content metadata))) fun _ => False) x := by
  refine ⟨⟨hx.atPath, hx.inPlace, hx.store, hx.shown⟩, rfl, ?_, Finset.mem_insert_self _ _⟩
  exact ⟨content, metadata, hcached, rfl, hmetadata, rfl, hknown, rfl⟩

/-- A writable copy of the cached file. -/
theorem copyCached_spec {truncLen : ℤ} {data : Bytes} {metadata : GNodeMetadata}
    (hdense : E.sparse = false) (hothers : Aside E path others)
    (hx : Backed E path held holders saved x)
    (hholds : HoldsCached E.toEncoding saved x.node data metadata) :
    wp (do
      setNode fun node => { node with tmpMetadata := some metadata, cachedMetadata := none }
      volume others (releaseBlob E metadata.contentHash)
      setNode fun node => { node with cachedFile := none }
      useTmpFile (data.take truncLen.toNat))
      (outcome (fun _ y => Backed E path held holders saved y ∧
        y.node.refCount = x.node.refCount ∧
        Holds E.toEncoding y saved (.unsaved (viewOf (data.take truncLen.toNat) metadata)))
        fun _ => False) x := by
  rw [wp_setNode_bind]
  have hstore := hx.store
  rw [cachedRefs, hholds.cachedFile, Option.elim_some, Multiset.singleton_add] at hstore
  have hrelease : wp (volume others (releaseBlob E metadata.contentHash)) (outcome (fun _ y =>
      ∃ t, y = { x with
          node := { x.node with tmpMetadata := some metadata, cachedMetadata := none }
          store := t } ∧
        Referenced E.toEncoding held holders t ∧ Shown E path t saved) fun _ => False)
      { x with node := { x.node with tmpMetadata := some metadata, cachedMetadata := none } } := by
    refine volume_spec hothers hstore hx.shown fun s hs hpath => ?_
    refine wp_post_mono hs.releaseBlob_spec ?_ (fun _ h => h)
    rintro _ t ⟨ht, hroot⟩
    exact ⟨t, rfl, ht, hpath.congr (resolvedAddr_of_rootAddr hdense hs.inv ht.inv hroot path)⟩
  refine wp_outcome_bind hrelease ?_ (fun _ h => h.elim)
  rintro _ y ⟨t, rfl, ht, hpath⟩
  rw [wp_setNode_bind]
  refine useTmpFile_spec ⟨hx.atPath, hx.inPlace, ?_, hpath⟩ rfl rfl hholds.known
  change Referenced E.toEncoding (0 + held) holders t
  rw [zero_add]
  exact ht

/-- What a node has once it can be written to. -/
theorem openTmpFile_spec (hdense : E.sparse = false) (hothers : Aside E path others)
    (truncLen : ℤ) (hx : Stands E path held holders x m) :
    wp (openTmpFile E others host truncLen) (outcome
      (fun _ y => ∃ m', Starts host.Faulty truncLen m true m' ∧ Stands E path held holders y m')
      (fun y => ∃ m', Starts host.Faulty truncLen m false m' ∧
        Stands E path held holders y m')) x := by
  have hedits := hx.edits
  unfold openTmpFile
  rw [wp_get_bind]
  cases hkind : m.edits with
  | unsaved view =>
      rw [hkind] at hedits
      obtain ⟨⟨content, metadata, hholds⟩, hdirty⟩ := hedits
      obtain rfl := hholds.view
      rw [hholds.tmpFile]
      simp only
      split
      next hlen =>
        refine ⟨_, .unsaved hkind (by omega), hx.backed, hx.handles, ?_⟩
        rw [hlen, FileView.truncated, if_pos rfl]
        exact ⟨⟨content, metadata, hholds⟩, hdirty⟩
      next hlen =>
        split
        next hneg => exact ⟨m, .negative (by simp [hkind]) (by omega), hx⟩
        next hneg =>
          refine wp_check_bind ?_ ?_
          · refine ⟨_, .unsaved hkind (by omega), hx.backed.withNode _ rfl rfl rfl, hx.handles, ?_⟩
            rw [← viewOf_resize content metadata hlen]
            refine ⟨⟨resize content truncLen.toNat, metadata, ?_⟩, hdirty⟩
            exact { hholds with tmpFile := rfl, view := rfl }
          · intro e he
            exact ⟨m, .fault (faulty_of_ne (fun _ => rfl) he), hx⟩
  | closed =>
      rw [hkind] at hedits
      obtain ⟨hcached, htmp, -⟩ := hedits
      rw [htmp]
      refine wp_check_bind ?_ ?_
      · rw [hcached]
        simp only
        rw [wp_setNode_bind]
        have hblank : blankMetadata.type = .file ∨ blankMetadata.type = .directory := .inl rfl
        refine wp_outcome_mono (useTmpFile_spec (hx.backed.withNode _ rfl rfl rfl) hcached rfl
          hblank) ?_ (fun _ h => h.elim)
        rintro _ y ⟨hy, hcount, hholds⟩
        refine ⟨_, .blank hkind, hy, hcount.trans hx.handles, ?_⟩
        rw [show blankView = viewOf [] blankMetadata by rw [viewOf, ofList_nil]; rfl]
        exact hholds
      · intro e he
        exact ⟨m, .fault (faulty_of_ne (fun _ => rfl) he), hx⟩
  | stuck =>
      rw [hkind] at hedits
      obtain ⟨hcached, htmp, hopen⟩ := hedits
      obtain ⟨addr, haddr⟩ := Option.ne_none_iff_exists'.mp hcached
      rw [htmp]
      refine wp_check_bind ?_ ?_
      · rw [haddr]
        simp only [seekOpenFile]
        rw [wp_bind_iff, wp_get_bind, hopen]
        exact ⟨m, .stuck hkind, hx⟩
      · intro e he
        exact ⟨m, .fault (faulty_of_ne (fun _ => rfl) he), hx⟩
  | clean =>
      rw [hkind] at hedits
      obtain ⟨data, metadata, hholds, hopen⟩ := hedits
      have hfault : ∀ {field : Host → Option GoErr} {e : GoErr},
          (∀ now, field { now := now } = none) → field host = some e →
          ∃ m', Starts host.Faulty truncLen m false m' ∧ Stands E path held holders x m' :=
        fun hnone he => ⟨m, .fault (faulty_of_ne hnone he), hx⟩
      have hsound := hx.backed.store.sound
      rw [cachedRefs, hholds.cachedFile, Option.elim_some, Multiset.singleton_add] at hsound
      obtain ⟨-, file, hfile, hdata⟩ := readAll_held hsound hholds.content
      rw [hholds.tmpFile]
      refine wp_check_bind ?_ fun e he => hfault (fun _ => rfl) he
      rw [hholds.cachedFile]
      simp only
      have hseek : wp (seekOpenFile host) (outcome (fun bytes y => bytes = data ∧ y = x)
          (fun y => y = x ∧ host.Faulty)) x := by
        unfold seekOpenFile
        rw [wp_get_bind, hopen]
        exact wp_check_bind ⟨rfl, rfl⟩ fun e he => ⟨rfl, faulty_of_ne (fun _ => rfl) he⟩
      refine wp_outcome_bind hseek ?_ ?_
      swap
      · rintro y ⟨rfl, hfaulty⟩
        exact ⟨m, .fault hfaulty, hx⟩
      rintro bytes y ⟨hbytes, rfl⟩
      rw [hfile, Option.elim_some, hdata, hbytes]
      refine wp_check_bind ?_ fun e he => hfault (fun _ => rfl) he
      -- the length that is copied
      generalize hlen : (if truncLen = -1 then (data.length : ℤ) else truncLen) = copied
      have hview := hholds.shown
      split
      next hbeyond =>
        refine ⟨m, .beyond hkind hview ?_, hx⟩
        change (data.length : ℤ) < truncLen
        split at hlen <;> omega
      next hwithin =>
        split
        next hneg =>
          refine ⟨m, .negative (by simp [hkind]) ?_, hx⟩
          split at hlen <;> omega
        next hpos =>
          rw [hholds.cachedMetadata]
          refine wp_outcome_mono (copyCached_spec hdense hothers hx.backed hholds) ?_
            (fun _ h => h.elim)
          rintro _ z ⟨hz, hcount, hnew⟩
          refine ⟨_, .saved hkind hview ?_ ?_, hz, hcount.trans hx.handles, ?_⟩
          · split at hlen <;> omega
          · change truncLen ≤ (data.length : ℤ)
            split at hlen <;> omega
          · rw [viewOf_take metadata hlen (by omega) (by omega)] at hnew
            exact hnew

/-! ## Saving -/

/-- Storing a blob, which may be refused or fail. -/
theorem storeBlob_spec {s : NameStore} {fault : Option GoErr} (hs : Referenced E.toEncoding held holders s)
    (data : Bytes) :
    wp (writing readOnly (failing fault (addDataBlock E data))) (post
      (fun addr t => addr = E.sum data ∧ Referenced E.toEncoding (addr ::ₘ held) holders t ∧
        t.rootAddr = s.rootAddr) (fun t => t = s)) s := by
  refine writing_spec ?_ rfl
  cases fault with
  | some e => rfl
  | none => exact wp_post_mono (hs.addDataBlock_spec data) (fun _ _ h => h) (fun _ h => h.elim)

theorem Backed.storedBlob {s t : NameStore} {addr : BlobAddr} (hdense : E.sparse = false)
    (h : Backed E path held holders saved x)
    (hs : Referenced E.toEncoding (cachedRefs x.node + held) holders s)
    (hpath : Shown E path s saved)
    (ht : Referenced E.toEncoding (addr ::ₘ (cachedRefs x.node + held)) holders t)
    (hroot : t.rootAddr = s.rootAddr) :
    Backed E path (addr ::ₘ held) holders saved { x with store := t } := by
  apply h.withStore
  · rw [Multiset.add_cons]
    exact ht
  · exact hpath.congr (resolvedAddr_of_rootAddr hdense hs.inv ht.inv hroot path)

/-- What the body of `flush` ends with: the volume and the node have the file, or the node has
nothing. -/
abbrev SavedOr (E : Env) (path : GoString) (held holders : Multiset BlobAddr)
    (saved : Option FileView) (content : Bytes) (metadata : GNodeMetadata) (count : ℤ) :
    Except FileStop Unit → FileState → Prop :=
  outcome
    (fun _ y => Backed E path held holders (some (viewOf content metadata)) y ∧
      y.node.refCount = count ∧
      HoldsCached E.toEncoding (some (viewOf content metadata)) y.node content metadata)
    (fun y => Backed E path held holders saved y ∧ y.node.refCount = count ∧
      y.node.cachedFile = none)

/-- The references to the two blobs are given back. -/
theorem deferRelease_savedOr {addr : BlobAddr} {content : Bytes} {metadata : GNodeMetadata}
    {count : ℤ} {body : FileOp Unit} (hdense : E.sparse = false) (hothers : Aside E path others)
    (h : wp body (SavedOr E path (addr ::ₘ held) holders saved content metadata count) x) :
    wp (deferring (volume others (releaseBlob E addr)) body)
      (SavedOr E path held holders saved content metadata count) x := by
  refine wp_deferring (wp_outcome_mono h ?_ ?_)
  · rintro _ y ⟨hy, hcount, hholds⟩
    refine wp_outcome_mono (releaseBlob_backed hdense hothers hy) ?_ (fun _ h => h)
    rintro _ z ⟨t, rfl, hz⟩
    exact ⟨hz, hcount, hholds⟩
  · rintro y ⟨hy, hcount, hcached⟩
    refine wp_outcome_mono (releaseBlob_backed hdense hothers hy) ?_ (fun _ h => h)
    rintro _ z ⟨t, rfl, hz⟩
    exact ⟨hz, hcount, hcached⟩

/-- The link makes the file what the volume shows. -/
theorem linkTmpFile_spec {content : Bytes} {metadata : GNodeMetadata} (hdense : E.sparse = false)
    (hH : H.ReadOnly E.toEncoding) (hothers : Aside E path others) (hpath : MountPath path)
    (hx : Backed E path (E.sum (E.marshalMetadata metadata) ::ₘ E.sum content ::ₘ held) holders
      saved x) (hcached : x.node.cachedFile = none)
    (hknown : metadata.type = .file ∨ metadata.type = .directory)
    (hcontent : metadata.contentHash = E.sum content) :
    wp (linkTmpFile E H readOnly others (E.sum content) (E.sum (E.marshalMetadata metadata)) metadata)
      (SavedOr E path (E.sum (E.marshalMetadata metadata) ::ₘ E.sum content ::ₘ held) holders saved
        content metadata x.node.refCount) x := by
  unfold linkTmpFile
  rw [wp_get_bind, hx.atPath]
  refine wp_onVolume_bind hothers hx.store hx.shown fun s hs hshown => ?_
  refine writing_spec ?_ fun e => ⟨hx.withStore hs hshown, rfl, hcached⟩
  refine wp_post_mono (multiLink_shown hdense hH hpath hs (E.isCid_sum _)) ?_ ?_
  swap
  · rintro t ⟨ht, hroot⟩ e
    refine ⟨hx.withStore ht (hshown.congr ?_), rfl, hcached⟩
    exact resolvedAddr_of_rootAddr hdense hs.inv ht.inv hroot path
  rintro response t ⟨ht, haddr⟩
  simp only
  rw [wp_setNode_bind]
  have hnew : Shown E path t (some (viewOf content metadata)) := by
    refine ⟨_, metadata, content, haddr, ⟨_, rfl, ?_⟩, hcontent.symm, rfl⟩
    exact E.unmarshalMetadata_marshalMetadata metadata hknown
  rw [cachedRefs, hcached, Option.elim_none, zero_add] at ht
  have htake : wp (volume others (takeBlob (E.sum content))) (outcome (fun _ y => ∃ u, y = { x with
        node := { x.node with cachedFile := some (E.sum content) }, store := u } ∧
      Backed E path (E.sum (E.marshalMetadata metadata) ::ₘ E.sum content ::ₘ held) holders
        (some (viewOf content metadata)) y) fun _ => False)
      { x with node := { x.node with cachedFile := some (E.sum content) }, store := t } := by
    refine volume_spec hothers ht hnew fun u hu hpath' => ?_
    have hsound := hu.sound
    rw [Multiset.cons_swap] at hsound
    obtain ⟨-, file, hfile, -⟩ := readAll_held hsound rfl
    refine wp_post_mono (takeBlob_spec hu hfile) ?_ (fun _ h => h)
    rintro _ v ⟨hv, hroot⟩
    refine ⟨v, rfl, hx.atPath, hx.inPlace, ?_, hpath'.congr ?_⟩
    · change Referenced E.toEncoding ({E.sum content} + _) holders v
      rw [Multiset.singleton_add]
      exact hv
    · exact resolvedAddr_of_rootAddr hdense hu.inv hv.inv hroot path
  refine wp_outcome_bind htake ?_ (fun _ h => h.elim)
  rintro _ y ⟨u, rfl, hy⟩
  rw [wp_setNode_bind]
  refine ⟨⟨hy.atPath, hy.inPlace, hy.store, hy.shown⟩, rfl, ?_⟩
  exact ⟨congrArg some hcontent.symm, rfl, rfl, hcontent.symm, hknown, rfl⟩

/-- The metadata that `flush` writes. -/
def flushedMetadata (E : Encoding) (content : Bytes) (metadata : GNodeMetadata) : GNodeMetadata :=
  { metadata with contentHash := E.sum content, size := Int64.ofNat content.length }

/-- The body of `flush`. -/
theorem saveTmpFile_spec {content : Bytes} {metadata : GNodeMetadata} {view : FileView}
    (hdense : E.sparse = false) (hH : H.ReadOnly E.toEncoding) (hothers : Aside E path others)
    (hpath : MountPath path) (hx : Backed E path held holders saved x)
    (hholds : HoldsTmp x.node content metadata view) :
    wp (saveTmpFile E H readOnly others host content)
      (SavedOr E path held holders saved content (flushedMetadata E.toEncoding content metadata)
        x.node.refCount) x := by
  unfold saveTmpFile
  rw [wp_get_bind, if_neg (by simp [hx.inPlace])]
  split
  next => exact ⟨hx, rfl, hholds.cachedFile⟩
  next =>
    refine wp_onVolume_bind hothers hx.store hx.shown fun s hs hshown => ?_
    refine wp_post_mono (storeBlob_spec hs content) ?_ ?_
    swap
    · rintro t rfl e
      exact ⟨hx.withStore hs hshown, rfl, hholds.cachedFile⟩
    rintro _ t ⟨rfl, ht, hroot⟩
    have hstored := hx.storedBlob hdense hs hshown ht hroot
    refine deferRelease_savedOr hdense hothers ?_
    rw [wp_get_bind]
    simp only [hholds.tmpMetadata]
    rw [wp_setNode_bind]
    have hset := hstored.withNode { x.node with
      tmpMetadata := some (flushedMetadata E.toEncoding content metadata) } rfl rfl rfl
    refine wp_onVolume_bind hothers hset.store hset.shown fun u hu hshown' => ?_
    refine wp_post_mono (storeBlob_spec hu _) ?_ ?_
    swap
    · rintro v rfl e
      exact ⟨hset.withStore hu hshown', rfl, hholds.cachedFile⟩
    rintro _ v ⟨rfl, hv, hroot'⟩
    refine deferRelease_savedOr hdense hothers ?_
    exact linkTmpFile_spec hdense hH hothers hpath (hset.storedBlob hdense hu hshown' hv hroot')
      hholds.cachedFile hholds.known rfl

/-- What `flush` defers, after the file is saved. -/
theorem closeTmpFile_saved {content : Bytes} {metadata : GNodeMetadata}
    (hothers : Aside E path others) (hx : Backed E path held holders saved x)
    (hholds : HoldsCached E.toEncoding saved x.node content metadata) :
    wp (closeTmpFile others host) (outcome (fun _ y => Backed E path held holders saved y ∧
      y.node.refCount = x.node.refCount ∧ (Holds E.toEncoding y saved .clean ∨
        host.Faulty ∧ Holds E.toEncoding y saved .stuck)) fun _ => False) x := by
  unfold closeTmpFile
  rw [wp_setNode_bind, wp_get_bind]
  split
  swap
  next hnone => cases hholds.cachedFile.symm.trans hnone
  next addr haddr =>
    have hsum : E.sum content = addr :=
      hholds.content.trans (Option.some.inj (hholds.cachedFile.symm.trans haddr))
    refine wp_outcome_bind (openReader_spec hothers (hx.withNode _ rfl rfl rfl) haddr hsum) ?_
      (fun _ h => h.elim)
    rintro result z ⟨hz, -, -, hnode⟩
    have hcount : z.node.refCount = x.node.refCount := by rw [hnode]
    have hopen : Holds E.toEncoding z saved .clean ∨
        host.Faulty ∧ Holds E.toEncoding z saved .stuck := by
      cases hfault : host.reopen with
      | none =>
          rw [hfault, if_pos rfl] at hnode
          refine .inl ⟨content, metadata, ?_, by rw [hnode]⟩
          rw [hnode]
          exact { hholds with tmpFile := rfl }
      | some e =>
          rw [hfault, if_neg (by simp)] at hnode
          refine .inr ⟨faulty_of_ne (fun _ => rfl) hfault, ?_⟩
          change z.node.cachedFile ≠ none ∧ z.node.tmpFile = none ∧ z.node.openFile = some .invalid
          rw [hnode]
          refine ⟨?_, rfl, rfl⟩
          change x.node.cachedFile ≠ none
          rw [hholds.cachedFile]
          exact Option.some_ne_none _
    exact ⟨hz, hcount, hopen⟩

/-- What `flush` defers, after the edits are lost. -/
theorem closeTmpFile_lost (hx : Backed E path held holders saved x)
    (hcached : x.node.cachedFile = none) :
    wp (closeTmpFile others host) (outcome (fun _ y => Backed E path held holders saved y ∧
      y.node.refCount = x.node.refCount ∧ Holds E.toEncoding y saved .closed) fun _ => False) x := by
  unfold closeTmpFile
  rw [wp_setNode_bind, wp_get_bind]
  split
  next addr haddr => cases hcached.symm.trans haddr
  next => exact ⟨hx.withNode _ rfl rfl rfl, rfl, hcached, rfl, rfl⟩

/-- What a node has of the file after `flush`. -/
theorem flush_spec (hdense : E.sparse = false) (hH : H.ReadOnly E.toEncoding)
    (hothers : Aside E path others) (hpath : MountPath path) (hx : Stands E path held holders x m) :
    wp (flush E H readOnly others host) (outcome
      (fun _ y => ∃ m', Saves host.Faulty m true m' ∧ Stands E path held holders y m')
      (fun y => ∃ m', Saves host.Faulty m false m' ∧ Stands E path held holders y m')) x := by
  have hedits := hx.edits
  unfold flush
  rw [wp_get_bind]
  cases hkind : m.edits with
  | closed =>
      rw [hkind] at hedits
      rw [if_pos hedits.2.2]
      exact ⟨m, .nothing (by simp [hkind]), hx⟩
  | clean =>
      rw [hkind] at hedits
      obtain ⟨data, metadata, hholds, hopen⟩ := hedits
      rw [hopen, if_neg (by simp), hholds.tmpFile]
      exact ⟨m, .nothing (by simp [hkind]), hx⟩
  | stuck =>
      rw [hkind] at hedits
      obtain ⟨-, htmp, hopen⟩ := hedits
      rw [hopen, if_neg (by simp), htmp]
      exact ⟨m, .nothing (by simp [hkind]), hx⟩
  | unsaved view =>
      rw [hkind] at hedits
      obtain ⟨⟨content, metadata, hholds⟩, -⟩ := hedits
      rw [hholds.openFile, if_neg (by simp), hholds.tmpFile]
      have hview : view = viewOf content (flushedMetadata E.toEncoding content metadata) :=
        hholds.view
      refine wp_deferring (wp_outcome_mono
        (saveTmpFile_spec hdense hH hothers hpath hx.backed hholds) ?_ ?_)
      · rintro _ y ⟨hy, hcount, hcached⟩
        rw [← hview] at hy hcached
        refine wp_outcome_mono (closeTmpFile_saved hothers hy hcached) ?_ (fun _ h => h)
        rintro _ z ⟨hz, hsame, hopen | ⟨hfaulty, hopen⟩⟩
        · exact ⟨_, .saved hkind, hz, (hsame.trans hcount).trans hx.handles, hopen⟩
        · exact ⟨_, .savedStuck hkind hfaulty, hz, (hsame.trans hcount).trans hx.handles, hopen⟩
      · rintro y ⟨hy, hcount, hcached⟩
        refine wp_outcome_mono (closeTmpFile_lost hy hcached) ?_ (fun _ h => h)
        rintro _ z ⟨hz, hsame, hclosed⟩
        exact ⟨_, .lost hkind, hz, (hsame.trans hcount).trans hx.handles, hclosed⟩

/-- The reference to the cached file is given back. -/
theorem releaseCachedFile_spec (hdense : E.sparse = false) (hothers : Aside E path others)
    (hx : Backed E path held holders saved x) :
    wp (releaseCachedFile E others) (outcome (fun _ y => Backed E path held holders saved y ∧
      ∃ t, y = { x with node := { x.node with cachedFile := none }, store := t })
      fun _ => False) x := by
  unfold releaseCachedFile
  rw [wp_get_bind]
  have hstore := hx.store
  split
  next addr haddr =>
    rw [cachedRefs, haddr, Option.elim_some, Multiset.singleton_add] at hstore
    have hrelease : wp (volume others (releaseBlob E addr)) (outcome (fun _ y =>
        ∃ t, y = { x with store := t } ∧ Referenced E.toEncoding held holders t ∧
          Shown E path t saved) fun _ => False) x := by
      refine volume_spec hothers hstore hx.shown fun s hs hpath => ?_
      refine wp_post_mono hs.releaseBlob_spec ?_ (fun _ h => h)
      rintro _ t ⟨ht, hroot⟩
      exact ⟨t, rfl, ht, hpath.congr (resolvedAddr_of_rootAddr hdense hs.inv ht.inv hroot path)⟩
    refine wp_outcome_bind hrelease ?_ (fun _ h => h.elim)
    rintro _ y ⟨t, rfl, ht, hpath⟩
    refine ⟨⟨hx.atPath, hx.inPlace, ?_, hpath⟩, t, rfl⟩
    change Referenced E.toEncoding (0 + held) holders t
    rw [zero_add]
    exact ht
  next hnone =>
    refine ⟨hx, x.store, ?_⟩
    obtain ⟨⟨nodePath, count, tmp, tmpMetadata, cached, cachedMetadata, openFile, dangling⟩, _, _⟩ := x
    cases hnone
    rfl

/-- A node without a temporary file has no open file after it is closed. -/
theorem closeOpenFile_spec (hx : Backed E path held holders saved x) (htmp : x.node.tmpFile = none) :
    wp (closeOpenFile host) (outcome
      (fun _ y => x.node.openFile ≠ some .invalid ∧ Backed E path held holders saved y ∧
        y.node = { x.node with openFile := none })
      (fun y => (x.node.openFile = some .invalid ∨ host.Faulty) ∧
        Backed E path held holders saved y ∧ y.node = { x.node with openFile := none })) x := by
  have hclosed := hx.withNode { x.node with openFile := none } rfl rfl rfl
  unfold closeOpenFile
  rw [wp_get_bind]
  split
  next content hsome => cases htmp.symm.trans hsome
  next =>
    split
    next hnone =>
      refine ⟨by rw [hnone]; simp, hx, ?_⟩
      change x.node = { x.node with openFile := none }
      rw [← hnone]
    next openFile hopen =>
      rw [wp_setNode_bind]
      split
      next hinvalid => exact ⟨.inl (hinvalid ▸ hopen), hclosed, rfl⟩
      next hvalid =>
        have hne : x.node.openFile ≠ some .invalid := by
          rw [hopen]
          exact fun h => hvalid (Option.some.inj h)
        unfold check
        split
        next e he => exact ⟨.inr (faulty_of_ne (fun _ => rfl) he), hclosed, rfl⟩
        next => exact ⟨hne, hclosed, rfl⟩

/-- What a node has after `finalize`. -/
theorem finalize_spec (hdense : E.sparse = false) (hothers : Aside E path others)
    (hx : Stands E path held holders x m) (hsaved : ∀ view, m.edits ≠ .unsaved view) :
    wp (finalize E others host) (outcome
      (fun _ y => m.edits ≠ .stuck ∧ y.node.refCount = x.node.refCount ∧
        Backed E path held holders m.saved y ∧ Holds E.toEncoding y m.saved .closed)
      (fun y => (m.edits = .stuck ∨ host.Faulty) ∧ y.node.refCount = x.node.refCount ∧
        Backed E path held holders m.saved y ∧ Holds E.toEncoding y m.saved .closed)) x := by
  have hopen : x.node.tmpFile = none ∧ (x.node.openFile = some .invalid ↔ m.edits = .stuck) := by
    have hedits := hx.edits
    cases hkind : m.edits with
    | unsaved view => exact absurd hkind (hsaved view)
    | closed =>
        rw [hkind] at hedits
        rw [hedits.2.2]
        exact ⟨hedits.2.1, by simp⟩
    | clean =>
        rw [hkind] at hedits
        obtain ⟨data, metadata, hholds, hblob⟩ := hedits
        rw [hblob]
        exact ⟨hholds.tmpFile, by simp⟩
    | stuck =>
        rw [hkind] at hedits
        rw [hedits.2.2]
        exact ⟨hedits.2.1, by simp⟩
  unfold finalize
  refine wp_outcome_bind (releaseCachedFile_spec hdense hothers hx.backed) ?_ (fun _ h => h.elim)
  rintro _ y ⟨hy, t, rfl⟩
  refine wp_outcome_mono (closeOpenFile_spec hy hopen.1) ?_ ?_
  · rintro _ z ⟨hvalid, hz, hnode⟩
    refine ⟨fun hstuck => hvalid (hopen.2.mpr hstuck), by rw [hnode], hz, ?_⟩
    change z.node.cachedFile = none ∧ z.node.tmpFile = none ∧ z.node.openFile = none
    rw [hnode]
    exact ⟨rfl, hopen.1, rfl⟩
  · rintro z ⟨hstop, hz, hnode⟩
    refine ⟨hstop.imp_left hopen.2.mp, by rw [hnode], hz, ?_⟩
    change z.node.cachedFile = none ∧ z.node.tmpFile = none ∧ z.node.openFile = none
    rw [hnode]
    exact ⟨rfl, hopen.1, rfl⟩

/-! ## Calls -/

/-- A call of the kernel. -/
def perform (E : Env) (H : Hooks) (readOnly : Bool) (others : Op Unit) (host : Host) :
    FileCall → FileOp FileReply
  | .openFile flags => do
      let handle ← openFile E others host flags
      pure (.handle handle)
  | .read off len => do
      let data ← readFile E others host off len
      pure (.bytes data)
  | .write handle data off => do
      let n ← writeFile E readOnly others host handle data off
      pure (.count n)
  | .setattr attrs => do
      setattr E H readOnly others host attrs
      pure .done
  | .fsync => do
      flush E H readOnly others host
      pure .done
  | .flush => do
      flush E H readOnly others host
      pure .done
  | .release => do
      release E H readOnly others host
      pure .done

/-- The call does what the abstract file may do. -/
abbrev Matches (E : Env) (readOnly : Bool) (path : GoString) (held holders : Multiset BlobAddr)
    (m : FileModel) (host : Host) (call : FileCall) (result : Except FileStop FileReply)
    (y : FileState) : Prop :=
  ∃ m', FileStep E.rfc3339 readOnly m ⟨host, call, result⟩ m' ∧ Stands E path held holders y m'

/-- From a call that returns a value or an error number. -/
theorem wp_matches {α : Type} {body : FileOp α} (reply : α → FileReply) {call : FileCall}
    {P : α → FileState → Prop} {Q : FileState → Prop} (h : wp body (outcome P Q) x)
    (hok : ∀ a y, P a y → Matches E readOnly path held holders m host call (.ok (reply a)) y)
    (herr : ∀ e y, Q y → Matches E readOnly path held holders m host call (.error (.errno e)) y) :
    wp (do let a ← body; pure (reply a)) (Matches E readOnly path held holders m host call) x := by
  refine wp_bind h ?_ ?_
  · exact hok
  · rintro (_ | _ | _) y hpost
    · exact herr _ y hpost
    · exact hpost.elim
    · exact hpost.elim

theorem Loads.edits_ne {faulty : Prop} (h : Loads faulty m true m') : m'.edits ≠ .closed := by
  cases h with
  | already h => exact h
  | found h hsaved => simp

theorem Loads.handles {faulty found : _} (h : Loads faulty m found m') : m'.handles = m.handles := by
  cases h <;> rfl

/-- What is held is not about how often the node is open. -/
theorem Holds.withCount {E : Encoding} {edits : Edits} (h : Holds E x saved edits) (count : ℤ) :
    Holds E { x with node := { x.node with refCount := count } } saved edits := by
  cases edits with
  | closed => exact h
  | stuck => exact h
  | clean =>
      obtain ⟨data, metadata, hholds, hopen⟩ := h
      exact ⟨data, metadata, { hholds with }, hopen⟩
  | unsaved view =>
      obtain ⟨⟨content, metadata, hholds⟩, hdirty⟩ := h
      exact ⟨⟨content, metadata, { hholds with }⟩, hdirty⟩

theorem Stands.withCount (hx : Stands E path held holders x m) (shift : ℤ) :
    Stands E path held holders
      { x with node := { x.node with refCount := x.node.refCount + shift } }
      { m with handles := m.handles + shift } :=
  ⟨hx.backed.withNode _ rfl rfl rfl, congrArg (· + shift) hx.handles, hx.edits.withCount _⟩

theorem openFile_matches (hdense : E.sparse = false) (hothers : Aside E path others)
    (hpath : MountPath path) (hx : Stands E path held holders x m) (flags : UInt32) :
    wp (perform E H readOnly others host (.openFile flags))
      (Matches E readOnly path held holders m host (.openFile flags)) x := by
  have hbody : wp (openFile E others host flags) (outcome
      (fun handle y => handle = handleOf flags ∧ ∃ m', (m.handles ≠ 0 ∧ m' = m ∨
        m.handles = 0 ∧ Loads host.Faulty m true m') ∧
        Stands E path held holders y { m' with handles := m'.handles + 1 })
      (fun y => m.handles = 0 ∧ ∃ m', Loads host.Faulty m false m' ∧
        Stands E path held holders y m')) x := by
    unfold openFile
    rw [wp_get_bind]
    split
    next hzero =>
      refine wp_outcome_bind (openCachedFile_spec hdense hothers hpath hx) ?_ ?_
      · rintro _ y ⟨m', hload, hy⟩
        exact ⟨rfl, m', .inr ⟨hx.handles ▸ hzero, hload⟩, hy.withCount 1⟩
      · rintro y ⟨m', hload, hy⟩
        exact ⟨hx.handles ▸ hzero, m', hload, hy⟩
    next hmore => exact ⟨rfl, m, .inl ⟨hx.handles ▸ hmore, rfl⟩, hx.withCount 1⟩
  refine wp_matches .handle hbody ?_ ?_
  · rintro _ y ⟨rfl, m', ⟨hmore, rfl⟩ | ⟨hzero, hload⟩, hy⟩
    · exact ⟨_, .openMore flags hmore, hy⟩
    · exact ⟨_, .openFirst flags hzero hload, hy⟩
  · rintro e y ⟨hzero, m', hload, hy⟩
    exact ⟨m', .openFails flags hzero hload e, hy⟩

/-- What is read from the open file. -/
theorem seekOpenFile_spec (hx : Stands E path held holders x m) (hopen : m.edits ≠ .closed) :
    wp (seekOpenFile host) (outcome
      (fun data y => y = x ∧ ∃ view, m.current = some view ∧ view.contents = ofList data)
      (fun y => y = x ∧ (m.edits = .stuck ∨ host.Faulty))) x := by
  have hedits := hx.edits
  unfold seekOpenFile
  rw [wp_get_bind]
  cases hkind : m.edits with
  | closed => exact absurd hkind hopen
  | clean =>
      rw [hkind] at hedits
      obtain ⟨data, metadata, hholds, hblob⟩ := hedits
      rw [hblob]
      refine wp_check_bind ⟨rfl, viewOf data metadata, ?_, rfl⟩
        fun e he => ⟨rfl, .inr (faulty_of_ne (fun _ => rfl) he)⟩
      rw [FileModel.current, hkind]
      exact hholds.shown
  | stuck =>
      rw [hkind] at hedits
      rw [hedits.2.2]
      exact ⟨rfl, .inl rfl⟩
  | unsaved view =>
      rw [hkind] at hedits
      obtain ⟨⟨content, metadata, hholds⟩, -⟩ := hedits
      rw [hholds.openFile]
      refine wp_check_bind ⟨rfl, view, ?_, ?_⟩
        fun e he => ⟨rfl, .inr (faulty_of_ne (fun _ => rfl) he)⟩
      · rw [FileModel.current, hkind]
      · rw [hholds.tmpFile, hholds.view]
        rfl

theorem read_matches (hdense : E.sparse = false) (hothers : Aside E path others)
    (hpath : MountPath path) (hx : Stands E path held holders x m) (off : ℤ) (len : ℕ) :
    wp (perform E H readOnly others host (.read off len))
      (Matches E readOnly path held holders m host (.read off len)) x := by
  have hbody : wp (readFile E others host off len) (outcome
      (fun data y => 0 ≤ off ∧ ∃ m' view, Loads host.Faulty m true m' ∧ m'.current = some view ∧
        data = view.contents.read off.toNat len ∧ Stands E path held holders y m')
      (fun y => ∃ m', (Loads host.Faulty m false m' ∨ Loads host.Faulty m true m' ∧
        (off < 0 ∨ m'.edits = .stuck ∨ host.Faulty)) ∧ Stands E path held holders y m')) x := by
    unfold readFile
    refine wp_outcome_bind (openCachedFile_spec hdense hothers hpath hx) ?_ ?_
    swap
    · rintro y ⟨m', hload, hy⟩
      exact ⟨m', .inl hload, hy⟩
    rintro _ y ⟨m', hload, hy⟩
    split
    next hneg => exact ⟨m', .inr ⟨hload, .inl hneg⟩, hy⟩
    next hpos =>
      refine wp_outcome_bind (seekOpenFile_spec hy hload.edits_ne) ?_ ?_
      swap
      · rintro _ ⟨rfl, hstop⟩
        exact ⟨m', .inr ⟨hload, .inr hstop⟩, hy⟩
      rintro data _ ⟨rfl, view, hview, hdata⟩
      refine wp_check_bind ?_ fun e he =>
        ⟨m', .inr ⟨hload, .inr (.inr (faulty_of_ne (fun _ => rfl) he))⟩, hy⟩
      refine ⟨by omega, m', view, hload, hview, ?_, hy⟩
      rw [hdata, slice_eq_read]
  refine wp_matches .bytes hbody ?_ ?_
  · rintro _ y ⟨hoff, m', view, hload, hview, rfl, hy⟩
    exact ⟨m', .read len hload hview hoff, hy⟩
  · rintro e y ⟨m', hload | ⟨hload, hstop⟩, hy⟩
    · exact ⟨m', .readFails off len hload e, hy⟩
    · exact ⟨m', .readStops off len hload hstop e, hy⟩

/-! ## Writing -/

theorem Starts.exists_unsaved {faulty : Prop} {truncLen : ℤ} (h : Starts faulty truncLen m true m') :
    ∃ view, m'.edits = .unsaved view := by
  cases h <;> exact ⟨_, rfl⟩

/-- The temporary file has been written to. -/
theorem Stands.withTmpFile {view view' : FileView} (hx : Stands E path held holders x m)
    (hkind : m.edits = .unsaved view) (f : Bytes → Bytes)
    (hview : ∀ content metadata, view = viewOf content metadata →
      view' = viewOf (f content) metadata) :
    Stands E path held holders
      { x with node := { x.node with tmpFile := x.node.tmpFile.map f } }
      { m with edits := .unsaved view' } := by
  have hedits := hx.edits
  rw [hkind] at hedits
  obtain ⟨⟨content, metadata, hholds⟩, hdirty⟩ := hedits
  refine ⟨hx.backed.withNode _ rfl rfl rfl, hx.handles, ⟨f content, metadata, ?_⟩, hdirty⟩
  exact { hholds with
    tmpFile := by rw [hholds.tmpFile]; rfl
    view := hview content metadata hholds.view }

/-- The metadata of the temporary file has been written to. -/
theorem Stands.withTmpMetadata {view view' : FileView} (hx : Stands E path held holders x m)
    (hkind : m.edits = .unsaved view) (f : GNodeMetadata → GNodeMetadata)
    (hview : ∀ content metadata, view = viewOf content metadata →
      view' = viewOf content (f metadata)) (htype : ∀ metadata, (f metadata).type = metadata.type) :
    Stands E path held holders
      { x with node := { x.node with tmpMetadata := x.node.tmpMetadata.map f } }
      { m with edits := .unsaved view' } := by
  have hedits := hx.edits
  rw [hkind] at hedits
  obtain ⟨⟨content, metadata, hholds⟩, hdirty⟩ := hedits
  refine ⟨hx.backed.withNode _ rfl rfl rfl, hx.handles, ⟨content, f metadata, ?_⟩, hdirty⟩
  exact { hholds with
    tmpMetadata := by rw [hholds.tmpMetadata]; rfl
    known := by rw [htype]; exact hholds.known
    view := hview content metadata hholds.view }

theorem faulty_of_writeAt {fault : ℕ × GoErr} (h : host.writeAt = some fault) : host.Faulty := by
  intro hhost
  rw [hhost] at h
  cases h

theorem written_viewOf (content data : Bytes) (metadata : GNodeMetadata) (off : ℤ) :
    (viewOf content metadata).written off data =
      viewOf (splice content off.toNat data) metadata := by
  rw [viewOf, viewOf, ofList_splice]
  rfl

theorem view_viewOf (rfc3339 : ℤ → GoString) (attrs : SetAttrIn) (content : Bytes)
    (metadata : GNodeMetadata) :
    attrs.view rfc3339 (viewOf content metadata) = viewOf content (attrs.apply rfc3339 metadata) := by
  unfold SetAttrIn.view SetAttrIn.apply
  cases attrs.modeChanged <;> cases attrs.timestampChanged <;> rfl

theorem type_apply (rfc3339 : ℤ → GoString) (attrs : SetAttrIn) (metadata : GNodeMetadata) :
    (attrs.apply rfc3339 metadata).type = metadata.type := by
  unfold SetAttrIn.apply
  cases attrs.modeChanged <;> cases attrs.timestampChanged <;> rfl

theorem write_matches (hdense : E.sparse = false) (hothers : Aside E path others)
    (hx : Stands E path held holders x m) (handle : Option FileHandle) (data : Bytes) (off : ℤ) :
    wp (perform E H readOnly others host (.write handle data off))
      (Matches E readOnly path held holders m host (.write handle data off)) x := by
  have hbody : wp (writeFile E readOnly others host handle data off) (outcome
      (fun n y => ¬ Unwritable readOnly handle ∧ 0 ≤ off ∧ n = .ofNat data.length ∧
        ∃ m' view, Starts host.Faulty (-1) m true m' ∧ m'.edits = .unsaved view ∧
          Stands E path held holders y { m' with
            edits := .unsaved ((view.written off data).stamped (E.rfc3339 host.now)) })
      (fun y => Unwritable readOnly handle ∧ y = x ∨ ¬ Unwritable readOnly handle ∧
        ((∃ m', Starts host.Faulty (-1) m false m' ∧ Stands E path held holders y m') ∨
          ∃ m' view n, Starts host.Faulty (-1) m true m' ∧ m'.edits = .unsaved view ∧
            (off < 0 ∧ n = 0 ∨ host.Faulty) ∧ Stands E path held holders y { m' with
              edits := .unsaved (view.written off (data.take n)) }))) x := by
    unfold writeFile
    split
    next hreadOnly => exact .inl ⟨.inl hreadOnly, rfl⟩
    next hwritable =>
      cases handle with
      | none => exact .inl ⟨.inr (fun h heq => by cases heq), rfl⟩
      | some handle =>
          simp only
          split
          next hreading =>
            refine .inl ⟨.inr fun h heq => ?_, rfl⟩
            cases heq
            exact hreading
          next hwriting =>
            have hallowed : ¬ Unwritable readOnly (some handle) := by
              rintro (h | h)
              · exact hwritable h
              · exact hwriting (h handle rfl)
            refine wp_outcome_bind (openTmpFile_spec hdense hothers (-1) hx) ?_ ?_
            swap
            · rintro y ⟨m', hstart, hy⟩
              exact .inr ⟨hallowed, .inl ⟨m', hstart, hy⟩⟩
            rintro _ y ⟨m', hstart, hy⟩
            obtain ⟨view, hkind⟩ := hstart.exists_unsaved
            have hsplice : ∀ written, Stands E path held holders
                { y with node := { y.node with
                  tmpFile := y.node.tmpFile.map fun content => splice content off.toNat written } }
                { m' with edits := .unsaved (view.written off written) } := by
              intro written
              refine hy.withTmpFile hkind _ fun content metadata hview => ?_
              rw [hview, written_viewOf]
            split
            next hneg =>
              refine .inr ⟨hallowed, .inr ⟨m', view, 0, hstart, hkind, .inl ⟨hneg, rfl⟩, ?_⟩⟩
              have hsame : view.written off (data.take 0) = view := by
                rw [List.take_zero, FileView.written, write_nil]
              rw [hsame, ← hkind]
              exact hy
            next hpos =>
              cases hfault : host.writeAt with
              | some fault =>
                  refine .inr ⟨hallowed, .inr ⟨m', view, fault.1, hstart, hkind, .inr ?_, ?_⟩⟩
                  · exact faulty_of_writeAt hfault
                  · exact hsplice (data.take fault.1)
              | none =>
                  refine ⟨hallowed, by omega, rfl, m', view, hstart, hkind, ?_⟩
                  refine (hsplice data).withTmpMetadata rfl _ (fun content metadata hview => ?_)
                    (fun _ => rfl)
                  rw [hview]
                  rfl
  refine wp_matches .count hbody ?_ ?_
  · rintro _ y ⟨hallowed, hoff, rfl, m', view, hstart, hkind, hy⟩
    exact ⟨_, .write hallowed hstart hkind hoff, hy⟩
  · rintro e y (⟨hrefused, rfl⟩ | ⟨hallowed, ⟨m', hstart, hy⟩ | ⟨m', view, n, hstart, hkind, hstop, hy⟩⟩)
    · exact ⟨m, .writeRefused data off hrefused e, hx⟩
    · exact ⟨m', .writeFails data off hallowed hstart e, hy⟩
    · exact ⟨_, .writeStops hallowed hstart hkind n hstop e, hy⟩

theorem setattr_matches (hdense : E.sparse = false) (hH : H.ReadOnly E.toEncoding)
    (hothers : Aside E path others) (hpath : MountPath path) (hx : Stands E path held holders x m)
    (attrs : SetAttrIn) :
    wp (perform E H readOnly others host (.setattr attrs))
      (Matches E readOnly path held holders m host (.setattr attrs)) x := by
  by_cases hchanges : attrs.Changes
  swap
  · have hnothing := hchanges
    simp only [SetAttrIn.Changes, not_or] at hnothing
    have hrun : setattr E H readOnly others host attrs x = (.ok (), x) := by
      unfold setattr
      rw [if_pos hnothing]
      rfl
    rw [perform, wp_bind_run hrun]
    exact ⟨m, .setattrNothing hchanges, hx⟩
  have hsomething : ¬ (¬ attrs.sizeChanged = true ∧ ¬ attrs.modeChanged = true ∧
      ¬ attrs.timestampChanged = true) := by
    rw [SetAttrIn.Changes] at hchanges
    tauto
  have hbody : wp (setattr E H readOnly others host attrs) (outcome
      (fun _ y => ∃ m₁ m₂ m₃ view, Loads host.Faulty m true m₁ ∧
        Starts host.Faulty attrs.truncLen m₁ true m₂ ∧ m₂.edits = .unsaved view ∧
        Saves host.Faulty { m₂ with edits := .unsaved (attrs.view E.rfc3339 view) } true m₃ ∧
        Stands E path held holders y m₃)
      (fun y => (∃ m₁, Loads host.Faulty m false m₁ ∧ Stands E path held holders y m₁) ∨
        ∃ m₁, Loads host.Faulty m true m₁ ∧
          ((∃ m₂, Starts host.Faulty attrs.truncLen m₁ false m₂ ∧
              Stands E path held holders y m₂) ∨
            ∃ m₂ m₃ view, Starts host.Faulty attrs.truncLen m₁ true m₂ ∧
              m₂.edits = .unsaved view ∧
              Saves host.Faulty { m₂ with edits := .unsaved (attrs.view E.rfc3339 view) } false
                m₃ ∧ Stands E path held holders y m₃))) x := by
    unfold setattr
    rw [if_neg hsomething]
    refine wp_outcome_bind (openCachedFile_spec hdense hothers hpath hx) ?_ fun y hy => .inl hy
    rintro _ y ⟨m₁, hload, hy⟩
    rw [wp_bind_iff]
    apply wp_attempt (openTmpFile_spec hdense hothers attrs.truncLen hy)
    rintro ((e | _ | _) | _) z hpost
    · obtain ⟨m₂, hstart, hz⟩ := hpost
      exact .inr ⟨m₁, hload, .inl ⟨m₂, hstart, hz⟩⟩
    · exact hpost.elim
    · exact hpost.elim
    · obtain ⟨m₂, hstart, hz⟩ := hpost
      obtain ⟨view, hkind⟩ := hstart.exists_unsaved
      have hset : Stands E path held holders
          { z with node := { z.node with
            tmpMetadata := z.node.tmpMetadata.map (attrs.apply E.rfc3339) } }
          { m₂ with edits := .unsaved (attrs.view E.rfc3339 view) } :=
        hz.withTmpMetadata hkind _ (fun content metadata hview => by rw [hview, view_viewOf])
          (type_apply E.rfc3339 attrs)
      rw [andThen_ok]
      simp only
      rw [wp_setNode_bind]
      refine wp_outcome_mono (flush_spec hdense hH hothers hpath hset) ?_ ?_
      · rintro _ u ⟨m₃, hsave, hu⟩
        exact ⟨m₁, m₂, m₃, view, hload, hstart, hkind, hsave, hu⟩
      · rintro u ⟨m₃, hsave, hu⟩
        exact .inr ⟨m₁, hload, .inr ⟨m₂, m₃, view, hstart, hkind, hsave, hu⟩⟩
  refine wp_matches (fun _ => .done) hbody ?_ ?_
  · rintro _ y ⟨m₁, m₂, m₃, view, hload, hstart, hkind, hsave, hy⟩
    exact ⟨m₃, .setattrSaves hchanges hload hstart hkind hsave .eio, hy⟩
  · rintro e y (⟨m₁, hload, hy⟩ | ⟨m₁, hload, ⟨m₂, hstart, hy⟩ |
      ⟨m₂, m₃, view, hstart, hkind, hsave, hy⟩⟩)
    · exact ⟨m₁, .setattrFails hchanges hload e, hy⟩
    · exact ⟨m₂, .setattrStops hchanges hload hstart e, hy⟩
    · exact ⟨m₃, .setattrSaves hchanges hload hstart hkind hsave e, hy⟩

/-! ## Flushing and closing -/

theorem fsync_matches (hdense : E.sparse = false) (hH : H.ReadOnly E.toEncoding)
    (hothers : Aside E path others) (hpath : MountPath path) (hx : Stands E path held holders x m) :
    wp (perform E H readOnly others host .fsync)
      (Matches E readOnly path held holders m host .fsync) x := by
  refine wp_matches (fun _ => .done) (flush_spec hdense hH hothers hpath hx) ?_ ?_
  · rintro _ y ⟨m', hsave, hy⟩
    exact ⟨m', .fsync hsave .eio, hy⟩
  · rintro e y ⟨m', hsave, hy⟩
    exact ⟨m', .fsync hsave e, hy⟩

theorem flush_matches (hdense : E.sparse = false) (hH : H.ReadOnly E.toEncoding)
    (hothers : Aside E path others) (hpath : MountPath path) (hx : Stands E path held holders x m) :
    wp (perform E H readOnly others host .flush)
      (Matches E readOnly path held holders m host .flush) x := by
  refine wp_matches (fun _ => .done) (flush_spec hdense hH hothers hpath hx) ?_ ?_
  · rintro _ y ⟨m', hsave, hy⟩
    exact ⟨m', .flush hsave .eio, hy⟩
  · rintro e y ⟨m', hsave, hy⟩
    exact ⟨m', .flush hsave e, hy⟩

theorem Saves.edits_ne {faulty : Prop} {saved : Bool} (h : Saves faulty m saved m') :
    ∀ view, m'.edits ≠ .unsaved view := by
  intro view
  cases h with
  | nothing h => exact h view
  | saved h => simp
  | savedStuck h hfault => simp
  | lost h => simp

/-- What a node has after `Release` once it has flushed. -/
theorem dropHandle_spec (hdense : E.sparse = false) (hothers : Aside E path others)
    (hx : Stands E path held holders x m) (hsaved : ∀ view, m.edits ≠ .unsaved view) :
    wp (dropHandle E others host) (outcome
      (fun _ y => m.handles ≠ 1 ∧ Stands E path held holders y { m with handles := m.handles - 1 } ∨
        m.handles = 1 ∧ m.edits ≠ .stuck ∧
          Stands E path held holders y { m with edits := .closed, handles := 0 })
      (fun y => m.handles = 1 ∧ (m.edits = .stuck ∨ host.Faulty) ∧
        Stands E path held holders y { m with edits := .closed, handles := 0 })) x := by
  have hdropped := hx.withCount (-1)
  unfold dropHandle
  rw [wp_setNode_bind, wp_get_bind]
  split
  next hzero =>
    change x.node.refCount - 1 = 0 at hzero
    have hlast : m.handles = 1 := by
      have hhandles := hx.handles
      omega
    refine wp_outcome_mono (finalize_spec hdense hothers hdropped hsaved) ?_ ?_
    · rintro _ y ⟨hopen, hcount, hy, hclosed⟩
      exact .inr ⟨hlast, hopen, hy, hcount.trans hzero, hclosed⟩
    · rintro y ⟨hstop, hcount, hy, hclosed⟩
      exact ⟨hlast, hstop, hy, hcount.trans hzero, hclosed⟩
  next hmore =>
    change ¬ x.node.refCount - 1 = 0 at hmore
    refine .inl ⟨?_, hdropped⟩
    have hhandles := hx.handles
    omega

theorem release_matches (hdense : E.sparse = false) (hH : H.ReadOnly E.toEncoding)
    (hothers : Aside E path others) (hpath : MountPath path) (hx : Stands E path held holders x m) :
    wp (perform E H readOnly others host .release)
      (Matches E readOnly path held holders m host .release) x := by
  -- what has become of the edits, and of the handle
  have hbody : wp (release E H readOnly others host) (outcome
      (fun _ y => ∃ m', Saves host.Faulty m true m' ∧
        (m'.handles ≠ 1 ∧ Stands E path held holders y { m' with handles := m'.handles - 1 } ∨
          m'.handles = 1 ∧ m'.edits ≠ .stuck ∧
            Stands E path held holders y { m' with edits := .closed, handles := 0 }))
      (fun y => ∃ m', Saves host.Faulty m true m' ∧ m'.handles = 1 ∧
          (m'.edits = .stuck ∨ host.Faulty) ∧
          Stands E path held holders y { m' with edits := .closed, handles := 0 } ∨
        Saves host.Faulty m false m' ∧
          (m'.handles ≠ 1 ∧ Stands E path held holders y { m' with handles := m'.handles - 1 } ∨
            m'.handles = 1 ∧ m'.edits ≠ .stuck ∧
              Stands E path held holders y { m' with edits := .closed, handles := 0 }))) x := by
    unfold release
    rw [wp_bind_iff]
    apply wp_attempt (flush_spec hdense hH hothers hpath hx)
    rintro ((e | _ | _) | _) y hpost
    · obtain ⟨m', hsave, hy⟩ := hpost
      have hclosed : m'.edits ≠ .stuck := by
        cases hsave
        simp
      refine wp_outcome_bind (dropHandle_spec hdense hothers hy hsave.edits_ne) ?_ ?_
      · rintro _ z hz
        exact ⟨m', .inr ⟨hsave, hz⟩⟩
      · rintro z ⟨hlast, -, hz⟩
        exact ⟨m', .inr ⟨hsave, .inr ⟨hlast, hclosed, hz⟩⟩⟩
    · exact hpost.elim
    · exact hpost.elim
    · obtain ⟨m', hsave, hy⟩ := hpost
      refine wp_outcome_mono (dropHandle_spec hdense hothers hy hsave.edits_ne) ?_ ?_
      · rintro _ z hz
        exact ⟨m', hsave, hz⟩
      · rintro z ⟨hlast, hstop, hz⟩
        exact ⟨m', .inl ⟨hsave, hlast, hstop, hz⟩⟩
  refine wp_matches (fun _ => .done) hbody ?_ ?_
  · rintro _ y ⟨m', hsave, ⟨hmore, hy⟩ | ⟨hlast, hopen, hy⟩⟩
    · exact ⟨_, .releaseSome hsave hmore .eio, hy⟩
    · exact ⟨_, .releaseLast hsave hlast hopen .eio, hy⟩
  · rintro e y ⟨m', ⟨hsave, hlast, hstop, hy⟩ | ⟨hsave, ⟨hmore, hy⟩ | ⟨hlast, hopen, hy⟩⟩⟩
    · exact ⟨_, .releaseStops hsave hlast hstop e, hy⟩
    · exact ⟨_, .releaseSome hsave hmore e, hy⟩
    · exact ⟨_, .releaseLast hsave hlast hopen e, hy⟩

/-! ## Runs -/

/-- A call that the node has answered while other goroutines left the path alone. -/
def Performs (E : Env) (H : Hooks) (readOnly : Bool) (path : GoString) (x : FileState)
    (answered : Answered) (y : FileState) : Prop :=
  ∃ others, Aside E path others ∧
    perform E H readOnly others answered.host answered.call x = (answered.result, y)

/-- Every call does what the abstract file may do. -/
theorem performs_simulates (hdense : E.sparse = false) (hH : H.ReadOnly E.toEncoding)
    (hpath : MountPath path) :
    Simulates (Performs E H readOnly path) (FileStep E.rfc3339 readOnly)
      (Stands E path held holders) := by
  rintro x m ⟨host, call, result⟩ y hx ⟨others, hothers, hrun⟩
  have hmatches : wp (perform E H readOnly others host call)
      (Matches E readOnly path held holders m host call) x := by
    cases call with
    | openFile flags => exact openFile_matches hdense hothers hpath hx flags
    | read off len => exact read_matches hdense hothers hpath hx off len
    | write handle data off => exact write_matches hdense hothers hx handle data off
    | setattr attrs => exact setattr_matches hdense hH hothers hpath hx attrs
    | fsync => exact fsync_matches hdense hH hothers hpath hx
    | flush => exact flush_matches hdense hH hothers hpath hx
    | release => exact release_matches hdense hH hothers hpath hx
  exact wp_of_run hmatches hrun

/-- A node that has just been looked up, of a volume that shows this at its path. -/
theorem stands_newGritsNode {s : NameStore} (hs : Referenced E.toEncoding held holders s)
    (hshown : Shown E path s saved) (dirtyNodes : Finset GoString) :
    Stands E path held holders ⟨newGritsNode path, dirtyNodes, s⟩ ⟨saved, .closed, 0⟩ := by
  refine ⟨⟨rfl, rfl, ?_, hshown⟩, rfl, rfl, rfl, rfl⟩
  change Referenced E.toEncoding (0 + held) holders s
  rw [zero_add]
  exact hs

/-- The volume shows something at every path, if only nothing. -/
theorem exists_shown {s : NameStore} (hdense : E.sparse = false) (hpath : MountPath path)
    (hs : Inv E.toEncoding holders s) : ∃ saved, Shown E path s saved := by
  cases haddr : resolvedAddr E path s with
  | none => exact ⟨none, haddr⟩
  | some addr =>
      have hwalk := (hs.resolvedAddr_eq hdense hpath.relative).symm.trans haddr
      obtain ⟨node, hnode⟩ := (hs.heldTree.walk hwalk).ready.cached
      obtain ⟨file, hfile⟩ := hs.sound.exists_content hnode
      refine ⟨some (viewOf file.data node.metadata), addr, node.metadata, file.data, haddr, ?_⟩
      exact ⟨(hs.sound.nodes addr node hnode).metadata, hs.sound.hashed _ file hfile, rfl⟩

end Mount

end Grits
