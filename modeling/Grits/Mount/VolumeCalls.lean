import Mathlib
import Grits.Mount.OpenFile
import Grits.Serving.NamespaceGet
import Grits.Server.ImportAtomic

/-!
# What a file of the mount gets from the volume

The file that the volume shows at a path, and what the calls of the volume do that are made on
behalf of an open file, while other goroutines leave that path alone.
-/

namespace Grits

namespace Mount

open Prog SlashPath PosixFile
open LocalTree (writing writing_spec not_linkedAll_none)
open Serving

variable {E : Env} {H : Hooks} {held holders : Multiset BlobAddr} {s t : NameStore}
  {path : GoString} {others : Op Unit}

/-! ## Views -/

/-- A file as its readers see it. -/
@[ext] structure FileView where
  contents : PosixFile UInt8
  type : GNodeType
  mode : UInt32
  timestamp : GoString

/-- The file with these bytes and this metadata. -/
def viewOf (data : Bytes) (metadata : GNodeMetadata) : FileView :=
  ⟨ofList data, metadata.type, metadata.mode, metadata.timestamp⟩

/-- The volume shows the file at the path, or nothing. -/
def Shown (E : Env) (path : GoString) (s : NameStore) : Option FileView → Prop
  | none => resolvedAddr E path s = none
  | some view => ∃ addr metadata data, resolvedAddr E path s = some addr ∧
      E.MetadataAt addr metadata ∧ E.sum data = metadata.contentHash ∧ view = viewOf data metadata

theorem Shown.congr {saved : Option FileView} (h : Shown E path s saved)
    (heq : resolvedAddr E path t = resolvedAddr E path s) : Shown E path t saved := by
  cases saved with
  | none => exact heq.trans h
  | some view =>
      obtain ⟨addr, metadata, data, haddr, hshown⟩ := h
      exact ⟨addr, metadata, data, heq.trans haddr, hshown⟩

/-- A volume shows one thing at a path. -/
theorem Shown.unique {saved saved' : Option FileView} (h : Shown E path s saved)
    (h' : Shown E path s saved') : saved = saved' := by
  cases saved with
  | none =>
      cases saved' with
      | none => rfl
      | some view' =>
          obtain ⟨addr, -, -, haddr, -⟩ := h'
          cases h.symm.trans haddr
  | some view =>
      obtain ⟨addr, metadata, data, haddr, hmetadata, hsum, rfl⟩ := h
      cases saved' with
      | none => cases haddr.symm.trans h'
      | some view' =>
          obtain ⟨addr', metadata', data', haddr', hmetadata', hsum', rfl⟩ := h'
          cases haddr.symm.trans haddr'
          obtain rfl := hmetadata.unique hmetadata'
          rw [E.sum_injective (hsum.trans hsum'.symm)]

/-- Paths lead where the root says. -/
theorem resolvedAddr_of_rootAddr {holders' : Multiset BlobAddr} (hdense : E.sparse = false)
    (hs : Inv E.toEncoding holders s) (ht : Inv E.toEncoding holders' t)
    (hroot : t.rootAddr = s.rootAddr) (path : GoString) :
    resolvedAddr E path t = resolvedAddr E path s := by
  cases hrooted : isRooted (trimRight path) with
  | true => rw [resolvedAddr_rooted hrooted, resolvedAddr_rooted hrooted]
  | false => rw [ht.resolvedAddr_eq hdense hrooted, hs.resolvedAddr_eq hdense hrooted, hroot]

/-! ## Other goroutines -/

/-- What other goroutines may do: they respect the references of all callers and leave the file at
the path as it is. -/
def Aside (E : Env) (path : GoString) (others : Op Unit) : Prop :=
  ∀ held holders s, Referenced E.toEncoding held holders s →
    wp others (post (fun _ t => Referenced E.toEncoding held holders t ∧
      resolvedAddr E path t = resolvedAddr E path s) (fun _ => False)) s

/-- Links elsewhere in the tree are such. -/
theorem aside_multiLink (hdense : E.sparse = false) (hH : H.ReadOnly E.toEncoding)
    {requests : List LinkRequest} (returnResults : Bool) (principal : PrincipalRef)
    (hreturns : ∀ s held holders, Referenced E.toEncoding held holders s →
      Returned (multiLink E H requests returnResults principal s).1)
    (helse : ∀ request ∈ requests, PathTree.Unrelated request.segments (components path)) :
    Aside E path (do let _ ← tryErr (multiLink E H requests returnResults principal)) := by
  intro held holders s hs
  have hlink : wp (multiLink E H requests returnResults principal) (post
      (fun _ t => Referenced E.toEncoding held holders t ∧
        resolvedAddr E path t = resolvedAddr E path s)
      (fun t => Referenced E.toEncoding held holders t ∧
        resolvedAddr E path t = resolvedAddr E path s)) s := by
    have hboth := wp_and (hs.multiLink_spec hdense hH requests returnResults principal)
      (multiLink_spec hdense hH hs.inv requests returnResults principal)
    have hreturned := hreturns s held holders hs
    unfold wp at hboth ⊢
    generalize multiLink E H requests returnResults principal s = result at hboth hreturned
    obtain ⟨(_ | _ | _ | _) | _, t⟩ := result
    · obtain ⟨ht, hends⟩ := hboth
      have hroot : t.rootAddr = s.rootAddr := hends.quiet.rootAddr
      exact ⟨ht trivial, resolvedAddr_of_rootAddr hdense hs.inv (ht trivial).inv hroot path⟩
    · exact hreturned.elim
    · exact hreturned.elim
    · exact hreturned.elim
    · obtain ⟨ht, -, hlinked, -⟩ := hboth
      refine ⟨ht trivial, ?_⟩
      cases hrooted : isRooted (trimRight path) with
      | true => rw [resolvedAddr_rooted hrooted, resolvedAddr_rooted hrooted]
      | false =>
          rw [(ht trivial).inv.resolvedAddr_eq hdense hrooted,
            hs.inv.resolvedAddr_eq hdense hrooted]
          refine (hlinked.updatedAll.walk_unrelated Encoding.reads_unique ?_
            (hs.inv.heldTree.wellFormedTree.exactAlong _)).1
          intro update hupdate
          obtain ⟨request, hrequest, rfl⟩ := List.mem_map.mp hupdate
          exact helse request hrequest
  have htry := wp_tryErr (S := fun _ => False)
    (R := fun _ t => Referenced E.toEncoding held holders t ∧
      resolvedAddr E path t = resolvedAddr E path s) hlink (fun _ _ h => h) (fun _ _ h => h)
  refine wp_post_bind htry ?_ (fun _ h => h)
  intro _ t ht
  exact ht

/-! ## Lookups -/

theorem MountPath.relative (h : MountPath path) : isRooted (trimRight path) = false := by
  rw [h.plain.trimRight_eq, h.plain.isRooted_eq]

theorem MountPath.settled_components (h : MountPath path) : Settled (components path) := by
  obtain ⟨names, hnames, rfl⟩ := h.exists_join
  rw [components_join (names_of_fileName hnames)]
  exact settled_of_fileName hnames

theorem placeEntry_error {E : Encoding} {label : GoString} {place : Place}
    (h : ∀ addr, place ≠ .node addr) : (E.placeEntry label place).error ≠ none := by
  cases place with
  | node addr => exact absurd rfl (h addr)
  | notFound => exact fun heq => by cases heq
  | notDir => exact fun heq => by cases heq

/-- What a lookup finds at a path of the mount is what the path leads to. -/
theorem MountPath.walk_of_finds {E : Encoding} (h : MountPath path) {root addr : BlobAddr}
    (hfinds : Finds E none root .backend path addr) :
    ∃ found, E.walk (some root) (components path) = some found := by
  obtain ⟨-, pair, hpair, herror, -, -⟩ := hfinds
  rw [h.plain.trimRight_eq, batch_of_settled h.settled_components,
    getLast?_entriesOf] at hpair
  cases hpair
  change (E.entryOf root (components path)).error = none at herror
  cases hwalk : E.walk (some root) (components path) with
  | some found => exact ⟨found, rfl⟩
  | none =>
      rw [Encoding.entryOf, Encoding.place, hwalk] at herror
      refine absurd herror (placeEntry_error ?_)
      intro other
      simp only
      split
      · exact fun heq => by cases heq
      · split
        · exact fun heq => by cases heq
        · exact fun heq => by cases heq

/-- `LookupNode` of a path of the mount that leads nowhere. -/
theorem lookupNode_missing (hdense : E.sparse = false) (hpath : MountPath path)
    (hs : Inv E.toEncoding holders s) (hwalk : E.walk (some s.rootAddr) (components path) = none) :
    ∃ e, isBlobMissing e = none ∧ lookupNode E [] path .backend s = (.error (.err e), s) := by
  have hcases := lookupNode_cases none hdense hs path .backend
  cases hcases with
  | inl hfound =>
      obtain ⟨addr, node, hfinds, -⟩ := hfound
      obtain ⟨found, hfound⟩ := hpath.walk_of_finds hfinds
      rw [hwalk] at hfound
      cases hfound
  | inr hnot => exact hnot.2

/-- `LookupNode` of a path of the mount: it finds what the volume shows there. -/
theorem lookupNode_shown (hdense : E.sparse = false) (hpath : MountPath path)
    (hs : Referenced E.toEncoding held holders s) :
    wp (lookupNode E [] path .backend) (ends
      (fun addr t => resolvedAddr E path s = some addr ∧ Cached t addr ∧
        Referenced E.toEncoding held (addr ::ₘ holders) t ∧ t.rootAddr = s.rootAddr)
      (fun e t => resolvedAddr E path s = none ∧ isBlobMissing e = none ∧ t = s)) s := by
  have haddr := hs.inv.resolvedAddr_eq hdense hpath.relative
  cases hwalk : E.walk (some s.rootAddr) (components path) with
  | some addr =>
      obtain ⟨node, hnode⟩ := (hs.inv.heldTree.walk hwalk).ready.cached
      have hrun := lookupNode_held hdense hs.inv hpath hwalk hnode
      obtain ⟨-, hsound, -, -⟩ := holding_spec hs.sound hdense hnode
      rw [wp, hrun]
      refine ⟨haddr.trans hwalk, ⟨_, holding_lookup s addr node⟩, ⟨hsound, ?_⟩, rfl⟩
      exact holding_inv hdense hs.inv hnode
  | none =>
      obtain ⟨e, he, hrun⟩ := lookupNode_missing hdense hpath hs.inv hwalk
      rw [wp, hrun]
      exact ⟨haddr.trans hwalk, he, rfl⟩

/-- Whatever the error is. -/
theorem lookupNode_found (hdense : E.sparse = false) (hpath : MountPath path)
    (hs : Referenced E.toEncoding held holders s) :
    wp (lookupNode E [] path .backend) (post
      (fun addr t => resolvedAddr E path s = some addr ∧ Cached t addr ∧
        Referenced E.toEncoding held (addr ::ₘ holders) t ∧ t.rootAddr = s.rootAddr)
      (fun t => resolvedAddr E path s = none ∧ t = s)) s := by
  rw [← ends_const]
  exact wp_ends_mono (lookupNode_shown hdense hpath hs) (fun _ _ h => h)
    (fun _ _ h => ⟨h.1, h.2.2⟩)

/-- With `FatalIfBlobMissing` on its error. -/
theorem fatalLookupNode_shown (hdense : E.sparse = false) (hpath : MountPath path)
    (hs : Referenced E.toEncoding held holders s) :
    wp (fatalIfBlobMissing (lookupNode E [] path .backend)) (post
      (fun addr t => resolvedAddr E path s = some addr ∧ Cached t addr ∧
        Referenced E.toEncoding held (addr ::ₘ holders) t ∧ t.rootAddr = s.rootAddr)
      (fun t => resolvedAddr E path s = none ∧ t = s)) s := by
  rw [← ends_const]
  refine wp_ends_catching (lookupNode_shown hdense hpath hs) (fun _ _ h => h) ?_
  rintro e t ⟨haddr, he, rfl⟩
  simp only [he]
  exact ⟨haddr, rfl⟩

/-! ## Blobs -/

/-- The content of a node that is loaded, with its metadata. -/
theorem exportedNode_run (hs : Sound E.toEncoding held s) {addr : BlobAddr} {node : FileNode}
    (hnode : s.fileCache.lookup addr = some node) :
    fatalIfBlobMissing (do exportedBlob addr; getNode addr) s = (.ok node, s) := by
  apply fatalIfBlobMissing_run
  rw [bind_run (exportedBlob_cached hs ⟨node, hnode⟩)]
  exact getNode_run hnode

/-- Another reference to a blob that is in the store. -/
theorem takeBlob_spec {addr : BlobAddr} {file : LocalCachedFile}
    (hs : Referenced E.toEncoding held holders s) (hfile : s.blobStore.lookup addr = some file) :
    wp (takeBlob addr) (post (fun _ t => Referenced E.toEncoding (addr ::ₘ held) holders t ∧
      t.rootAddr = s.rootAddr) (fun _ => False)) s := by
  have hrun : ∀ t, Grits.readFile addr s = (.ok file.data, t) → takeBlob addr s = (.ok (), t) := by
    intro t ht
    rw [Grits.readFile, bind_run (get_run s), hfile] at ht
    rw [takeBlob, bind_run (get_run s), hfile]
    exact congrArg (Prod.mk _) (congrArg Prod.snd ht)
  have hread := readFile_spec hs.sound addr
  have hresult : (Grits.readFile addr s).1 = .ok file.data := by
    rw [Grits.readFile, bind_run (get_run s), hfile]
    rfl
  rw [wp, run_eq hresult] at hread
  obtain ⟨ht, hst, -⟩ := hread
  rw [wp, hrun _ (run_eq hresult)]
  exact ⟨hs.moved ht hst.quiet, hst.quiet.rootAddr⟩

/-- A blob to which a reference is held can be read. -/
theorem readAll_held {addr : BlobAddr} {data : Bytes} (hs : Sound E.toEncoding (addr ::ₘ held) s)
    (hsum : E.sum data = addr) : readAll addr s = (.ok data, s) ∧
      ∃ file, s.blobStore.lookup addr = some file ∧ file.data = data := by
  obtain ⟨file, hfile, -⟩ := hs.exists_blob (show 0 < cacheRefs s addr + (addr ::ₘ held).count addr by simp)
  have hdata : file.data = data := E.sum_injective ((hs.hashed addr file hfile).trans hsum.symm)
  rw [readAll_run hfile, hdata]
  exact ⟨rfl, file, hfile, hdata⟩

/-! ## The link of a flush -/

/-- The path of a file of the mount is one that a link and a lookup take for the same place. -/
theorem MountPath.segments_eq (h : MountPath path) (addr : BlobAddr) :
    LinkRequest.segments ⟨path, addr, [], 0⟩ = components path := by
  apply LinkRequest.segments_of_agrees
  refine ⟨?_, ?_⟩
  · rw [h.plain.trimRight_eq]
    rintro rfl
    obtain ⟨names, hnames, heq⟩ := h.exists_join
    have hcomponents := components_join (names_of_fileName hnames)
    rw [← heq] at hcomponents
    have hdot : ['.'] ∈ names := by
      rw [← hcomponents]
      decide
    exact (hnames _ hdot).2.2.1 rfl
  · rw [h.plain.trimRight_eq]
    exact h.plain

/-- A link of a node at a path of the mount puts it there, or changes nothing. -/
theorem multiLink_shown (hdense : E.sparse = false) (hH : H.ReadOnly E.toEncoding)
    (hpath : MountPath path) (hs : Referenced E.toEncoding held holders s) {addr : BlobAddr}
    (haddr : IsCid addr) :
    wp (multiLink E H [⟨path, addr, [], 0⟩] false .backend) (post
      (fun _ t => Referenced E.toEncoding held holders t ∧ resolvedAddr E path t = some addr)
      (fun t => Referenced E.toEncoding held holders t ∧ t.rootAddr = s.rootAddr)) s := by
  have hne : addr ≠ [] := by
    rintro rfl
    exact not_isCid_nil haddr
  refine wp_mono (wp_and (hs.multiLink_spec hdense hH _ _ _)
    (multiLink_spec hdense hH hs.inv _ _ _)) ?_
  rintro ((_ | _ | _ | _) | _) t ⟨ht, hends⟩
  · exact ⟨ht trivial, hends.quiet.rootAddr⟩
  · exact absurd hends.2 (not_linkedAll_none hne)
  · exact absurd hends.2 (not_linkedAll_none hne)
  · exact absurd hends.2 (not_linkedAll_none hne)
  · obtain ⟨-, ⟨middle, hlinked, hmiddle⟩, -⟩ := hends
    refine ⟨ht trivial, ?_⟩
    have hupdated := hlinked.updated
    rw [LinkRequest.value_of_ne hne, hpath.segments_eq] at hupdated
    have hwalk := hupdated.walk_below (hs.inv.heldTree.wellFormedTree.exactAlong _) []
    rw [List.append_nil] at hwalk
    rw [(ht trivial).inv.resolvedAddr_eq hdense hpath.relative, hmiddle]
    exact hwalk

end Mount

end Grits
