import Grits.Mount.Paths
import Grits.Auth.Enforcement
import Grits.NameStore.Batch
import Mathlib.Data.List.Sort
import Mathlib.Data.List.AList

/-!
# Listing a directory of the mount

`gritsNode.Readdir` of `internal/gritsd/module_mount.go`: the entries of the committed
directory, and those of the dirty files in it that are not committed yet.
-/

namespace Grits

namespace Mount

open Prog SlashPath

/-! ## Dirty nodes -/

/-- What `Readdir` reads of a dirty `gritsNode`. -/
structure DirtyNode where
  isDangling : Bool
  tmpMetadata : GNodeMetadata

/-- `dirtyNodesMap`, in the order in which a `range` over it goes.  The nodes are entered
under their paths. -/
structure DirtyNodes where
  nodes : AList fun _ : GoString => DirtyNode
  paths : ∀ path ∈ nodes, MountPath path

/-- `MountModule.addDirtyNode` -/
def DirtyNodes.add (dirty : DirtyNodes) (path : GoString) (node : DirtyNode)
    (hpath : MountPath path) : DirtyNodes where
  nodes := dirty.nodes.insert path node
  paths := by
    intro other hother
    rcases (AList.mem_insert dirty.nodes).mp hother with rfl | hother
    · exact hpath
    · exact dirty.paths other hother

/-- `MountModule.removeDirtyNode` -/
def DirtyNodes.remove (dirty : DirtyNodes) (path : GoString) : DirtyNodes where
  nodes := dirty.nodes.erase path
  paths := fun other hother => dirty.paths other (AList.mem_erase.mp hother).2

/-- No file is dirty. -/
def DirtyNodes.none : DirtyNodes := ⟨∅, fun path h => absurd h (AList.notMem_empty path)⟩

/-! ## Listing -/

/-- `fuse.DirEntry`, without the inode number that `Readdir` leaves 0. -/
structure DirEntry where
  name : GoString
  mode : UInt32
  deriving DecidableEq

/-- What `Readdir` returns for an error. -/
inductive Errno where
  | enoent
  | eio
  | enotdir
  /-- `fs.ToErrno(err)` -/
  | toErrno (e : GoErr)
  deriving DecidableEq

/-- `fuse.S_IFDIR | 0o755` -/
def dirMode : UInt32 := 0o040000 ||| 0o755

/-- `fuse.S_IFREG | 0o644` -/
def fileMode : UInt32 := 0o100000 ||| 0o644

/-- The text that the paths of dirty nodes have to begin with. -/
def dirPrefix (path : GoString) : GoString :=
  if path ≠ ['/'] ∧ ¬ ['/'] <:+ path then path ++ ['/'] else path

/-- The entry for a dirty node, unless it is skipped. -/
def dirtyEntry (path : GoString) (existingNames : List GoString)
    (dirty : Σ _ : GoString, DirtyNode) : Option DirEntry :=
  if ¬ dirPrefix path <+: dirty.1 then .none
  else if dirty.2.isDangling then .none
  else
    let remainingPath := dirty.1.drop (dirPrefix path).length
    if '/' ∈ remainingPath then .none
    else if remainingPath ∈ existingNames then .none
    else some ⟨remainingPath, dirty.2.tmpMetadata.mode⟩

/-- The entries for the committed children with those for the dirty nodes, sorted. -/
def mergeDirty (dirty : DirtyNodes) (path : GoString) (r : List DirEntry) : List DirEntry :=
  let existingNames := r.map (·.name)
  (r ++ dirty.nodes.entries.filterMap (dirtyEntry path existingNames)).insertionSort
    fun a b => a.name ≤ b.name

/-- The loop over the committed children, each of them held until the call returns, and
what follows it. -/
def readdirEntries (E : Env) (dirty : DirtyNodes) (path : GoString) :
    List (Σ _ : GoString, BlobAddr) → List DirEntry → Op (Except Errno (List DirEntry))
  | [], r => pure (.ok (mergeDirty dirty path r))
  | ⟨name, nodeAddr⟩ :: rest, r => do
      match ← tryErr (fatalIfBlobMissing (getFileNode E nodeAddr)) with
      | .error _ => pure (.error .eio)
      | .ok _ =>
          releasing E (some nodeAddr) do
            let childNode ← getNode nodeAddr
            let mode := if childNode.metadata.type = .directory then dirMode else fileMode
            readdirEntries E dirty path rest (r ++ [⟨name, mode⟩])

/-- `gritsNode.Readdir`, of the node with this path. -/
def readdir (E : Env) (dirty : DirtyNodes) (path : GoString) :
    Op (Except Errno (List DirEntry)) := do
  match ← tryErr (fatalIfBlobMissing (lookupNode E [] path .backend)) with
  | .error e => pure (.error (if isNotExist e then .enoent else .eio))
  | .ok node =>
      releasing E (some node) do
        match ← tryErr (fatalIfBlobMissing (nodeChildren E node)) with
        | .error e => pure (.error (.toErrno e))
        | .ok .none => pure (.error .enotdir)
        | .ok (some children) => do
            let order ← consult fun tick => E.childOrder tick children
            readdirEntries E dirty path order []

/-! ## What a listing should be -/

/-- A dirty node that is not dangling has this name directly inside the directory. -/
def DirtyNodes.Inside (dirty : DirtyNodes) (path name : GoString) : Prop :=
  FileName name ∧ ∃ node, dirty.nodes.lookup (joinClean path name) = some node ∧
    node.isDangling = false

/-- The names are those of the committed children and of the dirty nodes, each once and in
order. -/
def Lists (entries : List DirEntry) (children : Children) (dirty : DirtyNodes)
    (path : GoString) : Prop :=
  (entries.map (·.name)).Pairwise (· < ·) ∧
    ∀ name, name ∈ entries.map (·.name) ↔ name ∈ children ∨ dirty.Inside path name

/-! ## Merging in the dirty nodes -/

variable {path : GoString}

theorem dirPrefix_root : dirPrefix [] = ['/'] := by decide

theorem joinClean_fileName {name : GoString} (h : FileName name) : joinClean [] name = name := by
  have hjoin : joinClean (join []) name = join ([] ++ [name]) := by
    apply joinClean_join
    simpa using h
  rwa [List.nil_append, join_singleton] at hjoin

/-- The path of a directory that is not the root is continued with a slash. -/
theorem MountPath.dirPrefix_eq (h : MountPath path) (hne : path ≠ []) :
    dirPrefix path = path ++ ['/'] := by
  have hend : ¬ ['/'] <:+ path := by
    rintro ⟨front, rfl⟩
    have htrim := h.plain.trimRight_eq
    rw [trimRight, List.rdropWhile_concat_pos _ _ _ (by simp)] at htrim
    have hlength := congrArg List.length htrim
    have hle := (List.rdropWhile_prefix (· == '/') front).length_le
    rw [List.length_append, List.length_singleton] at hlength
    omega
  have hslash : path ≠ ['/'] := fun heq => hend (heq ▸ List.suffix_rfl)
  rw [dirPrefix, if_pos ⟨hslash, hend⟩]

theorem MountPath.joinClean_eq (h : MountPath path) (hne : path ≠ []) {name : GoString}
    (hname : FileName name) : joinClean path name = dirPrefix path ++ name := by
  obtain ⟨names, hnames, heq⟩ := h.exists_join
  have hnil : names ≠ [] := by
    rintro rfl
    exact hne heq
  have hall : ∀ part ∈ names ++ [name], FileName part := by
    intro part hpart
    rcases List.mem_append.mp hpart with hpart | hpart
    · exact hnames part hpart
    · rwa [List.mem_singleton.mp hpart]
  rw [h.dirPrefix_eq hne, heq, joinClean_join hall, join_concat hnil, List.append_assoc,
    List.singleton_append]

/-- No path of the mount has the text that is looked for in the root. -/
theorem MountPath.not_dirPrefix_root (h : MountPath path) : ¬ dirPrefix [] <+: path := by
  rw [dirPrefix_root]
  rintro ⟨rest, rfl⟩
  have hrooted := h.plain.isRooted_eq
  cases hrooted

/-- What follows the path of a directory without another slash is a name. -/
theorem MountPath.fileName_of_append (h : MountPath path) (hne : path ≠ []) {rest : GoString}
    (hmount : MountPath (dirPrefix path ++ rest)) (hrest : '/' ∉ rest) : FileName rest := by
  rw [h.dirPrefix_eq hne, List.append_assoc, List.singleton_append] at hmount
  have hcomponents := hmount.plain.components_eq (by simp)
  obtain ⟨names, hnames, heq⟩ := hmount.exists_join
  rw [split_append_slash, split_of_slash_notMem hrest, heq,
    components_join (names_of_fileName hnames)] at hcomponents
  exact hnames rest (by simp [hcomponents])

/-- Which dirty nodes get an entry. -/
theorem dirtyEntry_eq_some_iff (h : MountPath path) (hne : path ≠ [])
    {existingNames : List GoString} {dirty : Σ _ : GoString, DirtyNode}
    (hdirty : MountPath dirty.1) {entry : DirEntry} :
    dirtyEntry path existingNames dirty = some entry ↔
      FileName entry.name ∧ dirty.1 = joinClean path entry.name ∧ dirty.2.isDangling = false ∧
        entry.name ∉ existingNames ∧ entry.mode = dirty.2.tmpMetadata.mode := by
  obtain ⟨key, node⟩ := dirty
  rw [dirtyEntry]
  by_cases hkey : dirPrefix path <+: key
  · obtain ⟨rest, rfl⟩ := hkey
    rw [if_neg (not_not.mpr (List.prefix_append _ _)), List.drop_left]
    have hsame : ∀ {name : GoString}, FileName name →
        (dirPrefix path ++ rest = joinClean path name ↔ rest = name) := by
      intro name hname
      rw [h.joinClean_eq hne hname, List.append_cancel_left_eq]
    change (if node.isDangling = true then none else if '/' ∈ rest then none
      else if rest ∈ existingNames then none else some _) = _ ↔ _
    constructor
    · intro hentry
      split at hentry
      next => cases hentry
      next hdangling =>
        split at hentry
        next => cases hentry
        next hslash =>
          split at hentry
          next => cases hentry
          next hnew =>
            cases hentry
            have hname := h.fileName_of_append hne hdirty hslash
            exact ⟨hname, (hsame hname).mpr rfl, Bool.eq_false_of_not_eq_true hdangling, hnew, rfl⟩
    · rintro ⟨hname, heq, hdangling, hnew, hmode⟩
      obtain rfl := (hsame hname).mp heq
      rw [if_neg (Bool.eq_false_iff.mp hdangling), if_neg hname.2.1, if_neg hnew,
        ← hmode]
  · rw [if_pos hkey]
    constructor
    · intro hentry
      cases hentry
    · rintro ⟨hname, heq, -⟩
      exact absurd ⟨entry.name, ((h.joinClean_eq hne hname).symm.trans heq.symm)⟩ hkey

theorem dirtyEntry_root {existingNames : List GoString} {dirty : Σ _ : GoString, DirtyNode}
    (hdirty : MountPath dirty.1) : dirtyEntry [] existingNames dirty = none := by
  rw [dirtyEntry, if_pos hdirty.not_dirPrefix_root]

/-- The names that the dirty nodes add. -/
theorem mem_dirtyEntries (h : MountPath path) (hne : path ≠ []) (dirty : DirtyNodes)
    {existingNames : List GoString} {name : GoString} :
    name ∈ (dirty.nodes.entries.filterMap (dirtyEntry path existingNames)).map (·.name) ↔
      dirty.Inside path name ∧ name ∉ existingNames := by
  constructor
  · intro hmem
    obtain ⟨entry, hentry, rfl⟩ := List.mem_map.mp hmem
    obtain ⟨⟨key, node⟩, hnode, hsome⟩ := List.mem_filterMap.mp hentry
    have hkey : MountPath key := dirty.paths key (AList.mem_keys.mpr (List.mem_keys_of_mem hnode))
    obtain ⟨hname, rfl, hdangling, hnew, -⟩ := (dirtyEntry_eq_some_iff h hne hkey).mp hsome
    exact ⟨⟨hname, node, AList.mem_lookup_iff.mpr hnode, hdangling⟩, hnew⟩
  · rintro ⟨⟨hname, node, hnode, hdangling⟩, hnew⟩
    have hmem := AList.mem_lookup_iff.mp hnode
    refine List.mem_map.mpr ⟨⟨name, node.tmpMetadata.mode⟩, ?_, rfl⟩
    refine List.mem_filterMap.mpr ⟨_, hmem, ?_⟩
    exact (dirtyEntry_eq_some_iff h hne (h.child hname)).mpr ⟨hname, rfl, hdangling, hnew, rfl⟩

theorem nodup_dirtyEntries (h : MountPath path) (hne : path ≠ []) (dirty : DirtyNodes)
    (existingNames : List GoString) :
    ((dirty.nodes.entries.filterMap (dirtyEntry path existingNames)).map (·.name)).Nodup := by
  rw [List.Nodup, List.pairwise_map, List.pairwise_filterMap]
  have hkeys := List.nodupKeys_iff_pairwise.mp dirty.nodes.nodupKeys
  refine hkeys.imp_of_mem fun {d d'} hd hd' hdiffer entry hentry entry' hentry' heq => ?_
  have hpath : MountPath d.1 := dirty.paths d.1 (AList.mem_keys.mpr (List.mem_keys_of_mem hd))
  have hpath' : MountPath d'.1 := dirty.paths d'.1 (AList.mem_keys.mpr (List.mem_keys_of_mem hd'))
  have hsome := (dirtyEntry_eq_some_iff h hne hpath).mp hentry
  have hsome' := (dirtyEntry_eq_some_iff h hne hpath').mp hentry'
  exact hdiffer (by rw [hsome.2.1, hsome'.2.1, heq])

theorem dirtyEntries_root (dirty : DirtyNodes) (existingNames : List GoString) :
    dirty.nodes.entries.filterMap (dirtyEntry [] existingNames) = [] := by
  refine List.filterMap_eq_nil_iff.mpr fun d hd => ?_
  exact dirtyEntry_root (dirty.paths d.1 (AList.mem_keys.mpr (List.mem_keys_of_mem hd)))

theorem perm_mergeDirty (dirty : DirtyNodes) (path : GoString) (r : List DirEntry) :
    ((mergeDirty dirty path r).map (·.name)).Perm (r.map (·.name) ++
      (dirty.nodes.entries.filterMap (dirtyEntry path (r.map (·.name)))).map (·.name)) := by
  rw [mergeDirty, ← List.map_append]
  exact (List.perm_insertionSort _ _).map _

theorem pairwise_mergeDirty (dirty : DirtyNodes) (path : GoString) (r : List DirEntry) :
    ((mergeDirty dirty path r).map (·.name)).Pairwise (· ≤ ·) := by
  rw [List.pairwise_map]
  exact List.pairwise_insertionSort (fun a b : DirEntry => a.name ≤ b.name) _

/-- The merged entries are as they should be, except that those of dirty nodes in the root
are left out. -/
theorem lists_mergeDirty_iff (h : MountPath path) (dirty : DirtyNodes) {children : Children}
    {r : List DirEntry} (hnodup : (r.map (·.name)).Nodup)
    (hnames : ∀ name, name ∈ r.map (·.name) ↔ name ∈ children) :
    Lists (mergeDirty dirty path r) children dirty path ↔
      path ≠ [] ∨ ∀ name, dirty.Inside [] name → name ∈ children := by
  have hperm := perm_mergeDirty dirty path r
  have hsorted : ((mergeDirty dirty path r).map (·.name)).Nodup →
      ((mergeDirty dirty path r).map (·.name)).Pairwise (· < ·) := fun hnodup =>
    ((pairwise_mergeDirty dirty path r).and hnodup).imp fun hlt => lt_of_le_of_ne hlt.1 hlt.2
  by_cases hroot : path = []
  · subst hroot
    rw [dirtyEntries_root, List.map_nil, List.append_nil] at hperm
    rw [or_iff_right (not_not.mpr rfl)]
    constructor
    · rintro ⟨-, hlists⟩ name hname
      exact (hnames name).mp (hperm.mem_iff.mp ((hlists name).mpr (.inr hname)))
    · intro hcommitted
      refine ⟨hsorted (hperm.nodup_iff.mpr hnodup), fun name => ?_⟩
      rw [hperm.mem_iff, hnames]
      constructor
      · exact .inl
      · rintro (hname | hname)
        · exact hname
        · exact hcommitted name hname
  · refine ⟨fun _ => .inl hroot, fun _ => ⟨hsorted (hperm.nodup_iff.mpr ?_), fun name => ?_⟩⟩
    · refine List.nodup_append.mpr ⟨hnodup, nodup_dirtyEntries h hroot dirty _, ?_⟩
      rintro name hname _ hdirty rfl
      exact ((mem_dirtyEntries h hroot dirty).mp hdirty).2 hname
    · rw [hperm.mem_iff, List.mem_append, mem_dirtyEntries h hroot, ← hnames]
      tauto

/-! ## Running the call -/

variable {E : Env} {holders held : Multiset BlobAddr} {s : NameStore}

/-- The loop over the committed children of a loaded directory changes nothing. -/
theorem readdirEntries_held (hdense : E.sparse = false) (dirty : DirtyNodes) (path : GoString)
    (rest : List (Σ _ : GoString, BlobAddr)) (r : List DirEntry) {s : NameStore}
    (hs : Sound E.toEncoding held s) (hcached : ∀ child ∈ rest, Cached s child.2) :
    ∃ more : List DirEntry, more.map (·.name) = rest.map Sigma.fst ∧
      readdirEntries E dirty path rest r s = (.ok (.ok (mergeDirty dirty path (r ++ more))), s) := by
  induction rest generalizing r s with
  | nil => exact ⟨[], rfl, by rw [List.append_nil]; rfl⟩
  | cons child rest ih =>
      obtain ⟨name, nodeAddr⟩ := child
      obtain ⟨node, hnode⟩ := hcached _ List.mem_cons_self
      obtain ⟨-, hu, hquiet, hrelease⟩ := holding_spec hs hdense hnode
      let entry : DirEntry :=
        ⟨name, if node.metadata.type = .directory then dirMode else fileMode⟩
      obtain ⟨more, hmore, hrun⟩ := ih (r ++ [entry]) hu fun other hother =>
        (hcached other (List.mem_cons_of_mem _ hother)).quiet hquiet
      refine ⟨entry :: more, by rw [List.map_cons, hmore, List.map_cons], ?_⟩
      have hget := tryErr_run (fatalIfBlobMissing_run (getFileNode_held hs hdense hnode))
      have hbody : (do
          let childNode ← getNode nodeAddr
          let mode := if childNode.metadata.type = .directory then dirMode else fileMode
          readdirEntries E dirty path rest (r ++ [⟨name, mode⟩]) :
            Op (Except Errno (List DirEntry))) (holding s nodeAddr node) =
          (.ok (.ok (mergeDirty dirty path (r ++ entry :: more))), holding s nodeAddr node) := by
        rw [bind_run (getNode_run (holding_lookup s nodeAddr node)), hrun, List.append_assoc]
        rfl
      rw [readdirEntries, bind_run hget]
      exact releasing_run hbody hrelease

/-- `LookupNode` of a path of the mount in a loaded tree. -/
theorem lookupNode_held (hdense : E.sparse = false) (h : Inv E.toEncoding holders s)
    (hpath : MountPath path) {addr : BlobAddr}
    (haddr : E.walk (some s.rootAddr) (components path) = some addr) {node : FileNode}
    (hnode : s.fileCache.lookup addr = some node) :
    lookupNode E [] path .backend s = (.ok addr, holding s addr node) := by
  obtain ⟨names, hnames, hjoin⟩ := hpath.exists_join
  have htrim := hpath.plain.trimRight_eq
  have hcomponents : components path = names := by
    rw [hjoin, components_join (names_of_fileName hnames)]
  have hrel : Relative [path] := by
    intro other hother
    rw [List.mem_singleton.mp hother, htrim, hpath.plain.isRooted_eq]
  have hlabel : label (components path) = path := by
    rw [hcomponents, hjoin]
    exact label_of_settled (names_of_fileName hnames) (settled_of_fileName hnames)
  have hentry : E.entryOf s.rootAddr (components path) = .found path addr node.metadata := by
    rw [Encoding.entryOf, Encoding.place, haddr, hlabel]
    exact (h.sound.nodes addr node hnode).metadata.entryAt path
  have hleaf : (LookupResponse.mk (E.batch s.rootAddr [path]) s.serialNumber).leaf =
      some (.found path addr node.metadata) := by
    have hsettled : Settled (components path) := hcomponents ▸ settled_of_fileName hnames
    rw [LookupResponse.leaf, batch_of_settled hsettled, getLast?_entriesOf, hentry]
  have hget := getFileNode_held (E := E) h.sound hdense hnode
  unfold lookupNode
  rw [htrim, bind_run (lookup_held hdense h hrel .backend), hleaf]
  have hpathEq : (PathNodePair.found path addr node.metadata).path = path := rfl
  change (if (PathNodePair.found path addr node.metadata).path ≠ path then fail _
    else (do getFileNode E addr; pure addr : Op BlobAddr)) s = _
  rw [if_neg (not_not.mpr hpathEq), bind_run hget]
  rfl

/-- What `Readdir` returns for a directory of the committed tree. -/
theorem readdir_held (hdense : E.sparse = false) (h : Inv E.toEncoding holders s)
    (dirty : DirtyNodes) (hpath : MountPath path) {addr : BlobAddr} {children : Children}
    (haddr : E.walk (some s.rootAddr) (components path) = some addr)
    (hdir : E.DirAt addr children) :
    ∃ r : List DirEntry, (r.map (·.name)).Nodup ∧
      (∀ name, name ∈ r.map (·.name) ↔ name ∈ children) ∧
      (readdir E dirty path s).1 = .ok (.ok (mergeDirty dirty path r)) := by
  have hheld := h.heldTree.walk haddr
  obtain ⟨node, hnode⟩ := hheld.ready.cached
  obtain ⟨-, hu, hquiet, -⟩ := holding_spec h.sound hdense hnode
  have hlookup := tryErr_run
    (fatalIfBlobMissing_run (lookupNode_held hdense h hpath haddr hnode))
  have hread : ChildrenRead s addr children := by
    rcases hheld.ready with ⟨other, hread, hother⟩ | ⟨-, hfile⟩
    · rwa [hdir.unique hother]
    · exact absurd hdir.isDir hfile
  have hchildren := tryErr_run (fatalIfBlobMissing_run (nodeChildren_read hu (hread.quiet hquiet)))
  -- the order in which the loop goes over the children
  have hentries := E.coe_childOrder (holding s addr node).ticks children
  generalize horder : E.childOrder (holding s addr node).ticks children = order at hentries
  let t : NameStore :=
    { holding s addr node with ticks := (holding s addr node).ticks + 1 }
  have ht : Sound E.toEncoding 0 t := hu.tick _
  have hcached : ∀ child ∈ order, Cached t child.2 := by
    intro child hchild
    have hlookup : children.lookup child.1 = some child.2 :=
      Finmap.mem_lookup_iff.mpr (hentries ▸ Multiset.mem_coe.mpr hchild)
    have hheldCached : Cached (holding s addr node) child.2 :=
      (hheld.child hdir hlookup).ready.cached.quiet hquiet
    exact hheldCached
  obtain ⟨r, hr, hloop⟩ := readdirEntries_held hdense dirty path order [] ht hcached
  rw [List.nil_append] at hloop
  have hkeys : (order.map Sigma.fst : Multiset GoString) = children.keys.val := by
    change _ = children.entries.map Sigma.fst
    rw [← hentries, Multiset.map_coe]
  refine ⟨r, ?_, ?_, ?_⟩
  · rw [hr, ← Multiset.coe_nodup, hkeys]
    exact children.keys.nodup
  · intro name
    rw [hr, ← Multiset.mem_coe, hkeys]
    exact Finmap.mem_keys
  · have hcount := (h.sound.nodes addr node hnode).refCount
    have hpos : 0 < node.refCount + 1 := by omega
    have hrelease : releaseNode E addr t = (.ok (), _) :=
      releaseNode_run hdense (holding_lookup s addr node) hpos
    have hbody : (do
        match ← tryErr (fatalIfBlobMissing (nodeChildren E addr)) with
        | .error e => pure (.error (.toErrno e))
        | .ok .none => pure (.error .enotdir)
        | .ok (some children) => do
            let order ← consult fun tick => E.childOrder tick children
            readdirEntries E dirty path order [] : Op (Except Errno (List DirEntry)))
        (holding s addr node) = (.ok (.ok (mergeDirty dirty path r)), t) := by
      rw [bind_run hchildren]
      exact (bind_run (consult_run _ _)).trans (horder ▸ hloop)
    rw [readdir, bind_run hlookup]
    exact congrArg Prod.fst (releasing_run hbody hrelease)

/-- `Readdir` lists the committed children and the dirty nodes of a directory exactly if it
is not the root, or every dirty name in the root is committed. -/
theorem readdir_lists_iff (hdense : E.sparse = false) (hs : Reachable E holders s)
    (dirty : DirtyNodes) {path : GoString} (hpath : MountPath path) {addr : BlobAddr}
    {children : Children} (haddr : E.walk (some s.rootAddr) (components path) = some addr)
    (hdir : E.DirAt addr children) :
    (∃ entries, (readdir E dirty path s).1 = .ok (.ok entries) ∧
      Lists entries children dirty path) ↔
      path ≠ [] ∨ ∀ name, dirty.Inside [] name → name ∈ children := by
  obtain ⟨r, hnodup, hnames, hrun⟩ := readdir_held hdense (hs.inv hdense) dirty hpath haddr hdir
  rw [← lists_mergeDirty_iff hpath dirty hnodup hnames]
  constructor
  · rintro ⟨entries, hentries, hlists⟩
    rw [hrun] at hentries
    cases hentries
    exact hlists
  · exact fun hlists => ⟨_, hrun, hlists⟩

/-- One dirty file in the root. -/
def dirtyFile (name : GoString) (h : FileName name) : DirtyNodes :=
  DirtyNodes.none.add (joinClean [] name) ⟨false, ⟨.file, 0, [], fileMode, []⟩⟩ (.child .root h)

/-- A volume with the file `a`. -/
abbrev listedEnv : Env := Table.shortEnv Table.shortTable Table.proper_shortTable

abbrev listedVolume : NameStore :=
  Table.shortVolume Table.proper_shortTable ['Q', 'm', 'D']

theorem reachable_listedVolume : Reachable listedEnv 0 listedVolume :=
  Table.reachable_shortVolume Table.proper_shortTable (by decide +kernel) (by decide +kernel)

theorem dirAt_listedVolume :
    listedEnv.DirAt listedVolume.rootAddr (.single ['a'] ['Q', 'm', 'F']) := by
  have hroot : listedVolume.rootAddr = ['Q', 'm', 'D'] := by decide +kernel
  rw [hroot]
  exact Table.dirAt_of_entry Table.proper_shortTable Table.shortTable[4] Table.shortTable[5]
    (List.getElem_mem _) (List.getElem_mem _) rfl rfl rfl rfl rfl (by decide)

/-- The file `a` is being written: it is listed once. -/
theorem readdir_overwritten : ∃ entries,
    (readdir listedEnv (dirtyFile ['a'] (by decide)) [] listedVolume).1 = .ok (.ok entries) ∧
      Lists entries (.single ['a'] ['Q', 'm', 'F']) (dirtyFile ['a'] (by decide)) [] := by
  have hcommitted : ∀ name, (dirtyFile ['a'] (by decide)).Inside [] name →
      name ∈ Children.single ['a'] ['Q', 'm', 'F'] := by
    rintro name ⟨hname, node, hnode, -⟩
    rw [joinClean_fileName hname] at hnode
    have hkey : name ∈ (dirtyFile ['a'] (by decide)).nodes := by
      rw [← AList.lookup_isSome, hnode]
      rfl
    rcases (AList.mem_insert _).mp hkey with rfl | hkey
    · decide +kernel
    · exact absurd hkey (AList.notMem_empty name)
  exact (readdir_lists_iff rfl reachable_listedVolume _ .root rfl dirAt_listedVolume).mpr
    (.inr hcommitted)

/-- A new file in the root is being written: it is not listed. -/
theorem readdir_root_misses_dirty : ¬ ∃ entries,
    (readdir listedEnv (dirtyFile ['b'] (by decide)) [] listedVolume).1 = .ok (.ok entries) ∧
      Lists entries (.single ['a'] ['Q', 'm', 'F']) (dirtyFile ['b'] (by decide)) [] := by
  rintro ⟨entries, hentries, -, hlists⟩
  have hrun : (readdir listedEnv (dirtyFile ['b'] (by decide)) [] listedVolume).1 =
      .ok (.ok [⟨['a'], fileMode⟩]) := by decide +kernel
  rw [hrun] at hentries
  cases hentries
  have hinside : (dirtyFile ['b'] (by decide)).Inside [] ['b'] :=
    ⟨by decide, ⟨false, ⟨.file, 0, [], fileMode, []⟩⟩, AList.lookup_insert _, rfl⟩
  have hmem := (hlists ['b']).mpr (.inr hinside)
  exact absurd hmem (by decide)

end Mount

end Grits
