import Grits.NameStore.ResolveSpec

/-!
# Resolving in a loaded tree

When every node of a tree is in the cache with its children, resolving a path
leaves the whole state alone, and its result is `Encoding.resolve`: a function
of the tree and the path.
-/

namespace Grits

open Prog SlashPath

/-! ## The result as a function of the tree -/

namespace Encoding

variable (E : Encoding)

open Classical in
/-- The metadata of the node that `addr` names. -/
noncomputable def metadataAt (addr : BlobAddr) : Option GNodeMetadata :=
  if h : ∃ metadata, E.MetadataAt addr metadata then some h.choose else none

variable {E} in
theorem MetadataAt.metadataAt {addr : BlobAddr} {metadata : GNodeMetadata}
    (h : E.MetadataAt addr metadata) : E.metadataAt addr = some metadata := by
  have hex : ∃ metadata, E.MetadataAt addr metadata := ⟨metadata, h⟩
  rw [Encoding.metadataAt, dif_pos hex, hex.choose_spec.unique h]

/-- The entry for a node that a path leads to. -/
noncomputable def entryAt (path : GoString) (addr : BlobAddr) : PathNodePair :=
  match E.metadataAt addr with
  | some metadata => .found path addr metadata
  | none => .failed path .internal

variable {E} in
theorem MetadataAt.entryAt {addr : BlobAddr} {metadata : GNodeMetadata}
    (h : E.MetadataAt addr metadata) (path : GoString) :
    E.entryAt path addr = .found path addr metadata := by
  rw [Encoding.entryAt, h.metadataAt]

/-- One component of a path. -/
noncomputable def resolvePart (walk : Walk) (part : GoString) : Walk :=
  if part = [] then walk
  else
    let path := walk.nextPath part
    match walk.current with
    | none => walk.lost path .notFound
    | some current =>
        match E.childrenAt current with
        | none => walk.lost path .notDir
        | some children =>
            match children.lookup part with
            | none => walk.lost path .notFound
            | some child => ⟨walk.paths ++ [E.entryAt path child], some child, path⟩

/-- Where a walk begins. -/
noncomputable def walkStart (root : BlobAddr) : Walk :=
  ⟨[E.entryAt [] root], some root, []⟩

/-- The path resolved in the tree at `root`. -/
noncomputable def resolve (root : BlobAddr) (path : GoString) : Walk :=
  (split (trimRight path)).foldl E.resolvePart (E.walkStart root)

variable {E}

@[simp] theorem resolvePart_nil (walk : Walk) : E.resolvePart walk [] = walk := rfl

theorem resolvePart_current {walk : Walk} {part : GoString} (h : part ≠ []) :
    (E.resolvePart walk part).current = PathTree.child E.entries walk.current part := by
  rw [resolvePart, if_neg h]
  simp only
  cases hcurrent : walk.current with
  | none => rfl
  | some current =>
      simp only [PathTree.child, Option.bind_some, entries]
      cases hchildren : E.childrenAt current with
      | none => rfl
      | some children =>
          simp only [Option.map_some, Option.bind_some]
          cases hchild : children.lookup part with
          | none => rfl
          | some child => rfl

theorem resolveParts_current (walk : Walk) (parts : List GoString) :
    (parts.foldl E.resolvePart walk).current =
      E.walk walk.current (parts.filter (· ≠ [])) := by
  induction parts generalizing walk with
  | nil => rfl
  | cons part parts ih =>
      rw [List.foldl_cons, ih]
      by_cases hpart : part = []
      · simp [hpart]
      · rw [resolvePart_current hpart, List.filter_cons_of_pos (by simpa using hpart)]
        rfl

/-- The node a resolved path leads to. -/
theorem resolve_current (root : BlobAddr) (path : GoString) :
    (E.resolve root path).current = E.walk (some root) (components (trimRight path)) :=
  resolveParts_current _ _

/-- The last entry tells where the walk is. -/
def Leads (E : Encoding) (walk : Walk) : Prop :=
  ∃ above leaf, walk.paths = above ++ [leaf] ∧ leaf.path = walk.currentPath ∧
    match walk.current with
    | some addr => leaf = E.entryAt walk.currentPath addr
    | none => ∃ error, leaf = .failed walk.currentPath error

theorem leads_lost (walk : Walk) (path : GoString) (error : LookupError) :
    Leads E (walk.lost path error) :=
  ⟨walk.paths, .failed path error, rfl, rfl, error, rfl⟩

theorem entryAt_path (path : GoString) (addr : BlobAddr) : (E.entryAt path addr).path = path := by
  rw [entryAt]
  split <;> rfl

theorem leads_resolvePart {walk : Walk} (h : Leads E walk) (part : GoString) :
    Leads E (E.resolvePart walk part) := by
  rw [resolvePart]
  split
  next => exact h
  next =>
    simp only
    split
    next => exact leads_lost _ _ _
    next =>
      split
      next => exact leads_lost _ _ _
      next =>
        split
        next => exact leads_lost _ _ _
        next => exact ⟨walk.paths, _, rfl, entryAt_path _ _, rfl⟩

theorem leads_resolveParts {walk : Walk} (h : Leads E walk) (parts : List GoString) :
    Leads E (parts.foldl E.resolvePart walk) := by
  induction parts generalizing walk with
  | nil => exact h
  | cons part parts ih => exact ih (leads_resolvePart h part)

theorem leads_walkStart (root : BlobAddr) : Leads E (E.walkStart root) :=
  ⟨[], _, rfl, entryAt_path _ _, rfl⟩

theorem leads_resolve (root : BlobAddr) (path : GoString) : Leads E (E.resolve root path) :=
  leads_resolveParts (leads_walkStart root) _

end Encoding

/-! ## Loaded trees -/

/-- The node at `addr` is in the cache, with its children if it is a directory. -/
def Ready (E : Encoding) (s : NameStore) (addr : BlobAddr) : Prop :=
  (∃ children, ChildrenRead s addr children ∧ E.DirAt addr children) ∨
    (Cached s addr ∧ ¬ E.IsDir addr)

/-- Every node of the tree is loaded. -/
def HeldTree (E : Encoding) (s : NameStore) (root : BlobAddr) : Prop :=
  ∀ path addr, E.walk (some root) path = some addr → Ready E s addr

variable {E : Env} {held : Multiset BlobAddr} {s t : NameStore}

theorem Ready.cached {E : Encoding} {addr : BlobAddr} (h : Ready E s addr) : Cached s addr := by
  rcases h with ⟨children, hread, -⟩ | ⟨hcached, -⟩
  · exact hread.cached
  · exact hcached

theorem Ready.quiet {E : Encoding} {addr : BlobAddr} {δ : BlobAddr → ℤ} (h : Ready E s addr)
    (hquiet : Quiet δ s t) : Ready E t addr := by
  rcases h with ⟨children, hread, hdir⟩ | ⟨hcached, hfile⟩
  · exact .inl ⟨children, hread.quiet hquiet, hdir⟩
  · exact .inr ⟨hcached.quiet hquiet, hfile⟩

/-- A loaded node is never read as anything but what it is. -/
theorem Ready.exact {E : Encoding} {addr : BlobAddr} (h : Ready E s addr) :
    PathTree.Exact E.entries E.Reads addr := by
  rcases h with ⟨children, -, hdir⟩ | ⟨-, hfile⟩
  · exact hdir.exact
  · exact Encoding.exact_of_not_isDir hfile

theorem HeldTree.quiet {E : Encoding} {root : BlobAddr} {δ : BlobAddr → ℤ}
    (h : HeldTree E s root) (hquiet : Quiet δ s t) : HeldTree E t root :=
  fun path addr haddr => (h path addr haddr).quiet hquiet

theorem HeldTree.ready {E : Encoding} {root : BlobAddr} (h : HeldTree E s root) :
    Ready E s root := h [] root rfl

theorem HeldTree.child {E : Encoding} {root child : BlobAddr} {children : Children}
    {name : GoString} (h : HeldTree E s root) (hdir : E.DirAt root children)
    (hchild : children.lookup name = some child) : HeldTree E s child := by
  intro path addr haddr
  refine h (name :: path) addr ?_
  rw [Encoding.walk, PathTree.walk_cons, hdir.child, hchild]
  exact haddr

theorem HeldTree.walk {E : Encoding} {root addr : BlobAddr} {path : List GoString}
    (h : HeldTree E s root) (hwalk : E.walk (some root) path = some addr) : HeldTree E s addr := by
  intro rest other hother
  refine h (path ++ rest) other ?_
  rw [Encoding.walk] at hwalk
  rw [Encoding.walk, PathTree.walk_append, hwalk]
  exact hother

theorem HeldTree.wellFormedTree {E : Encoding} {root : BlobAddr} (h : HeldTree E s root) :
    E.WellFormedTree (some root) := fun path addr haddr => (h path addr haddr).exact

/-- The walk stands in a loaded tree. -/
def Walk.Held (E : Encoding) (s : NameStore) (walk : Walk) : Prop :=
  ∀ addr, walk.current = some addr → HeldTree E s addr

theorem resolveStep_held (hs : Sound E.toEncoding held s) {walk : Walk}
    (hwalk : walk.Held E.toEncoding s) (part : GoString) :
    resolveStep E walk part s = (.ok (E.resolvePart walk part), s) := by
  unfold resolveStep Encoding.resolvePart
  split
  next => rfl
  next =>
    cases hcurrent : walk.current with
    | none => rfl
    | some current =>
        have hheld := hwalk current hcurrent
        obtain ⟨node, hnode⟩ := hheld.ready.cached
        simp only
        rw [bind_run (getNode_run hnode)]
        rcases hheld.ready with ⟨children, hread, hdir⟩ | ⟨-, hfile⟩
        · have htype := (hs.isDir_iff hnode).mp hdir.isDir
          have htree := tryErr_run (treeChildren_read hs hread)
          rw [if_neg (not_not.mpr htype), bind_run htree,
            Encoding.childrenAt_eq_some_iff.mpr hdir]
          cases hchild : children.lookup part with
          | none =>
              simp only [hchild]
              rfl
          | some childAddr =>
              have hready := (hheld.child hdir hchild).ready
              have hload := tryErr_run (loadFileNode_cached (E := E) hready.cached)
              obtain ⟨child, hlookup⟩ := hready.cached
              simp only [hchild]
              rw [bind_run hload]
              refine (bind_run (getNode_run hlookup)).trans ?_
              rw [(hs.nodes childAddr child hlookup).metadata.entryAt]
              rfl
        · have hnone : E.childrenAt current = none :=
            Encoding.childrenAt_eq_none_iff.mpr fun children hdir => hfile hdir.isDir
          rw [hs.isDir_iff hnode] at hfile
          rw [if_pos hfile, hnone]
          rfl

theorem held_resolvePart {walk : Walk} (hwalk : walk.Held E.toEncoding s) (part : GoString) :
    (E.resolvePart walk part).Held E.toEncoding s := by
  intro addr haddr
  by_cases hpart : part = []
  · subst hpart
    exact hwalk addr haddr
  · rw [Encoding.resolvePart_current hpart] at haddr
    cases hcurrent : walk.current with
    | none =>
        rw [hcurrent] at haddr
        cases haddr
    | some current =>
        have hheld := hwalk current hcurrent
        intro path other hother
        refine hheld (part :: path) other ?_
        rw [Encoding.walk, PathTree.walk_cons, ← hcurrent, haddr]
        exact hother

theorem resolveLoop_held (hs : Sound E.toEncoding held s) {walk : Walk}
    (hwalk : walk.Held E.toEncoding s) (parts : List GoString) :
    loop (resolveStep E) walk parts s = (.ok (parts.foldl E.resolvePart walk), s) :=
  loop_eq_foldl (I := fun walk => walk.Held E.toEncoding s)
    (fun _ part h => resolveStep_held hs h part) (fun _ part h => held_resolvePart h part) hwalk

theorem takeNode_run {addr : BlobAddr} {node : FileNode}
    (hnode : s.fileCache.lookup addr = some node) (hcount : 0 ≤ node.refCount) :
    takeNode addr s = (.ok (), { s with
      fileCache := s.fileCache.insert addr { node with refCount := node.refCount + 1 } }) := by
  unfold takeNode
  rw [bind_run (getNode_run hnode), if_neg (not_lt.mpr hcount)]
  rfl

theorem releaseNode_run (hdense : E.sparse = false) {addr : BlobAddr} {node : FileNode}
    (hnode : s.fileCache.lookup addr = some node) (hcount : 0 < node.refCount) :
    releaseNode E addr s = (.ok (), { s with
      fileCache := s.fileCache.insert addr { node with refCount := node.refCount - 1 } }) := by
  unfold releaseNode setNode
  rw [bind_run (getNode_run hnode), bind_run (modify_run _ _),
    if_neg (by omega), if_neg (by simp [hdense])]
  rfl

theorem insert_lookup_self {addr : BlobAddr} {node : FileNode}
    {cache : Finmap fun _ : BlobAddr => FileNode} (hnode : cache.lookup addr = some node) :
    cache.insert addr node = cache := by
  refine Finmap.ext_lookup fun other => ?_
  by_cases h : other = addr
  · subst h
    rw [Finmap.lookup_insert, hnode]
  · exact Finmap.lookup_insert_of_ne _ h

/-- Resolving in a loaded tree changes nothing and returns what the tree says. -/
theorem resolveFromLocal_held (hs : Sound E.toEncoding held s) (hdense : E.sparse = false)
    {start : BlobAddr} (hheld : HeldTree E.toEncoding s start) {startNode : Option BlobAddr}
    (hstart : startNode.getD s.rootAddr = start) {path : GoString}
    (hrel : isRooted (trimRight path) = false) :
    resolveFromLocal E path startNode s =
      (.ok ⟨(E.resolve start path).paths, s.serialNumber⟩, s) := by
  obtain ⟨node, hnode⟩ := hheld.ready.cached
  have hok := hs.nodes start node hnode
  -- the state while the walk holds its start node
  let u : NameStore := { s with
    fileCache := s.fileCache.insert start { node with refCount := node.refCount + 1 } }
  have htake : takeNode start s = (.ok (), u) := takeNode_run hnode hok.refCount
  have hu : Sound E.toEncoding held u ∧ Quiet (Pi.single start 1) s u := by
    have hspec := takeNode_spec hs ⟨node, hnode⟩
    rwa [wp, htake] at hspec
  have hunode : u.fileCache.lookup start = some { node with refCount := node.refCount + 1 } :=
    Finmap.lookup_insert _
  have hwalk : Walk.Held E.toEncoding u (E.walkStart start) := by
    rintro addr ⟨⟩
    exact hheld.quiet hu.2
  have hloop := resolveLoop_held hu.1 hwalk (split (trimRight path))
  rw [Encoding.walkStart, hok.metadata.entryAt] at hloop
  have hrelease : releaseNode E start u = (.ok (), s) := by
    have hpos : 0 < node.refCount + 1 := by
      have := hok.refCount
      omega
    rw [releaseNode_run hdense hunode hpos, Finmap.insert_insert]
    simp only [add_sub_cancel_right]
    rw [insert_lookup_self hnode]
  unfold resolveFromLocal
  rw [if_neg (by simp [hrel]), bind_run (get_run s),
    bind_run (startOfWalk_cached ⟨node, hnode⟩ hstart), bind_run htake,
    bind_run (getNode_run hunode), bind_run hloop, bind_run hrelease]
  rw [Encoding.resolve, Encoding.walkStart, hok.metadata.entryAt]
  rfl

/-- Rooted paths are refused, whatever the tree. -/
theorem resolveFromLocal_rooted {startNode : Option BlobAddr} {path : GoString}
    (h : isRooted (trimRight path) = true) :
    resolveFromLocal E path startNode s =
      (.error (.err (.message "paths must be relative".toList)), s) := by
  unfold resolveFromLocal
  simp only [h, if_true]
  rfl

end Grits
