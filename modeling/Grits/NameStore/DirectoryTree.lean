import Grits.Library.PathTree
import Grits.Library.RefCount
import Grits.NameStore.Encoding

/-!
# The tree an address names

What a metadata address stands for, apart from any state of the name store:
the blobs below it are determined by its hash.  `Encoding.entries` is the tree
in the sense of `PathTree`, `Encoding.references` the graph in the sense of
`RefCount`.

`TreeNode.Children` may leave a partly filled map behind when a directory blob
holds a malformed address, and later calls return that map.  `Encoding.Readable`
describes the maps it can return.
-/

namespace Grits

/-- The directory map with one entry. -/
def Children.single (name : GoString) (addr : BlobAddr) : Children :=
  [(⟨name, addr⟩ : Σ _ : GoString, BlobAddr)].toFinmap

theorem Children.lookup_single (name other : GoString) (addr : BlobAddr) :
    (single name addr).lookup other = if other = name then some addr else none := by
  rw [single, Finmap.dlookup_list_toFinmap]
  split
  next h =>
    subst h
    rw [List.dlookup_cons_eq]
  next h => rw [List.dlookup_cons_ne _ _ h, List.dlookup_nil]

namespace Encoding

variable (E : Encoding)

/-- `addr` names a directory. -/
def IsDir (addr : BlobAddr) : Prop :=
  ∃ metadata, E.MetadataAt addr metadata ∧ metadata.type = .directory

open Classical in
/-- The children of the directory that `addr` names. -/
noncomputable def childrenAt (addr : BlobAddr) : Option Children :=
  if h : ∃ children, E.DirAt addr children then some h.choose else none

/-- The children of `addr`, by name. -/
noncomputable def entries (addr : BlobAddr) : Option (GoString → Option BlobAddr) :=
  (E.childrenAt addr).map fun children name => children.lookup name

/-- The addresses in a directory map, each as often as it occurs. -/
def targets (children : Children) : Multiset BlobAddr :=
  children.entries.map fun entry => entry.2

/-- The addresses that the directory at `addr` refers to. -/
noncomputable def references (addr : BlobAddr) : Multiset BlobAddr :=
  targets ((E.childrenAt addr).getD ∅)

/-- `TreeNode.Children` may return `children` for the content blob `content`:
these are its children, or the blob holds a malformed address and the map was
left partly filled. -/
def Readable (content : BlobAddr) (children : Children) : Prop :=
  E.ContentAt content children ∨
    (¬ ∃ exact, E.ContentAt content exact) ∧ (∃ name, children.lookup name = some []) ∧
      ∀ name addr, children.lookup name = some addr →
        addr = [] ∨ IsCid addr ∧ E.rank addr < E.rank content

/-- `FileNode.Children` may return `children` for the node at `addr`. -/
def Reads (addr : BlobAddr) (children : GoString → Option BlobAddr) : Prop :=
  ∃ metadata map, E.MetadataAt addr metadata ∧ metadata.type = .directory ∧
    E.Readable metadata.contentHash map ∧ children = fun name => map.lookup name

/-- The node a path leads to. -/
noncomputable abbrev walk (root : Option BlobAddr) (path : List GoString) : Option BlobAddr :=
  PathTree.walk E.entries root path

/-- A tree whose directory blobs are all well-formed maps. -/
abbrev WellFormedTree (root : Option BlobAddr) : Prop := PathTree.Whole E.entries E.Reads root

variable {E}

theorem childrenAt_eq_some_iff {addr : BlobAddr} {children : Children} :
    E.childrenAt addr = some children ↔ E.DirAt addr children := by
  unfold childrenAt
  constructor
  · intro h
    split at h
    next hex =>
      cases h
      exact hex.choose_spec
    next => cases h
  · intro h
    have hex : ∃ children, E.DirAt addr children := ⟨children, h⟩
    rw [dif_pos hex, hex.choose_spec.unique h]

theorem childrenAt_eq_none_iff {addr : BlobAddr} :
    E.childrenAt addr = none ↔ ∀ children, ¬ E.DirAt addr children := by
  constructor
  · intro h children hdir
    rw [childrenAt_eq_some_iff.mpr hdir] at h
    cases h
  · intro h
    cases hchildren : E.childrenAt addr with
    | none => rfl
    | some children => exact absurd (childrenAt_eq_some_iff.mp hchildren) (h children)

theorem DirAt.entries {addr : BlobAddr} {children : Children} (h : E.DirAt addr children) :
    E.entries addr = some fun name => children.lookup name := by
  rw [Encoding.entries, childrenAt_eq_some_iff.mpr h]
  rfl

theorem exists_dirAt_of_entries {addr : BlobAddr} {f : GoString → Option BlobAddr}
    (h : E.entries addr = some f) :
    ∃ children, E.DirAt addr children ∧ f = fun name => children.lookup name := by
  rw [Encoding.entries, Option.map_eq_some_iff] at h
  obtain ⟨children, hchildren, rfl⟩ := h
  exact ⟨children, childrenAt_eq_some_iff.mp hchildren, rfl⟩

theorem DirAt.isDir {addr : BlobAddr} {children : Children} (h : E.DirAt addr children) :
    E.IsDir addr := by
  obtain ⟨metadata, hmetadata, htype, -⟩ := h
  exact ⟨metadata, hmetadata, htype⟩

theorem Reads.isDir {addr : BlobAddr} {f : GoString → Option BlobAddr} (h : E.Reads addr f) :
    E.IsDir addr := by
  obtain ⟨metadata, -, hmetadata, htype, -, -⟩ := h
  exact ⟨metadata, hmetadata, htype⟩

theorem DirAt.child {addr : BlobAddr} {children : Children} (h : E.DirAt addr children)
    (name : GoString) : PathTree.child E.entries (some addr) name = children.lookup name :=
  PathTree.child_some h.entries name

/-- A file has no children. -/
theorem entries_eq_none {addr : BlobAddr} (h : ¬ E.IsDir addr) : E.entries addr = none := by
  rw [Encoding.entries, childrenAt_eq_none_iff.mpr fun children hdir => h hdir.isDir]
  rfl

theorem mem_targets {children : Children} {addr : BlobAddr} :
    addr ∈ targets children ↔ ∃ name, children.lookup name = some addr := by
  rw [targets, Multiset.mem_map]
  constructor
  · rintro ⟨⟨name, addr'⟩, hmem, rfl⟩
    exact ⟨name, Finmap.lookup_eq_some_iff.mpr hmem⟩
  · rintro ⟨name, hname⟩
    exact ⟨⟨name, addr⟩, Finmap.lookup_eq_some_iff.mp hname, rfl⟩

theorem DirAt.references {addr : BlobAddr} {children : Children} (h : E.DirAt addr children) :
    E.references addr = targets children := by
  rw [Encoding.references, childrenAt_eq_some_iff.mpr h]
  rfl

theorem references_eq_zero {addr : BlobAddr} (h : ¬ E.IsDir addr) : E.references addr = 0 := by
  rw [Encoding.references, childrenAt_eq_none_iff.mpr fun children hdir => h hdir.isDir]
  rfl

theorem mem_references {addr child : BlobAddr} :
    child ∈ E.references addr ↔
      ∃ children name, E.DirAt addr children ∧ children.lookup name = some child := by
  constructor
  · intro h
    cases hchildren : E.childrenAt addr with
    | none =>
        rw [Encoding.references, hchildren] at h
        cases h
    | some children =>
        have hdir := childrenAt_eq_some_iff.mp hchildren
        rw [hdir.references, mem_targets] at h
        obtain ⟨name, hname⟩ := h
        exact ⟨children, name, hdir, hname⟩
  · rintro ⟨children, name, hdir, hname⟩
    rw [hdir.references, mem_targets]
    exact ⟨name, hname⟩

/-- The graph of references has no cycles. -/
theorem rank_lt_of_mem_references {addr child : BlobAddr} (h : child ∈ E.references addr) :
    E.rank child < E.rank addr := by
  obtain ⟨children, name, hdir, hname⟩ := mem_references.mp h
  exact hdir.rank_lt hname

/-- Whoever has children is a directory. -/
theorem exists_dirAt_of_child {o : Option BlobAddr} {name : GoString} {addr : BlobAddr}
    (h : PathTree.child E.entries o name = some addr) :
    ∃ parent children, o = some parent ∧ E.DirAt parent children ∧
      children.lookup name = some addr := by
  obtain ⟨parent, rfl, hchild⟩ := Option.bind_eq_some_iff.mp h
  obtain ⟨f, hf, hname⟩ := Option.bind_eq_some_iff.mp hchild
  obtain ⟨children, hdir, rfl⟩ := exists_dirAt_of_entries hf
  exact ⟨parent, children, rfl, hdir, hname⟩

/-- A path into a directory with one entry goes through that entry. -/
theorem DirAt.cons_of_walk {root child addr : BlobAddr} {name other : GoString}
    {path : List GoString} (h : E.DirAt root (.single name child))
    (hwalk : E.walk (some root) (other :: path) = some addr) :
    other = name ∧ E.walk (some child) path = some addr := by
  rw [Encoding.walk, PathTree.walk_cons, h.child, Children.lookup_single] at hwalk
  split at hwalk
  next hname => exact ⟨hname, hwalk⟩
  next =>
    rw [PathTree.walk_none] at hwalk
    cases hwalk

/-- Whatever a path goes on from is a directory. -/
theorem exists_dir_of_walk {root addr : BlobAddr} {above below : List GoString} (hne : below ≠ [])
    (h : E.walk (some root) (above ++ below) = some addr) :
    ∃ parent, E.walk (some root) above = some parent ∧ E.IsDir parent := by
  obtain ⟨name, rest, rfl⟩ := List.exists_cons_of_ne_nil hne
  rw [Encoding.walk, PathTree.walk_append, PathTree.walk_cons] at h
  cases hchild : PathTree.child E.entries (PathTree.walk E.entries (some root) above) name with
  | none =>
      rw [hchild, PathTree.walk_none] at h
      cases h
  | some child =>
      obtain ⟨parent, children, hparent, hdir, -⟩ := exists_dirAt_of_child hchild
      exact ⟨parent, hparent, hdir.isDir⟩

/-- A path leads down. -/
theorem rank_le_of_walk {root addr : BlobAddr} {path : List GoString}
    (h : E.walk (some root) path = some addr) : E.rank addr ≤ E.rank root := by
  induction path generalizing root with
  | nil =>
      cases h
      exact le_rfl
  | cons name path ih =>
      rw [Encoding.walk, PathTree.walk_cons] at h
      cases hchild : PathTree.child E.entries (some root) name with
      | none =>
          rw [hchild, PathTree.walk_none] at h
          cases h
      | some child =>
          rw [hchild] at h
          obtain ⟨_, children, ⟨⟩, hdir, hname⟩ := exists_dirAt_of_child hchild
          exact (ih h).trans (hdir.rank_lt hname).le

/-- Nothing is found below itself. -/
theorem walk_ne_self {addr : BlobAddr} {path : List GoString} (hne : path ≠ []) :
    E.walk (some addr) path ≠ some addr := by
  obtain ⟨name, rest, rfl⟩ := List.exists_cons_of_ne_nil hne
  intro h
  rw [Encoding.walk, PathTree.walk_cons] at h
  cases hchild : PathTree.child E.entries (some addr) name with
  | none =>
      rw [hchild, PathTree.walk_none] at h
      cases h
  | some child =>
      rw [hchild] at h
      obtain ⟨_, children, ⟨⟩, hdir, hname⟩ := exists_dirAt_of_child hchild
      exact absurd (rank_le_of_walk h) (not_le.mpr (hdir.rank_lt hname))

/-- A well-formed directory blob is read as what it says. -/
theorem Readable.eq_of_contentAt {content : BlobAddr} {children exact : Children}
    (h : E.Readable content children) (hexact : E.ContentAt content exact) :
    children = exact := by
  rcases h with h | ⟨hnone, -, -⟩
  · exact h.unique hexact
  · exact absurd ⟨exact, hexact⟩ hnone

/-- A readable map without an empty address is exact. -/
theorem Readable.contentAt {content : BlobAddr} {children : Children}
    (h : E.Readable content children) (hne : ∀ name, children.lookup name ≠ some []) :
    E.ContentAt content children := by
  rcases h with h | ⟨-, ⟨name, hname⟩, -⟩
  · exact h
  · exact absurd hname (hne name)

theorem Readable.isCid_or_nil {content addr : BlobAddr} {children : Children} {name : GoString}
    (h : E.Readable content children) (hname : children.lookup name = some addr) :
    addr = [] ∨ IsCid addr := by
  rcases h with ⟨data, -, -, hwf⟩ | ⟨-, -, hall⟩
  · exact .inr (hwf name addr hname)
  · exact (hall name addr hname).imp_right And.left

theorem Readable.rank_lt {content addr : BlobAddr} {children : Children} {name : GoString}
    (h : E.Readable content children) (hname : children.lookup name = some addr)
    (hne : addr ≠ []) : E.rank addr < E.rank content := by
  rcases h with h | ⟨-, -, hall⟩
  · exact h.rank_lt hname
  · exact ((hall name addr hname).resolve_left hne).2

/-- A node that has children can only be read as those. -/
theorem reads_unique (addr : BlobAddr) (f f' : GoString → Option BlobAddr)
    (h : E.entries addr = some f) (hreads : E.Reads addr f') : f' = f := by
  obtain ⟨children, ⟨metadata, hmetadata, -, hcontent⟩, rfl⟩ := exists_dirAt_of_entries h
  obtain ⟨metadata', map, hmetadata', -, hreadable, rfl⟩ := hreads
  have hm : metadata' = metadata := hmetadata'.unique hmetadata
  subst hm
  rw [hreadable.eq_of_contentAt hcontent]

theorem DirAt.exact {addr : BlobAddr} {children : Children} (h : E.DirAt addr children) :
    PathTree.Exact E.entries E.Reads addr :=
  PathTree.exact_of_kids reads_unique h.entries

/-- A file is exact: it is never read as a directory. -/
theorem exact_of_not_isDir {addr : BlobAddr} (h : ¬ E.IsDir addr) :
    PathTree.Exact E.entries E.Reads addr := by
  intro f hreads
  exact absurd hreads.isDir h

end Encoding

end Grits
