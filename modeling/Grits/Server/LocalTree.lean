import Grits.NameStore.DirectoryTree

/-!
# Local directory trees and the blobs they are imported as

A file or directory of the real file system as `os.Stat` and `os.ReadDir` show it, and the
metadata address that `importNode` arrives at for it: a function of the tree alone.
-/

namespace Grits

namespace LocalTree

/-- What can fail at a local path. -/
inductive Failure
  /-- `os.Stat` -/
  | stat
  /-- `os.Open` of a file -/
  | openFile
  /-- Reading a file. -/
  | copy
  /-- `os.ReadDir` -/
  | readDir
  deriving DecidableEq

mutual

/-- What is at a local path, symbolic links followed. -/
inductive LocalNode
  | file (data : Bytes) (mode : UInt32) (modTime : ℤ)
  | dir (entries : LocalEntries) (mode : UInt32) (modTime : ℤ)
  /-- Something fails, with this text. -/
  | unreadable (failure : Failure) (text : GoString)

/-- What `os.ReadDir` lists. -/
inductive LocalEntries
  | nil
  | cons (name : GoString) (node : LocalNode) (rest : LocalEntries)

end

namespace LocalEntries

/-- The names that are listed. -/
def names : LocalEntries → List GoString
  | .nil => []
  | .cons name _ rest => name :: rest.names

/-- The entry of a name. -/
def find (wanted : GoString) : LocalEntries → Option LocalNode
  | .nil => none
  | .cons name node rest => if wanted = name then some node else rest.find wanted

end LocalEntries

/-- What is at a path below a node. -/
def LocalNode.at : LocalNode → List GoString → Option LocalNode
  | node, [] => some node
  | .dir entries _ _, name :: path => (entries.find name).bind fun node => node.at path
  | .file _ _ _, _ :: _ => none
  | .unreadable _ _, _ :: _ => none

/-- A name that a directory can list. -/
def IsName (name : GoString) : Prop :=
  name ≠ [] ∧ name ≠ ['.'] ∧ name ≠ ['.', '.'] ∧ '/' ∉ name

mutual

/-- The names in every directory are names, and no two are the same. -/
def LocalNode.Proper : LocalNode → Prop
  | .file _ _ _ => True
  | .dir entries _ _ => entries.Proper
  | .unreadable _ _ => True

def LocalEntries.Proper : LocalEntries → Prop
  | .nil => True
  | .cons name node rest => IsName name ∧ name ∉ rest.names ∧ node.Proper ∧ rest.Proper

end

mutual

/-- Everything in the tree can be read. -/
def LocalNode.Readable : LocalNode → Prop
  | .file _ _ _ => True
  | .dir entries _ _ => entries.Readable
  | .unreadable _ _ => False

def LocalEntries.Readable : LocalEntries → Prop
  | .nil => True
  | .cons _ node rest => node.Readable ∧ rest.Readable

end

/-! ## Addresses -/

section

variable (E : Encoding) (rfc3339 : ℤ → GoString)

/-- The metadata that `importFile` writes. -/
def fileMetadata (data : Bytes) (mode : UInt32) (modTime : ℤ) : GNodeMetadata where
  type := .file
  size := Int64.ofNat data.length
  contentHash := E.sum data
  mode := mode
  timestamp := rfc3339 modTime

/-- The metadata that `importDir` writes. -/
def dirMetadata (children : Children) (mode : UInt32) (modTime : ℤ) : GNodeMetadata where
  type := .directory
  size := Int64.ofNat (E.marshalDir children).length
  contentHash := E.sum (E.marshalDir children)
  mode := mode
  timestamp := rfc3339 modTime

mutual

/-- The metadata address of a node. -/
def LocalNode.addr : LocalNode → BlobAddr
  | .file data mode modTime => E.sum (E.marshalMetadata (fileMetadata E rfc3339 data mode modTime))
  | .dir entries mode modTime =>
      E.sum (E.marshalMetadata (dirMetadata E rfc3339 (entries.fill ∅) mode modTime))
  | .unreadable _ _ => []

/-- The children of a directory, added one after another to those there are. -/
def LocalEntries.fill (children : Children) : LocalEntries → Children
  | .nil => children
  | .cons name node rest => rest.fill (children.insert name node.addr)

end

end

/-! ## What is at an address -/

variable {E : Encoding} {rfc3339 : ℤ → GoString}

theorem LocalEntries.find_eq_none {wanted : GoString} :
    ∀ {entries : LocalEntries}, wanted ∉ entries.names → entries.find wanted = none
  | .nil, _ => rfl
  | .cons name node rest, h => by
      rw [LocalEntries.names, List.mem_cons, not_or] at h
      rw [LocalEntries.find, if_neg h.1]
      exact find_eq_none h.2

/-- The children of a directory are the addresses of its entries. -/
theorem LocalEntries.lookup_fill (wanted : GoString) :
    ∀ {entries : LocalEntries} (children : Children), entries.Proper →
      (entries.fill E rfc3339 children).lookup wanted =
        match entries.find wanted with
        | some node => some (node.addr E rfc3339)
        | none => children.lookup wanted
  | .nil, children, _ => rfl
  | .cons name node rest, children, h => by
      obtain ⟨-, hname, -, hrest⟩ := h
      rw [LocalEntries.fill, lookup_fill wanted _ hrest, LocalEntries.find]
      by_cases hwanted : wanted = name
      · rw [if_pos hwanted, hwanted, find_eq_none hname]
        exact Finmap.lookup_insert _
      · rw [if_neg hwanted]
        cases rest.find wanted with
        | some other => rfl
        | none => exact Finmap.lookup_insert_of_ne _ hwanted

theorem LocalEntries.find_proper {wanted : GoString} {node : LocalNode} :
    ∀ {entries : LocalEntries}, entries.Proper → entries.find wanted = some node →
      IsName wanted ∧ node.Proper
  | .nil, _, h => by cases h
  | .cons name other rest, hproper, h => by
      obtain ⟨hname, -, hother, hrest⟩ := hproper
      rw [LocalEntries.find] at h
      split at h
      next heq =>
        cases h
        exact ⟨heq ▸ hname, hother⟩
      next => exact find_proper hrest h

theorem LocalEntries.find_readable {wanted : GoString} {node : LocalNode} :
    ∀ {entries : LocalEntries}, entries.Readable → entries.find wanted = some node → node.Readable
  | .nil, _, h => by cases h
  | .cons name other rest, hreadable, h => by
      rw [LocalEntries.find] at h
      split at h
      next =>
        cases h
        exact hreadable.1
      next => exact find_readable hreadable.2 h

theorem LocalNode.isCid_addr {node : LocalNode} (h : node.Readable) :
    IsCid (node.addr E rfc3339) := by
  cases node with
  | file data mode modTime => exact E.isCid_sum _
  | dir entries mode modTime => exact E.isCid_sum _
  | unreadable failure text => exact h.elim

/-- The metadata at the address of a file. -/
theorem metadataAt_file (data : Bytes) (mode : UInt32) (modTime : ℤ) :
    E.MetadataAt ((LocalNode.file data mode modTime).addr E rfc3339)
      (fileMetadata E rfc3339 data mode modTime) :=
  ⟨_, rfl, E.unmarshalMetadata_marshalMetadata _ (.inl rfl)⟩

/-- The metadata at the address of a directory. -/
theorem metadataAt_dir (entries : LocalEntries) (mode : UInt32) (modTime : ℤ) :
    E.MetadataAt ((LocalNode.dir entries mode modTime).addr E rfc3339)
      (dirMetadata E rfc3339 (entries.fill E rfc3339 ∅) mode modTime) :=
  ⟨_, rfl, E.unmarshalMetadata_marshalMetadata _ (.inr rfl)⟩

theorem dirAt_dir {entries : LocalEntries} (hproper : entries.Proper) (hreadable : entries.Readable)
    (mode : UInt32) (modTime : ℤ) :
    E.DirAt ((LocalNode.dir entries mode modTime).addr E rfc3339) (entries.fill E rfc3339 ∅) := by
  refine ⟨_, metadataAt_dir entries mode modTime, rfl, Encoding.contentAt_marshalDir ?_⟩
  intro name addr hlookup
  rw [LocalEntries.lookup_fill name ∅ hproper] at hlookup
  cases hfind : entries.find name with
  | none =>
      rw [hfind] at hlookup
      cases hlookup
  | some node =>
      rw [hfind] at hlookup
      cases hlookup
      exact LocalNode.isCid_addr (LocalEntries.find_readable hreadable hfind)

theorem not_isDir_file (data : Bytes) (mode : UInt32) (modTime : ℤ) :
    ¬ E.IsDir ((LocalNode.file data mode modTime).addr E rfc3339) := by
  rintro ⟨metadata, hmetadata, htype⟩
  rw [hmetadata.unique (metadataAt_file data mode modTime)] at htype
  cases htype

/-- The tree at the address of a node is that of the node. -/
theorem walk_addr {node : LocalNode} (hproper : node.Proper) (hreadable : node.Readable)
    (path : List GoString) :
    E.walk (some (node.addr E rfc3339)) path = (node.at path).map (LocalNode.addr E rfc3339) := by
  induction path generalizing node with
  | nil => cases node <;> rfl
  | cons name path ih =>
      cases node with
      | file data mode modTime =>
          rw [Encoding.walk, PathTree.walk_cons, PathTree.child, Option.bind_some,
            Encoding.entries_eq_none (not_isDir_file data mode modTime)]
          exact PathTree.walk_none E.entries path
      | dir entries mode modTime =>
          rw [Encoding.walk, PathTree.walk_cons, (dirAt_dir hproper hreadable mode modTime).child,
            LocalEntries.lookup_fill name ∅ hproper, LocalNode.at]
          cases hfind : entries.find name with
          | none => exact PathTree.walk_none E.entries path
          | some child =>
              exact ih (LocalEntries.find_proper hproper hfind).2
                (LocalEntries.find_readable hreadable hfind)
      | unreadable failure text => exact hreadable.elim

theorem LocalNode.at_good {node other : LocalNode} (hproper : node.Proper)
    (hreadable : node.Readable) {path : List GoString} (h : node.at path = some other) :
    (∀ name ∈ path, IsName name) ∧ other.Proper ∧ other.Readable := by
  induction path generalizing node with
  | nil =>
      have hother : other = node := by
        cases node <;> exact (Option.some.inj h).symm
      rw [hother]
      exact ⟨by simp, hproper, hreadable⟩
  | cons name path ih =>
      cases node with
      | file data mode modTime => cases h
      | dir entries mode modTime =>
          obtain ⟨child, hfind, hat⟩ := Option.bind_eq_some_iff.mp h
          obtain ⟨hname, hchild⟩ := LocalEntries.find_proper hproper hfind
          obtain ⟨hpath, hgood⟩ :=
            ih hchild (LocalEntries.find_readable hreadable hfind) hat
          exact ⟨List.forall_mem_cons.mpr ⟨hname, hpath⟩, hgood⟩
      | unreadable failure text => exact hreadable.elim

end LocalTree

end Grits
