import Grits.Library.Runs
import Grits.Library.SlashPath
import Mathlib.Data.Finmap

/-!
# The inode numbers of the mount

`InodeManager` of `internal/gritsd/module_mount.go`, and what `gritsNode.Rename` does to
its map.  The operations take the lock of the manager, so that a history of the mount is
a sequence of them.
-/

namespace Grits

namespace Mount

open SlashPath Runs

/-- `InodeManager` -/
structure InodeManager where
  inodeMap : Finmap fun _ : GoString => UInt64
  lastInode : UInt64

/-- `NewInodeManager`, with the root registered as `Start` does. -/
def InodeManager.started : InodeManager := ⟨(∅ : Finmap fun _ => UInt64).insert [] 1, 1⟩

/-- `InodeManager.AssignInode` -/
def InodeManager.assignInode (m : InodeManager) (path : GoString) : UInt64 × InodeManager :=
  match m.inodeMap.lookup path with
  | some inode => (inode, m)
  | none => (m.lastInode + 1, ⟨m.inodeMap.insert path (m.lastInode + 1), m.lastInode + 1⟩)

/-- `InodeManager.RemoveInode` -/
def InodeManager.removeInode (m : InodeManager) (path : GoString) : InodeManager :=
  { m with inodeMap := m.inodeMap.erase path }

/-- The numbers `Rename` notifies the kernel of. -/
structure RenamedInodes where
  oldParentInode : UInt64
  oldChildInode : UInt64
  newParentInode : UInt64

/-- The last part of `gritsNode.Rename`: nothing is `EIO`.  A name that is not in the map
reads as 0. -/
def InodeManager.rename (m : InodeManager) (dir newDir fullPath fullNewPath : GoString) :
    Option RenamedInodes × InodeManager :=
  let inodeMap := m.inodeMap.insert fullNewPath ((m.inodeMap.lookup fullPath).getD 0)
  let renamed := do
    let oldParentInode ← inodeMap.lookup dir
    let oldChildInode ← inodeMap.lookup fullPath
    let newParentInode ← inodeMap.lookup newDir
    pure ⟨oldParentInode, oldChildInode, newParentInode⟩
  (renamed, { m with inodeMap := inodeMap.erase fullPath })

/-- An operation on the manager. -/
inductive InodeOp where
  | assign (path : GoString)
  | remove (path : GoString)
  /-- `Rename` in the directory `dir`, of a name that is not empty. -/
  | rename (dir name newDir newName : GoString) (hname : name ≠ []) (hnewName : newName ≠ [])

/-- The manager after an operation. -/
def InodeOp.run : InodeOp → InodeManager → InodeManager
  | .assign path, m => (m.assignInode path).2
  | .remove path, m => m.removeInode path
  | .rename dir name newDir newName _ _, m =>
      (m.rename dir newDir (joinClean dir name) (joinClean newDir newName)).2

/-- The operation removes the path, or renames it away or over. -/
def InodeOp.Names : InodeOp → GoString → Prop
  | .assign _, _ => False
  | .remove path, other => path = other
  | .rename dir name newDir newName _ _, other =>
      joinClean dir name = other ∨ joinClean newDir newName = other

/-- What the numbers are for. -/
structure Numbered (m : InodeManager) : Prop where
  unique : ∀ path other inode, m.inodeMap.lookup path = some inode →
    m.inodeMap.lookup other = some inode → path = other
  nonzero : ∀ path, m.inodeMap.lookup path ≠ some 0
  root : m.inodeMap.lookup [] = some 1

/-- The manager after a sequence of operations. -/
def history (ops : List InodeOp) : InodeManager :=
  ops.foldl (fun m (op : InodeOp) => op.run m) .started

/-- A path keeps its number while no operation removes or renames it. -/
def KeepsNumbers (ops : List InodeOp) : Prop :=
  ∀ before after, ops = before ++ after → ∀ path inode,
    (history before).inodeMap.lookup path = some inode →
    (∀ op ∈ after, ¬ op.Names path) → (history ops).inodeMap.lookup path = some inode

/-- There is a number left for a new path, the root is not removed, and what is renamed
has a number. -/
def InodeOp.Meets : InodeOp → InodeManager → Prop
  | .assign path, m => m.inodeMap.lookup path = none → m.lastInode + 1 ≠ 0
  | .remove path, _ => path ≠ []
  | .rename dir name newDir newName _ _, m =>
      joinClean dir name = joinClean newDir newName ∨
        m.inodeMap.lookup (joinClean dir name) ≠ none

/-! ## What one operation does -/

theorem lookup_assignInode (m : InodeManager) (path other : GoString) :
    (m.assignInode path).2.inodeMap.lookup other =
      if other = path then some (m.assignInode path).1 else m.inodeMap.lookup other := by
  unfold InodeManager.assignInode
  by_cases h : other = path
  · rw [if_pos h, h]
    cases hlookup : m.inodeMap.lookup path with
    | none => exact Finmap.lookup_insert ..
    | some inode => exact hlookup
  · rw [if_neg h]
    cases m.inodeMap.lookup path with
    | none => exact Finmap.lookup_insert_of_ne _ h
    | some inode => rfl

theorem lookup_removeInode (m : InodeManager) (path other : GoString) :
    (m.removeInode path).inodeMap.lookup other =
      if other = path then none else m.inodeMap.lookup other := by
  by_cases h : other = path
  · rw [if_pos h, h]
    exact Finmap.lookup_erase path m.inodeMap
  · rw [if_neg h]
    exact Finmap.lookup_erase_ne h

/-- The new name has the number of the old one, or 0. -/
theorem lookup_rename (m : InodeManager) (dir newDir fullPath fullNewPath other : GoString) :
    (m.rename dir newDir fullPath fullNewPath).2.inodeMap.lookup other =
      if other = fullPath then none
      else if other = fullNewPath then some ((m.inodeMap.lookup fullPath).getD 0)
      else m.inodeMap.lookup other := by
  simp only [InodeManager.rename]
  by_cases h : other = fullPath
  · rw [if_pos h, h]
    exact Finmap.lookup_erase ..
  · rw [if_neg h, Finmap.lookup_erase_ne h]
    by_cases h' : other = fullNewPath
    · rw [if_pos h', h']
      exact Finmap.lookup_insert ..
    · rw [if_neg h']
      exact Finmap.lookup_insert_of_ne _ h'

/-- An operation leaves the other paths alone. -/
theorem InodeOp.lookup_run (op : InodeOp) (m : InodeManager) {path : GoString} {inode : UInt64}
    (h : m.inodeMap.lookup path = some inode) (hnot : ¬ op.Names path) :
    (op.run m).inodeMap.lookup path = some inode := by
  cases op with
  | assign other =>
      rw [InodeOp.run, lookup_assignInode]
      split
      next heq =>
        subst heq
        rw [InodeManager.assignInode, h]
      next => exact h
  | remove other =>
      rw [InodeOp.run, lookup_removeInode, if_neg fun heq => hnot heq.symm]
      exact h
  | rename dir name newDir newName hname hnewName =>
      rw [InodeOp.Names, not_or] at hnot
      rw [InodeOp.run, lookup_rename, if_neg (Ne.symm hnot.1), if_neg (Ne.symm hnot.2)]
      exact h

theorem keepsNumbers (ops : List InodeOp) : KeepsNumbers ops := by
  rintro before after rfl path inode hlookup hnot
  induction after using List.reverseRecOn with
  | nil => rwa [List.append_nil]
  | append_singleton after op ih =>
      have hafter := ih fun other hother => hnot other (List.mem_append_left _ hother)
      rw [← List.append_assoc, history, List.foldl_concat]
      exact op.lookup_run _ hafter (hnot op (by simp))

/-! ## Runs -/

/-- The numbers are as they should be, and those above the last one are not in use. -/
structure Counted (m : InodeManager) : Prop where
  numbered : Numbered m
  le_last : ∀ path inode, m.inodeMap.lookup path = some inode → inode ≤ m.lastInode

theorem lookup_started (path : GoString) :
    InodeManager.started.inodeMap.lookup path = if path = [] then some 1 else none := by
  rw [InodeManager.started]
  split
  next heq =>
    rw [heq]
    exact Finmap.lookup_insert ..
  next hne =>
    rw [Finmap.lookup_insert_of_ne _ hne]
    exact Finmap.lookup_empty path

theorem counted_started : Counted .started := by
  refine ⟨⟨?_, ?_, ?_⟩, ?_⟩
  · intro path other inode hpath hother
    rw [lookup_started] at hpath hother
    split at hpath
    next heq =>
      split at hother
      next heq' => rw [heq, heq']
      next => cases hother
    next => cases hpath
  · intro path hpath
    rw [lookup_started] at hpath
    split at hpath
    next => cases hpath
    next => cases hpath
  · rw [lookup_started, if_pos rfl]
  · intro path inode hpath
    rw [lookup_started] at hpath
    split at hpath
    next =>
      cases hpath
      exact UInt64.le_refl _
    next => cases hpath

theorem lt_succ_of_ne_zero {a b : UInt64} (h : b + 1 ≠ 0) (hle : a ≤ b) : a < b + 1 := by
  have hb : (b + 1).toNat ≠ 0 := fun h0 => h (UInt64.toNat_inj.mp h0)
  rw [UInt64.lt_iff_toNat_lt]
  rw [UInt64.le_iff_toNat_le] at hle
  have hlt := UInt64.toNat_lt b
  rw [UInt64.toNat_add] at hb ⊢
  have hone : (1 : UInt64).toNat = 1 := rfl
  omega

/-- A new path gets a number that no other path has. -/
theorem Counted.assign {m : InodeManager} (h : Counted m) {path : GoString}
    (hmeets : (InodeOp.assign path).Meets m) : Counted (m.assignInode path).2 := by
  cases hlookup : m.inodeMap.lookup path with
  | some inode =>
      rw [InodeManager.assignInode, hlookup]
      exact h
  | none =>
      have hlast : m.lastInode + 1 ≠ 0 := hmeets hlookup
      have hnumber : (m.assignInode path).1 = m.lastInode + 1 := by
        rw [InodeManager.assignInode, hlookup]
      have hnew : ∀ other inode, m.inodeMap.lookup other = some inode → inode < m.lastInode + 1 :=
        fun other inode hother => lt_succ_of_ne_zero hlast (h.le_last other inode hother)
      have hroot : [] ≠ path := by
        rintro rfl
        rw [h.numbered.root] at hlookup
        cases hlookup
      refine ⟨⟨?_, ?_, ?_⟩, ?_⟩
      · intro other other' inode hother hother'
        rw [lookup_assignInode, hnumber] at hother hother'
        split at hother
        next heq =>
          split at hother'
          next heq' => rw [heq, heq']
          next =>
            cases hother
            exact absurd (hnew other' _ hother') (UInt64.lt_irrefl _)
        next =>
          split at hother'
          next =>
            cases hother'
            exact absurd (hnew other _ hother) (UInt64.lt_irrefl _)
          next => exact h.numbered.unique other other' inode hother hother'
      · intro other hother
        rw [lookup_assignInode, hnumber] at hother
        split at hother
        next => exact hlast (Option.some.inj hother)
        next => exact h.numbered.nonzero other hother
      · rw [lookup_assignInode, if_neg hroot]
        exact h.numbered.root
      · have hcount : (m.assignInode path).2.lastInode = m.lastInode + 1 := by
          rw [InodeManager.assignInode, hlookup]
        intro other inode hother
        rw [lookup_assignInode, hnumber] at hother
        rw [hcount]
        split at hother
        next =>
          cases hother
          exact UInt64.le_refl _
        next => exact UInt64.le_of_lt (hnew other inode hother)

theorem Counted.remove {m : InodeManager} (h : Counted m) {path : GoString} (hpath : path ≠ []) :
    Counted (m.removeInode path) := by
  have hlookup : ∀ other inode, (m.removeInode path).inodeMap.lookup other = some inode →
      m.inodeMap.lookup other = some inode := by
    intro other inode hother
    rw [lookup_removeInode] at hother
    split at hother
    next => cases hother
    next => exact hother
  refine ⟨⟨?_, ?_, ?_⟩, ?_⟩
  · exact fun other other' inode hother hother' =>
      h.numbered.unique other other' inode (hlookup _ _ hother) (hlookup _ _ hother')
  · exact fun other hother => h.numbered.nonzero other (hlookup _ _ hother)
  · rw [lookup_removeInode, if_neg (Ne.symm hpath)]
    exact h.numbered.root
  · exact fun other inode hother => h.le_last other inode (hlookup _ _ hother)

/-- The new name takes the number of the old one, which goes. -/
theorem Counted.rename {m : InodeManager} (h : Counted m)
    {dir newDir fullPath fullNewPath : GoString} (hpath : fullPath ≠ []) (hnew : fullNewPath ≠ [])
    (hmeets : fullPath = fullNewPath ∨ m.inodeMap.lookup fullPath ≠ none) :
    Counted (m.rename dir newDir fullPath fullNewPath).2 := by
  -- where a number comes from
  have hlookup : ∀ other inode,
      (m.rename dir newDir fullPath fullNewPath).2.inodeMap.lookup other = some inode →
      other ≠ fullPath ∧ (other = fullNewPath ∧ m.inodeMap.lookup fullPath = some inode ∨
        m.inodeMap.lookup other = some inode) := by
    intro other inode hother
    rw [lookup_rename] at hother
    split at hother
    next => cases hother
    next hne =>
      refine ⟨hne, ?_⟩
      split at hother
      next heq =>
        have hsource : m.inodeMap.lookup fullPath ≠ none :=
          hmeets.resolve_left fun heq' => hne (heq.trans heq'.symm)
        obtain ⟨number, hnumber⟩ := Option.ne_none_iff_exists'.mp hsource
        rw [hnumber, Option.getD_some] at hother
        exact .inl ⟨heq, hnumber.trans hother⟩
      next => exact .inr hother
  refine ⟨⟨?_, ?_, ?_⟩, ?_⟩
  · intro other other' inode hother hother'
    obtain ⟨hne, hother⟩ := hlookup other inode hother
    obtain ⟨hne', hother'⟩ := hlookup other' inode hother'
    rcases hother with ⟨heq, hsource⟩ | hother
    · rcases hother' with ⟨heq', -⟩ | hother'
      · rw [heq, heq']
      · exact absurd (h.numbered.unique other' fullPath inode hother' hsource) hne'
    · rcases hother' with ⟨-, hsource⟩ | hother'
      · exact absurd (h.numbered.unique other fullPath inode hother hsource) hne
      · exact h.numbered.unique other other' inode hother hother'
  · intro other hother
    rcases (hlookup other 0 hother).2 with ⟨-, hsource⟩ | hother
    · exact h.numbered.nonzero fullPath hsource
    · exact h.numbered.nonzero other hother
  · rw [lookup_rename, if_neg (Ne.symm hpath), if_neg (Ne.symm hnew)]
    exact h.numbered.root
  · intro other inode hother
    rcases (hlookup other inode hother).2 with ⟨-, hsource⟩ | hother
    · exact h.le_last fullPath inode hsource
    · exact h.le_last other inode hother

theorem Counted.run {m : InodeManager} (h : Counted m) (op : InodeOp) (hmeets : op.Meets m) :
    Counted (op.run m) := by
  cases op with
  | assign path => exact h.assign hmeets
  | remove path => exact h.remove hmeets
  | rename dir name newDir newName hname hnewName =>
      exact h.rename (joinClean_ne_nil dir hname) (joinClean_ne_nil newDir hnewName) hmeets

/-- An operation that does not meet the condition spoils a number. -/
theorem InodeOp.meets_of_numbered {m : InodeManager} (op : InodeOp)
    (hnumbered : Numbered (op.run m)) : op.Meets m := by
  cases op with
  | assign path =>
      intro hlookup hzero
      refine hnumbered.nonzero path ?_
      rw [InodeOp.run, lookup_assignInode, if_pos rfl, InodeManager.assignInode, hlookup]
      exact congrArg some hzero
  | remove path =>
      rintro rfl
      have hroot := hnumbered.root
      rw [InodeOp.run, lookup_removeInode, if_pos rfl] at hroot
      cases hroot
  | rename dir name newDir newName hname hnewName =>
      rw [InodeOp.Meets, or_iff_not_imp_left]
      intro hne hlookup
      refine hnumbered.nonzero (joinClean newDir newName) ?_
      rw [InodeOp.run, lookup_rename, if_neg (Ne.symm hne), if_pos rfl, hlookup]
      rfl

/-- Along a sequence of operations the inode numbers are unique, none is 0, the root keeps
its own and a path keeps its number until it is renamed or removed, exactly if every
renamed source has a number, the root is not removed and the numbers do not run out. -/
theorem inodes_numbered_iff (ops : List InodeOp) :
    (Throughout InodeOp.run Numbered ops .started ∧ KeepsNumbers ops) ↔
      Each InodeOp.run InodeOp.Meets ops .started := by
  rw [and_iff_left (keepsNumbers ops)]
  exact throughout_iff_each InodeOp.run (fun _ h => h.numbered)
    (fun op m h hmeets => h.run op hmeets) (fun op _ _ hnumbered => op.meets_of_numbered hnumbered) ops
    counted_started

/-- A file is renamed whose name has no number: the new name gets 0. -/
theorem rename_missing_source :
    ¬ (Throughout InodeOp.run Numbered
        [.rename [] ['a'] [] ['b'] (by decide) (by decide)] .started ∧
      KeepsNumbers [.rename [] ['a'] [] ['b'] (by decide) (by decide)]) := by
  rintro ⟨⟨-, hnumbered⟩, -⟩
  have hzero : (InodeOp.run (.rename [] ['a'] [] ['b'] (by decide) (by decide))
      .started).inodeMap.lookup ['b'] = some 0 := by decide +kernel
  exact hnumbered.nonzero ['b'] hzero

end Mount

end Grits
