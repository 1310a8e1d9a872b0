import Mathlib.Data.Finmap
import Mathlib.Data.List.Infix

/-!
# Files and directories

The part of a file system that the blob store uses.  Paths are relative to the
directory of the store and are lists of names; a file has a modification time, a
directory is there or not.
-/

namespace Grits

namespace BlobStore

/-- The names of a path, outermost first. -/
abbrev Path : Type := List (List Char)

structure DiskFile where
  data : List UInt8
  /-- In nanoseconds. -/
  modTime : ℤ

structure Disk where
  files : Finmap fun _ : Path => DiskFile
  /-- The directories below that of the store. -/
  dirs : Finset Path

namespace Disk

/-- `os.MkdirAll`. -/
def mkdirAll (dir : Path) (disk : Disk) : Disk :=
  { disk with dirs := disk.dirs ∪ dir.inits.toFinset }

/-- `os.WriteFile`, and what `os.Rename` leaves at its destination. -/
def writeFile (path : Path) (file : DiskFile) (disk : Disk) : Disk :=
  { disk with files := disk.files.insert path file }

/-- `os.Chtimes`. -/
def chtimes (path : Path) (modTime : ℤ) (disk : Disk) : Disk :=
  match disk.files.lookup path with
  | some file => { disk with files := disk.files.insert path { file with modTime := modTime } }
  | none => disk

/-- `os.Remove` of a file. -/
def removeFile (path : Path) (disk : Disk) : Disk := { disk with files := disk.files.erase path }

/-- A directory with nothing in it. -/
def IsEmpty (disk : Disk) (dir : Path) : Prop :=
  (∀ path ∈ disk.files.keys, path.dropLast ≠ dir) ∧
    ∀ other ∈ disk.dirs, other ≠ [] → other.dropLast ≠ dir

instance (disk : Disk) (dir : Path) : Decidable (disk.IsEmpty dir) :=
  inferInstanceAs (Decidable (_ ∧ _))

/-- `os.Remove` of a directory, which fails if something is in it. -/
def removeDir (dir : Path) (disk : Disk) : Option Disk :=
  if dir ∈ disk.dirs ∧ disk.IsEmpty dir then some { disk with dirs := disk.dirs.erase dir }
  else none

/-- The loop of `tryRmdirParents`: so many levels at most, and never the store itself. -/
def rmdirUp : ℕ → Path → Disk → Disk
  | 0, _, disk => disk
  | levels + 1, dir, disk =>
      if dir = [] then disk
      else match disk.removeDir dir with
        | none => disk
        | some disk => rmdirUp levels dir.dropLast disk

/-- `tryRmdirParents`. -/
def tryRmdirParents (path : Path) (disk : Disk) : Disk := rmdirUp 2 path.dropLast disk

/-- The directories above every file are there. -/
def Rooted (disk : Disk) : Prop :=
  ∀ path ∈ disk.files, ∀ dir, dir <+: path.dropLast → dir ≠ [] → dir ∈ disk.dirs

variable {disk : Disk} {path dir : Path} {file : DiskFile}

theorem files_rmdirUp (levels : ℕ) (dir : Path) (disk : Disk) :
    (disk.rmdirUp levels dir).files = disk.files := by
  induction levels generalizing dir disk with
  | zero => rfl
  | succ levels ih =>
      rw [rmdirUp]
      split
      · rfl
      · unfold removeDir
        by_cases h : dir ∈ disk.dirs ∧ disk.IsEmpty dir
        · rw [if_pos h]
          exact ih dir.dropLast _
        · rw [if_neg h]

@[simp] theorem files_tryRmdirParents (path : Path) (disk : Disk) :
    (disk.tryRmdirParents path).files = disk.files := files_rmdirUp 2 path.dropLast disk

/-- A directory above a file, or above a directory above it, is not empty. -/
theorem Rooted.not_isEmpty (h : disk.Rooted) (hpath : path ∈ disk.files)
    (hdir : dir <+: path.dropLast) : ¬ disk.IsEmpty dir := by
  rintro ⟨hfiles, hdirs⟩
  obtain ⟨rest, hrest⟩ := hdir
  cases rest with
  | nil =>
      rw [List.append_nil] at hrest
      exact hfiles path (Finmap.mem_keys.mpr hpath) hrest.symm
  | cons name rest =>
      -- the next directory on the way to the file is in it
      have hnext : dir ++ [name] <+: path.dropLast := ⟨rest, by simp [← hrest]⟩
      have hmem := h path hpath (dir ++ [name]) hnext (by simp)
      exact hdirs (dir ++ [name]) hmem (by simp) (by simp)

theorem Rooted.removeDir {disk' : Disk} (h : disk.Rooted) (hremove : disk.removeDir dir = some disk') :
    disk'.Rooted := by
  unfold Disk.removeDir at hremove
  split at hremove
  case isFalse => cases hremove
  case isTrue hempty =>
    cases hremove
    intro path hpath other hother hne
    have hmem := h path hpath other hother hne
    refine Finset.mem_erase.mpr ⟨?_, hmem⟩
    rintro rfl
    exact h.not_isEmpty hpath hother hempty.2

theorem Rooted.rmdirUp (h : disk.Rooted) (levels : ℕ) (dir : Path) :
    (disk.rmdirUp levels dir).Rooted := by
  induction levels generalizing dir disk with
  | zero => exact h
  | succ levels ih =>
      rw [Disk.rmdirUp]
      split
      · exact h
      · cases hremove : disk.removeDir dir with
        | none => exact h
        | some disk' => exact ih (h.removeDir hremove) dir.dropLast

theorem Rooted.tryRmdirParents (h : disk.Rooted) (path : Path) :
    (disk.tryRmdirParents path).Rooted := h.rmdirUp 2 path.dropLast

theorem Rooted.removeFile (h : disk.Rooted) (path : Path) : (disk.removeFile path).Rooted := by
  intro other hother
  exact h other (Finmap.mem_erase.mp hother).2

/-- A file is written once the directories above it are made. -/
theorem Rooted.writeFile (h : disk.Rooted) (path : Path) (file : DiskFile) :
    ((disk.mkdirAll path.dropLast).writeFile path file).Rooted := by
  intro other hother dir hdir hne
  have hdirs : dir ∈ disk.dirs ∪ path.dropLast.inits.toFinset := by
    rcases Finmap.mem_insert.mp hother with rfl | hother
    · exact Finset.mem_union_right _ (List.mem_toFinset.mpr ((List.mem_inits _ _).mpr hdir))
    · exact Finset.mem_union_left _ (h other hother dir hdir hne)
  exact hdirs

theorem Rooted.chtimes (h : disk.Rooted) (path : Path) (modTime : ℤ) :
    (disk.chtimes path modTime).Rooted := by
  unfold Disk.chtimes
  cases hfile : disk.files.lookup path with
  | none => exact h
  | some file =>
      intro other hother
      rcases Finmap.mem_insert.mp hother with rfl | hother
      · exact h other (Finmap.mem_of_lookup_eq_some hfile)
      · exact h other hother

end Disk

end BlobStore

end Grits
