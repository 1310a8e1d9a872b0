import Mathlib
import Grits.Library.Simulation
import Grits.Mount.VolumeCalls

/-!
# What a file of the mount is for

The volume has a file at a path; the node of the mount has edits of it that nobody else sees until
they are saved as a whole.  A file is an array of bytes with its metadata.
-/

namespace Grits

namespace Mount

open PosixFile Simulation

/-! ## States -/

/-- What a node has of the file. -/
inductive Edits where
  /-- Nothing: the next call that needs the file looks it up. -/
  | closed
  /-- The file as it is in the volume. -/
  | clean
  /-- The file as it is in the volume, which could not be opened. -/
  | stuck
  /-- A file that is not in the volume yet. -/
  | unsaved (view : FileView)

/-- The file in the volume, what the node has of it, and how often the node is open. -/
structure FileModel where
  saved : Option FileView
  edits : Edits
  handles : ℤ

/-- The file that a reader of the node sees. -/
def FileModel.current (m : FileModel) : Option FileView :=
  match m.edits with
  | .closed => m.saved
  | .clean => m.saved
  | .stuck => none
  | .unsaved view => some view

/-- A file that is made by writing to it. -/
def blankView : FileView := ⟨empty, .file, 0o644, []⟩

/-- Cut off or filled up, unless the length is -1. -/
def FileView.truncated (view : FileView) (truncLen : ℤ) : FileView :=
  if truncLen = -1 then view else { view with contents := view.contents.truncate truncLen.toNat }

/-- Bytes put at an offset. -/
def FileView.written (view : FileView) (off : ℤ) (data : Bytes) : FileView :=
  { view with contents := view.contents.write off.toNat data }

/-- With another time. -/
def FileView.stamped (view : FileView) (timestamp : GoString) : FileView :=
  { view with timestamp := timestamp }

/-- The mode and the time set. -/
def SetAttrIn.view (rfc3339 : ℤ → GoString) (attrs : SetAttrIn) (view : FileView) : FileView :=
  let view := if attrs.modeChanged then { view with mode := attrs.mode } else view
  if attrs.timestampChanged then view.stamped (rfc3339 attrs.time) else view

/-! ## The parts of a call -/

section

variable (faulty : Prop)

/-- The file is looked up, if the node has nothing of it; `found` tells whether that goes well. -/
inductive Loads : FileModel → (found : Bool) → FileModel → Prop
  | already {m : FileModel} (h : m.edits ≠ .closed) : Loads m true m
  | found {m : FileModel} (h : m.edits = .closed) (hsaved : m.saved ≠ none) :
      Loads m true { m with edits := .clean }
  | missing {m : FileModel} (h : m.edits = .closed) (hsaved : m.saved = none) : Loads m false m
  | unreadable {m : FileModel} (h : m.edits = .closed) (hsaved : m.saved ≠ none) (hfault : faulty) :
      Loads m false { m with edits := .stuck }

/-- The node gets a file that can be written to, of the length asked for. -/
inductive Starts (truncLen : ℤ) : FileModel → (started : Bool) → FileModel → Prop
  | unsaved {m : FileModel} {view : FileView} (h : m.edits = .unsaved view) (hlen : -1 ≤ truncLen) :
      Starts truncLen m true { m with edits := .unsaved (view.truncated truncLen) }
  | saved {m : FileModel} {view : FileView} (h : m.edits = .clean) (hsaved : m.saved = some view)
      (hlen : -1 ≤ truncLen) (hsize : truncLen ≤ view.contents.size) :
      Starts truncLen m true { m with edits := .unsaved (view.truncated truncLen) }
  /-- Without the file in the volume: what is there will be replaced. -/
  | blank {m : FileModel} (h : m.edits = .closed) :
      Starts truncLen m true { m with edits := .unsaved blankView }
  | stuck {m : FileModel} (h : m.edits = .stuck) : Starts truncLen m false m
  | negative {m : FileModel} (h : m.edits ≠ .closed) (hlen : truncLen < -1) :
      Starts truncLen m false m
  /-- A file of the volume is not made longer. -/
  | beyond {m : FileModel} {view : FileView} (h : m.edits = .clean) (hsaved : m.saved = some view)
      (hsize : view.contents.size < truncLen) : Starts truncLen m false m
  | fault {m : FileModel} (hfault : faulty) : Starts truncLen m false m

/-- The edits are put in the volume, or lost. -/
inductive Saves : FileModel → (saved : Bool) → FileModel → Prop
  | nothing {m : FileModel} (h : ∀ view, m.edits ≠ .unsaved view) : Saves m true m
  | saved {m : FileModel} {view : FileView} (h : m.edits = .unsaved view) :
      Saves m true { m with saved := some view, edits := .clean }
  | savedStuck {m : FileModel} {view : FileView} (h : m.edits = .unsaved view) (hfault : faulty) :
      Saves m true { m with saved := some view, edits := .stuck }
  | lost {m : FileModel} {view : FileView} (h : m.edits = .unsaved view) :
      Saves m false { m with edits := .closed }

end

/-! ## Calls -/

/-- A call of the kernel on a file. -/
inductive FileCall where
  | openFile (flags : UInt32)
  | read (off : ℤ) (len : ℕ)
  | write (handle : Option FileHandle) (data : Bytes) (off : ℤ)
  | setattr (attrs : SetAttrIn)
  | fsync
  | flush
  | release

/-- What a call returns besides `fs.OK`. -/
inductive FileReply where
  | done
  | handle (handle : FileHandle)
  | bytes (data : Bytes)
  | count (n : UInt32)
  deriving DecidableEq

/-- A call that has returned. -/
structure Answered where
  host : Host
  call : FileCall
  result : Except FileStop FileReply

/-- A system call has failed. -/
def Host.Faulty (host : Host) : Prop := host ≠ { now := host.now }

section

variable (rfc3339 : ℤ → GoString) (readOnly : Bool)

/-- `Setattr` has something to do. -/
def SetAttrIn.Changes (attrs : SetAttrIn) : Prop :=
  attrs.sizeChanged = true ∨ attrs.modeChanged = true ∨ attrs.timestampChanged = true

/-- The handle cannot be written through. -/
def Unwritable (handle : Option FileHandle) : Prop :=
  readOnly = true ∨ ∀ h, handle = some h → h.isReadOnly = true

/-- What a call may do, and what it returns. -/
inductive FileStep : FileModel → Answered → FileModel → Prop
  | openMore {host : Host} {m : FileModel} (flags : UInt32) (h : m.handles ≠ 0) :
      FileStep m ⟨host, .openFile flags, .ok (.handle (handleOf flags))⟩
        { m with handles := m.handles + 1 }
  | openFirst {host : Host} {m m' : FileModel} (flags : UInt32) (h : m.handles = 0)
      (hload : Loads host.Faulty m true m') :
      FileStep m ⟨host, .openFile flags, .ok (.handle (handleOf flags))⟩
        { m' with handles := m'.handles + 1 }
  | openFails {host : Host} {m m' : FileModel} (flags : UInt32) (h : m.handles = 0)
      (hload : Loads host.Faulty m false m') (e : FileErrno) :
      FileStep m ⟨host, .openFile flags, .error (.errno e)⟩ m'
  | readFails {host : Host} {m m' : FileModel} (off : ℤ) (len : ℕ)
      (hload : Loads host.Faulty m false m') (e : FileErrno) :
      FileStep m ⟨host, .read off len, .error (.errno e)⟩ m'
  | readStops {host : Host} {m m' : FileModel} (off : ℤ) (len : ℕ)
      (hload : Loads host.Faulty m true m')
      (h : off < 0 ∨ m'.edits = .stuck ∨ host.Faulty) (e : FileErrno) :
      FileStep m ⟨host, .read off len, .error (.errno e)⟩ m'
  | read {host : Host} {m m' : FileModel} {off : ℤ} {view : FileView} (len : ℕ)
      (hload : Loads host.Faulty m true m') (hview : m'.current = some view) (hoff : 0 ≤ off) :
      FileStep m ⟨host, .read off len, .ok (.bytes (view.contents.read off.toNat len))⟩ m'
  | writeRefused {host : Host} {m : FileModel} {handle : Option FileHandle} (data : Bytes) (off : ℤ)
      (h : Unwritable readOnly handle) (e : FileErrno) :
      FileStep m ⟨host, .write handle data off, .error (.errno e)⟩ m
  | writeFails {host : Host} {m m' : FileModel} {handle : Option FileHandle} (data : Bytes)
      (off : ℤ) (h : ¬ Unwritable readOnly handle) (hstart : Starts host.Faulty (-1) m false m')
      (e : FileErrno) : FileStep m ⟨host, .write handle data off, .error (.errno e)⟩ m'
  | writeStops {host : Host} {m m' : FileModel} {handle : Option FileHandle} {data : Bytes} {off : ℤ}
      {view : FileView} (h : ¬ Unwritable readOnly handle)
      (hstart : Starts host.Faulty (-1) m true m') (hview : m'.edits = .unsaved view) (n : ℕ)
      (hstop : off < 0 ∧ n = 0 ∨ host.Faulty) (e : FileErrno) :
      FileStep m ⟨host, .write handle data off, .error (.errno e)⟩
        { m' with edits := .unsaved (view.written off (data.take n)) }
  | write {host : Host} {m m' : FileModel} {handle : Option FileHandle} {data : Bytes} {off : ℤ}
      {view : FileView} (h : ¬ Unwritable readOnly handle)
      (hstart : Starts host.Faulty (-1) m true m') (hview : m'.edits = .unsaved view)
      (hoff : 0 ≤ off) :
      FileStep m ⟨host, .write handle data off, .ok (.count (.ofNat data.length))⟩
        { m' with edits := .unsaved ((view.written off data).stamped (rfc3339 host.now)) }
  | setattrNothing {host : Host} {m : FileModel} {attrs : SetAttrIn} (h : ¬ attrs.Changes) :
      FileStep m ⟨host, .setattr attrs, .ok .done⟩ m
  | setattrFails {host : Host} {m m' : FileModel} {attrs : SetAttrIn} (h : attrs.Changes)
      (hload : Loads host.Faulty m false m') (e : FileErrno) :
      FileStep m ⟨host, .setattr attrs, .error (.errno e)⟩ m'
  | setattrStops {host : Host} {m m₁ m₂ : FileModel} {attrs : SetAttrIn} (h : attrs.Changes)
      (hload : Loads host.Faulty m true m₁)
      (hstart : Starts host.Faulty attrs.truncLen m₁ false m₂) (e : FileErrno) :
      FileStep m ⟨host, .setattr attrs, .error (.errno e)⟩ m₂
  | setattrSaves {host : Host} {m m₁ m₂ m₃ : FileModel} {attrs : SetAttrIn} {view : FileView}
      {saved : Bool} (h : attrs.Changes) (hload : Loads host.Faulty m true m₁)
      (hstart : Starts host.Faulty attrs.truncLen m₁ true m₂)
      (hview : m₂.edits = .unsaved view)
      (hsave : Saves host.Faulty { m₂ with edits := .unsaved (attrs.view rfc3339 view) } saved m₃)
      (e : FileErrno) :
      FileStep m ⟨host, .setattr attrs, if saved then .ok .done else .error (.errno e)⟩ m₃
  | fsync {host : Host} {m m' : FileModel} {saved : Bool} (hsave : Saves host.Faulty m saved m')
      (e : FileErrno) :
      FileStep m ⟨host, .fsync, if saved then .ok .done else .error (.errno e)⟩ m'
  | flush {host : Host} {m m' : FileModel} {saved : Bool} (hsave : Saves host.Faulty m saved m')
      (e : FileErrno) :
      FileStep m ⟨host, .flush, if saved then .ok .done else .error (.errno e)⟩ m'
  | releaseSome {host : Host} {m m' : FileModel} {saved : Bool}
      (hsave : Saves host.Faulty m saved m') (hmore : m'.handles ≠ 1) (e : FileErrno) :
      FileStep m ⟨host, .release, if saved then .ok .done else .error (.errno e)⟩
        { m' with handles := m'.handles - 1 }
  | releaseLast {host : Host} {m m' : FileModel} {saved : Bool}
      (hsave : Saves host.Faulty m saved m') (hlast : m'.handles = 1) (hopen : m'.edits ≠ .stuck)
      (e : FileErrno) :
      FileStep m ⟨host, .release, if saved then .ok .done else .error (.errno e)⟩
        { m' with edits := .closed, handles := 0 }
  /-- The last release fails after the edits are saved. -/
  | releaseStops {host : Host} {m m' : FileModel} (hsave : Saves host.Faulty m true m')
      (hlast : m'.handles = 1) (hstop : m'.edits = .stuck ∨ host.Faulty) (e : FileErrno) :
      FileStep m ⟨host, .release, .error (.errno e)⟩ { m' with edits := .closed, handles := 0 }

end

end Mount

end Grits
