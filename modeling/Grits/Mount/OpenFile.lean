import Mathlib
import Grits.Library.PosixFile
import Grits.Mount.Readdir
import Grits.Server.ImportLocalDir

/-!
# The files of the mount

`openCachedFile`, `openTmpFile`, `flush` and `finalize` of `internal/gritsd/module_mount.go`, and
the calls of the kernel on a file that use them.  Between two calls of the volume other goroutines
may run.
-/

namespace Grits

namespace Mount

open Prog SlashPath PosixFile
open LocalTree (writing)

/-! ## Nodes -/

/-- `openFile` of a node. -/
inductive OpenFile where
  /-- The temporary file. -/
  | tmp
  /-- A blob, with its bytes. -/
  | blob (data : Bytes)
  /-- The nil file that a failed `Reader` returns. -/
  | invalid
  deriving DecidableEq

/-- `gritsNode`, with the bytes of its temporary file. -/
structure GritsNode where
  path : GoString
  refCount : ℤ
  tmpFile : Option Bytes
  tmpMetadata : Option GNodeMetadata
  cachedFile : Option BlobAddr
  cachedMetadata : Option GNodeMetadata
  openFile : Option OpenFile
  isDangling : Bool
  deriving DecidableEq

/-- `newGritsNode` -/
def newGritsNode (path : GoString) : GritsNode := ⟨path, 0, none, none, none, none, none, false⟩

/-- A node, the paths under which `dirtyNodesMap` has it, and the volume. -/
structure FileState where
  node : GritsNode
  dirtyNodes : Finset GoString
  store : NameStore

/-- `syscall.Errno`, other than `fs.OK`. -/
inductive FileErrno where
  | enoent
  | eio
  | eexist
  | erofs
  | ebadf
  | eacces
  /-- `fs.ToErrno(err)` -/
  | toErrno (e : GoErr)
  deriving DecidableEq

/-- How a call on a file ends that does not return `fs.OK`. -/
inductive FileStop where
  | errno (e : FileErrno)
  /-- The volume has ended the process. -/
  | halt (h : Halt)
  /-- A method call on a nil interface. -/
  | nilPointer
  deriving DecidableEq

/-- A program on a file. -/
abbrev FileOp := Prog FileState FileStop

/-- What the operating system answers in the course of one call: the time and, where a system call
fails, its error. -/
structure Host where
  now : ℤ := 0
  /-- `Reader` of the cached file, in `openCachedFile` -/
  reader : Option GoErr := none
  createTemp : Option GoErr := none
  truncate : Option GoErr := none
  /-- `Seek` of the open file, in `openTmpFile` and `Read` -/
  seek : Option GoErr := none
  copyN : Option GoErr := none
  read : Option GoErr := none
  /-- `WriteAt`, and how many bytes it has written -/
  writeAt : Option (ℕ × GoErr) := none
  /-- `Seek` of the temporary file, in `flush` -/
  rewind : Option GoErr := none
  addOpenBlob : Option GoErr := none
  addMetadataBlob : Option GoErr := none
  /-- `Reader` of the cached file, in `flush` -/
  reopen : Option GoErr := none
  close : Option GoErr := none

/-- Return an error number. -/
def errno {α : Type} (e : FileErrno) : FileOp α := Prog.stop (.errno e)

/-- Return the error of a system call, if it fails. -/
def check (fault : Option GoErr) : FileOp Unit :=
  match fault with
  | some e => errno (.toErrno e)
  | none => pure ()

/-- Write to the fields of the node. -/
def setNode (f : GritsNode → GritsNode) : FileOp Unit :=
  Prog.modify fun x => { x with node := f x.node }

/-- `defer last()` before the body. -/
def deferring {α : Type} (last : FileOp Unit) (body : FileOp α) : FileOp α := do
  match ← Prog.attempt body with
  | .ok a => do
      last
      pure a
  | .error (.errno e) => do
      last
      errno e
  | .error stop => Prog.stop stop

/-- A step of the volume that may fail. -/
def failing {α : Type} (fault : Option GoErr) (m : Op α) : Op α :=
  match fault with
  | some e => fail e
  | none => m

/-- `LocalBlobStore.Take` -/
def takeBlob (addr : BlobAddr) : Op Unit := do
  let s ← Prog.get
  match s.blobStore.lookup addr with
  | none => Prog.stop (.dangling addr)
  | some file =>
      Prog.modify fun s =>
        { s with blobStore := s.blobStore.insert addr { file with refCount := file.refCount + 1 } }

/-- `Seek`, with what is in the open file. -/
def seekOpenFile (host : Host) : FileOp Bytes := do
  let x ← Prog.get
  match x.node.openFile with
  | none => Prog.stop .nilPointer
  | some .invalid => errno (.toErrno (.message "invalid argument".toList))
  | some (.blob data) => do
      check host.seek
      pure data
  | some .tmp => do
      check host.seek
      pure (x.node.tmpFile.getD [])

section

variable (E : Env) (H : Hooks) (readOnly : Bool) (others : Op Unit) (host : Host)

/-- A call of the volume, after whatever other goroutines have done to it, and its error. -/
def onVolume {α : Type} (m : Op α) : FileOp (Except GoErr α) := fun x =>
  let run := (do
    others
    tryErr m : Op (Except GoErr α)) x.store
  (run.1.mapError .halt, { x with store := run.2 })

/-- A call of the volume that returns no error. -/
def volume (m : Op Unit) : FileOp Unit := do
  let _ ← onVolume others m

/-- `cachedFile.Reader()` -/
def openReader (fault : Option GoErr) (addr : BlobAddr) : FileOp (Option GoErr) := do
  match fault with
  | some e => do
      setNode fun node => { node with openFile := some .invalid }
      pure (some e)
  | none => do
      match ← onVolume others (readAll addr) with
      | .error e => do
          setNode fun node => { node with openFile := some .invalid }
          pure (some e)
      | .ok data => do
          setNode fun node => { node with openFile := some (.blob data) }
          pure none

/-- `openCachedFile` from where the cached file is set. -/
def openCachedReader (addr : BlobAddr) : FileOp Unit := do
  let x ← Prog.get
  if x.node.openFile = none then do
    let result ← openReader others host.reader addr
    check result
  else pure ()

/-- What `openCachedFile` does with the node that it has looked up. -/
def openFound (fileNode : BlobAddr) : FileOp Unit := do
  match ← onVolume others (fatalIfBlobMissing (do exportedBlob fileNode; getNode fileNode)) with
  | .error _ => errno .eio
  | .ok blobNode => do
      let addr := blobNode.metadata.contentHash
      setNode fun node => { node with cachedFile := some addr }
      volume others (takeBlob addr)
      setNode fun node => { node with cachedMetadata := some blobNode.metadata }
      openCachedReader others host addr

/-- `gritsNode.openCachedFile` -/
def openCachedFile : FileOp Unit := do
  let x ← Prog.get
  match x.node.cachedFile with
  | some addr => openCachedReader others host addr
  | none =>
      if x.node.tmpFile ≠ none then pure ()
      else do
        match ← onVolume others (fatalIfBlobMissing (lookupNode E [] x.node.path .backend)) with
        | .error e => errno (if isNotExist e then .enoent else .eio)
        | .ok fileNode =>
            deferring (volume others (releaseNode E fileNode)) (openFound others host fileNode)

/-- What `openTmpFile` ends with. -/
def useTmpFile (content : Bytes) : FileOp Unit := do
  setNode fun node => { node with openFile := some .tmp, tmpFile := some content }
  -- `addDirtyNode`
  Prog.modify fun x => { x with dirtyNodes := insert x.node.path x.dirtyNodes }

/-- The metadata that `openTmpFile` makes up for a new file. -/
def blankMetadata : GNodeMetadata := ⟨.file, 0, [], 0o644, []⟩

/-- `gritsNode.openTmpFile` -/
def openTmpFile (truncLen : ℤ) : FileOp Unit := do
  let x ← Prog.get
  match x.node.tmpFile with
  | some content =>
      if truncLen = -1 then pure ()
      else if truncLen < 0 then errno (.toErrno (.message "invalid argument".toList))
      else do
        check host.truncate
        setNode fun node => { node with tmpFile := some (resize content truncLen.toNat) }
  | none => do
      check host.createTemp
      match x.node.cachedFile with
      | some addr => do
          let data ← seekOpenFile host
          let size := (x.store.blobStore.lookup addr).elim 0 fun file => file.data.length
          let truncLen : ℤ := if truncLen = -1 then size else truncLen
          -- `io.CopyN`
          check host.copyN
          if (data.length : ℤ) < truncLen then errno (.toErrno (.message "EOF".toList))
          else if truncLen < 0 then errno .eio
          else
            match x.node.cachedMetadata with
            | none => errno .eio
            | some metadata => do
                setNode fun node =>
                  { node with tmpMetadata := some metadata, cachedMetadata := none }
                volume others (releaseBlob E addr)
                setNode fun node => { node with cachedFile := none }
                useTmpFile (data.take truncLen.toNat)
      | none => do
          setNode fun node => { node with tmpMetadata := some blankMetadata }
          useTmpFile []

/-! ## Flushing -/

/-- What `flush` defers: the temporary file is closed, and the cached one opened in its place. -/
def closeTmpFile : FileOp Unit := do
  setNode fun node => { node with tmpFile := none }
  let x ← Prog.get
  match x.node.cachedFile with
  | some addr => do
      let _ ← openReader others host.reopen addr
  | none => setNode fun node => { node with openFile := none }

/-- What `flush` does with the two blobs. -/
def linkTmpFile (content metadataAddr : BlobAddr) (metadata : GNodeMetadata) : FileOp Unit := do
  let x ← Prog.get
  match ← onVolume others (writing readOnly
      (multiLink E H [⟨x.node.path, metadataAddr, [], 0⟩] false .backend)) with
  | .error e => errno (.toErrno e)
  | .ok _ => do
      setNode fun node => { node with cachedFile := some content }
      volume others (takeBlob content)
      setNode fun node =>
        { node with tmpFile := none, cachedMetadata := some metadata, tmpMetadata := none }
      -- `removeDirtyNode`
      Prog.modify fun x => { x with dirtyNodes := x.dirtyNodes.erase x.node.path }

/-- The body of `flush`, for the bytes of the temporary file. -/
def saveTmpFile (content : Bytes) : FileOp Unit := do
  let x ← Prog.get
  if x.node.isDangling then pure ()
  else if host.rewind ≠ none then errno .eio
  else do
    match ← onVolume others (writing readOnly (failing host.addOpenBlob (addDataBlock E content))) with
    | .error _ => errno .eio
    | .ok contentBlob =>
        deferring (volume others (releaseBlob E contentBlob)) do
          let x ← Prog.get
          match x.node.tmpMetadata with
          | none => Prog.stop .nilPointer
          | some metadata => do
              let metadata := { metadata with
                contentHash := contentBlob, size := Int64.ofNat content.length }
              setNode fun node => { node with tmpMetadata := some metadata }
              match ← onVolume others (writing readOnly
                  (failing host.addMetadataBlob (addDataBlock E (E.marshalMetadata metadata)))) with
              | .error _ => errno .eio
              | .ok metadataBlob =>
                  deferring (volume others (releaseBlob E metadataBlob))
                    (linkTmpFile E H readOnly others contentBlob metadataBlob metadata)

/-- `gritsNode.flush` -/
def flush : FileOp Unit := do
  let x ← Prog.get
  if x.node.openFile = none then pure ()
  else
    match x.node.tmpFile with
    | none => pure ()
    | some content =>
        deferring (closeTmpFile others host) (saveTmpFile E H readOnly others host content)

/-- What `finalize` does about the cached file. -/
def releaseCachedFile : FileOp Unit := do
  let x ← Prog.get
  match x.node.cachedFile with
  | some addr => do
      volume others (releaseBlob E addr)
      setNode fun node => { node with cachedFile := none }
  | none => pure ()

/-- What `finalize` does about the open file. -/
def closeOpenFile : FileOp Unit := do
  let x ← Prog.get
  match x.node.tmpFile with
  | some _ => setNode fun node => { node with tmpFile := none, openFile := none }
  | none =>
      match x.node.openFile with
      | none => pure ()
      | some openFile => do
          setNode fun node => { node with openFile := none }
          if openFile = .invalid then errno (.toErrno (.message "invalid argument".toList))
          else check host.close

/-- `gritsNode.finalize` -/
def finalize : FileOp Unit := do
  releaseCachedFile E others
  closeOpenFile host

/-! ## Calls of the kernel -/

/-- `FileHandle` -/
structure FileHandle where
  isReadOnly : Bool
  deriving DecidableEq

/-- `fuse.O_ANYWRITE` -/
def anyWrite : UInt32 := 0o1 ||| 0o2 ||| 0o2000 ||| 0o100 ||| 0o1000

/-- `os.O_EXCL` -/
def exclusive : UInt32 := 0o200

/-- What `Open` and `Create` return for the flags. -/
def handleOf (flags : UInt32) : FileHandle := ⟨flags &&& anyWrite == 0⟩

/-- `gritsNode.Open` -/
def openFile (flags : UInt32) : FileOp FileHandle := do
  let x ← Prog.get
  if x.node.refCount = 0 then openCachedFile E others host
  setNode fun node => { node with refCount := node.refCount + 1 }
  pure (handleOf flags)

/-- The new node that `Create` makes. -/
def createNode (fullPath : GoString) (flags mode : UInt32) : FileOp FileHandle := do
  setNode fun _ => newGritsNode fullPath
  openTmpFile E others host 0
  setNode fun node => { node with refCount := node.refCount + 1 }
  setNode fun node => { node with
    tmpMetadata := node.tmpMetadata.map fun metadata => { metadata with mode := mode } }
  pure (handleOf flags)

/-- `gritsNode.Create` in the directory with this path -/
def create (dirPath name : GoString) (flags mode : UInt32) : FileOp FileHandle :=
  if readOnly then errno .erofs
  else if flags &&& exclusive = 0 then createNode E others host (joinClean dirPath name) flags mode
  else do
    match ← onVolume others (lookupNode E [] (joinClean dirPath name) .backend) with
    | .ok node => do
        volume others (releaseNode E node)
        errno .eexist
    | .error _ => createNode E others host (joinClean dirPath name) flags mode

/-- `gritsNode.Read` of at most `len` bytes -/
def readFile (off : ℤ) (len : ℕ) : FileOp Bytes := do
  openCachedFile E others host
  if off < 0 then errno (.toErrno (.message "invalid argument".toList))
  else do
    let data ← seekOpenFile host
    check host.read
    pure (slice data off.toNat len)

/-- `gritsNode.Write`, of a handle that may be of another kind -/
def writeFile (handle : Option FileHandle) (data : Bytes) (off : ℤ) : FileOp UInt32 := do
  if readOnly then errno .erofs
  else
    match handle with
    | none => errno .ebadf
    | some handle =>
        if handle.isReadOnly then errno .eacces
        else do
          openTmpFile E others host (-1)
          if off < 0 then errno (.toErrno (.message "negative offset".toList))
          else do
            let written := match host.writeAt with
              | none => data
              | some (n, _) => data.take n
            setNode fun node =>
              { node with tmpFile := node.tmpFile.map fun content => splice content off.toNat written }
            check (host.writeAt.map (·.2))
            setNode fun node => { node with
              tmpMetadata := node.tmpMetadata.map fun metadata =>
                { metadata with timestamp := E.rfc3339 host.now } }
            pure (.ofNat data.length)

/-- `fuse.SetAttrIn`, what `Setattr` reads of it -/
structure SetAttrIn where
  valid : UInt32
  size : UInt64
  mode : UInt32
  mtime : UInt64
  mtimensec : UInt32
  deriving DecidableEq

/-- `in.Valid&fuse.FATTR_MODE != 0` -/
def SetAttrIn.modeChanged (attrs : SetAttrIn) : Bool := attrs.valid &&& 1 != 0

/-- `in.Valid&fuse.FATTR_SIZE != 0` -/
def SetAttrIn.sizeChanged (attrs : SetAttrIn) : Bool := attrs.valid &&& 8 != 0

/-- `in.Valid&fuse.FATTR_MTIME != 0` -/
def SetAttrIn.timestampChanged (attrs : SetAttrIn) : Bool := attrs.valid &&& 32 != 0

/-- `time.Unix(int64(in.Mtime), int64(in.Mtimensec))`, in nanoseconds -/
def SetAttrIn.time (attrs : SetAttrIn) : ℤ :=
  attrs.mtime.toInt64.toInt * 1000000000 + attrs.mtimensec.toNat

/-- The length that `Setattr` passes on. -/
def SetAttrIn.truncLen (attrs : SetAttrIn) : ℤ :=
  if attrs.sizeChanged then attrs.size.toInt64.toInt else -1

/-- What `Setattr` writes to the metadata. -/
def SetAttrIn.apply (rfc3339 : ℤ → GoString) (attrs : SetAttrIn) (metadata : GNodeMetadata) :
    GNodeMetadata :=
  let metadata := if attrs.modeChanged then { metadata with mode := attrs.mode } else metadata
  if attrs.timestampChanged then { metadata with timestamp := rfc3339 attrs.time } else metadata

/-- `gritsNode.Setattr` -/
def setattr (attrs : SetAttrIn) : FileOp Unit := do
  if ¬ attrs.sizeChanged ∧ ¬ attrs.modeChanged ∧ ¬ attrs.timestampChanged then pure ()
  else do
    openCachedFile E others host
    match ← Prog.attempt (openTmpFile E others host attrs.truncLen) with
    | .error (.errno _) => errno .eio
    | .error stop => Prog.stop stop
    | .ok () => do
        setNode fun node =>
          { node with tmpMetadata := node.tmpMetadata.map (attrs.apply E.rfc3339) }
        flush E H readOnly others host

/-- What `Release` does after it has flushed. -/
def dropHandle : FileOp Unit := do
  setNode fun node => { node with refCount := node.refCount - 1 }
  let x ← Prog.get
  if x.node.refCount = 0 then finalize E others host
  else pure ()

/-- `gritsNode.Release` -/
def release : FileOp Unit := do
  match ← Prog.attempt (flush E H readOnly others host) with
  | .ok () => dropHandle E others host
  | .error (.errno flushErrno) => do
      dropHandle E others host
      errno flushErrno
  | .error stop => Prog.stop stop

end

end Mount

end Grits
