import Grits.Library.Prog
import Grits.NameStore.Encoding

/-!
# The state of a name store

`NameStore` of `internal/grits/namestore.go` together with the local blob
store below it, and the operations that read blobs, load nodes into the file
cache and create directory nodes.

A `FileNode` of the source is a pointer to an object that lives in
`fileCache`; here a node is named by its metadata address, the key of its cache
entry.  What the outside world decides, the time of day and the order in which
Go ranges over a map, is answered by the oracles of `Env`, consulted one after
another.  The model has no fetchers: they belong to remote volumes.
-/

namespace Grits

/-- The errors the name store returns. -/
inductive GoErr where
  /-- `ErrNotExist`. -/
  | notExist
  /-- `ErrNotDir`. -/
  | notDir
  /-- `ErrAssertionFailed`. -/
  | assertionFailed
  /-- `ErrBlobMissing`. -/
  | blobMissing (addr : BlobAddr)
  /-- `ErrAccessDenied`. -/
  | accessDenied (path : GoString)
  /-- `fmt.Errorf("…: %w", cause)`. -/
  | wrapped (text : GoString) (cause : GoErr)
  /-- Any other error, by its text. -/
  | message (text : GoString)
  deriving DecidableEq

/-- `IsBlobMissing`. -/
def isBlobMissing : GoErr → Option BlobAddr
  | .blobMissing addr => some addr
  | .wrapped _ cause => isBlobMissing cause
  | _ => none

/-- The places where the process ends instead of returning an error. -/
inductive Crash where
  /-- `recursiveTake`: "ref count for … is nonpositive". -/
  | refCountNonpositive (addr : BlobAddr)
  /-- `recursiveRelease`: "can't find … in ref count to release". -/
  | releaseUntracked (addr : BlobAddr)
  /-- `recursiveRelease`: "Releasing 0-reference node". -/
  | releaseUnreferenced (addr : BlobAddr)
  /-- `MultiLink`: "Can't re-release new root when cancelling". -/
  | rereleaseFailed
  /-- `Take` and `Release` of a node: the count is negative. -/
  | nodeCountNegative (addr : BlobAddr)
  /-- `LocalBlobStore.Release`: the count is negative. -/
  | blobCountNegative (addr : BlobAddr)
  /-- `cleanup`: "Node … has 0 refCount but exists in RefManager structure". -/
  | cleanupTracked (addr : BlobAddr)
  /-- `MultiLink`: a method call on the nil `newRoot`. -/
  | nilRoot
  /-- `FatalIfBlobMissing`. -/
  | blobMissing (addr : BlobAddr)
  deriving DecidableEq

/-- How a call can end without a value. -/
inductive Halt where
  | err (e : GoErr)
  | crash (c : Crash)
  /-- A node object outside the file cache was used: the model follows only
  objects in the cache. -/
  | dangling (addr : BlobAddr)
  /-- The recursion bound of the model was too small. -/
  | outOfFuel
  deriving DecidableEq

/-- `LocalCachedFile`: a blob on disk.  `none` is the zero time, which lies
before every other. -/
structure LocalCachedFile where
  data : Bytes
  refCount : ℤ
  expiresAt : Option ℤ
  deriving DecidableEq

/-- `TreeNode` and `BlobNode`; the dynamic type of the object is the one its
metadata names.  `blob` is the content blob once it has been read. -/
structure FileNode where
  metadata : GNodeMetadata
  blob : Option BlobAddr
  childrenMap : Option Children
  refCount : ℤ
  deriving DecidableEq

/-- The arguments of one `OnFileTreeChange` call. -/
structure Notification where
  path : GoString
  oldValue : Option BlobAddr
  newValue : Option BlobAddr
  deriving DecidableEq

/-- `NameStore` with its `LocalBlobStore`.  `notifications` lists what the
watchers have been told, `ticks` counts the questions put to the oracles. -/
structure NameStore where
  blobStore : Finmap fun _ : BlobAddr => LocalCachedFile
  rootAddr : BlobAddr
  serialNumber : ℤ
  fileCache : Finmap fun _ : BlobAddr => FileNode
  /-- `DenseRefManager.refCount`. -/
  refCount : Finmap fun _ : BlobAddr => ℤ
  /-- `SparseRefManager.nodeDropTimes`. -/
  nodeDropTimes : Finmap fun _ : BlobAddr => ℤ
  notifications : List Notification
  ticks : ℕ

/-- What a name store takes from its surroundings. -/
structure Env extends Encoding where
  /-- `time.Now()`, in nanoseconds. -/
  clock : ℕ → ℤ
  /-- `Time.UTC().Format(time.RFC3339)`. -/
  rfc3339 : ℤ → GoString
  /-- The order of a `range` over a map of names. -/
  childOrder : ℕ → Children → List (Σ _ : GoString, BlobAddr)
  /-- The order of a `range` over the file cache. -/
  cacheOrder : ℕ → Finset BlobAddr → List BlobAddr
  coe_childOrder : ∀ tick children, (childOrder tick children : Multiset _) = children.entries
  coe_cacheOrder : ∀ tick addrs, (cacheOrder tick addrs : Multiset _) = addrs.val
  /-- Whether the reference manager is the sparse one. -/
  sparse : Bool

/-- An operation on the name store. -/
abbrev Op := Prog NameStore Halt

/-- Return an error. -/
def fail {α : Type} (e : GoErr) : Op α := Prog.stop (.err e)

/-- Put a question to an oracle. -/
def consult {α : Type} (answer : ℕ → α) : Op α := fun s =>
  (.ok (answer s.ticks), { s with ticks := s.ticks + 1 })

/-- Run `m` and return its error, if it returns one; a crash goes through. -/
def tryErr {α : Type} (m : Op α) : Op (Except GoErr α) :=
  Prog.catching (do let a ← m; pure (.ok a)) fun
    | .err e => pure (.error e)
    | halt => Prog.stop halt

/-! ## The blob store -/

/-- `LocalBlobStore.ReadFile`: take a reference to a blob and give its bytes. -/
def readFile (addr : BlobAddr) : Op Bytes := do
  let s ← Prog.get
  match s.blobStore.lookup addr with
  | some file => do
      Prog.modify fun s =>
        { s with blobStore := s.blobStore.insert addr { file with refCount := file.refCount + 1 } }
      pure file.data
  | none => fail (.blobMissing addr)

/-- `CachedFile.Read` of the whole blob, for a holder of a reference. -/
def readAll (addr : BlobAddr) : Op Bytes := do
  let s ← Prog.get
  match s.blobStore.lookup addr with
  | some file => pure file.data
  | none => Prog.stop (.dangling addr)

/-- `LocalBlobStore.AddDataBlock`; writing to disk is taken to succeed. -/
def addDataBlock (E : Env) (data : Bytes) : Op BlobAddr := do
  let s ← Prog.get
  let addr := E.sum data
  let file : LocalCachedFile :=
    match s.blobStore.lookup addr with
    | some file => { file with refCount := file.refCount + 1 }
    | none => { data := data, refCount := 1, expiresAt := none }
  Prog.modify fun s => { s with blobStore := s.blobStore.insert addr file }
  pure addr

/-- `now.After(expiresAt)`. -/
def isAfter (now : ℤ) : Option ℤ → Bool
  | none => true
  | some expiresAt => decide (expiresAt < now)

/-- `LocalBlobStore.Release`. -/
def releaseBlob (E : Env) (addr : BlobAddr) : Op Unit := do
  let s ← Prog.get
  match s.blobStore.lookup addr with
  | none => Prog.stop (.dangling addr)
  | some file =>
      let file := { file with refCount := file.refCount - 1 }
      if file.refCount < 0 then Prog.stop (.crash (.blobCountNegative addr))
      else if 0 < file.refCount then
        Prog.modify fun s => { s with blobStore := s.blobStore.insert addr file }
      else do
        let now ← consult E.clock
        if isAfter now file.expiresAt then
          Prog.modify fun s => { s with blobStore := s.blobStore.erase addr }
        else
          Prog.modify fun s => { s with blobStore := s.blobStore.insert addr file }

/-! ## Nodes -/

/-- Dereference a node pointer. -/
def getNode (addr : BlobAddr) : Op FileNode := do
  let s ← Prog.get
  match s.fileCache.lookup addr with
  | some node => pure node
  | none => Prog.stop (.dangling addr)

/-- Write through a node pointer. -/
def setNode (addr : BlobAddr) (node : FileNode) : Op Unit :=
  Prog.modify fun s => { s with fileCache := s.fileCache.insert addr node }

/-- `Take` of a `TreeNode` or `BlobNode`; `flatTake` does nothing in either
reference manager. -/
def takeNode (addr : BlobAddr) : Op Unit := do
  let node ← getNode addr
  if node.refCount < 0 then Prog.stop (.crash (.nodeCountNegative addr))
  else setNode addr { node with refCount := node.refCount + 1 }

/-- `Release` of a `TreeNode` or `BlobNode`, with the `flatRelease` of the
reference manager. -/
def releaseNode (E : Env) (addr : BlobAddr) : Op Unit := do
  let node ← getNode addr
  let count := node.refCount - 1
  setNode addr { node with refCount := count }
  if count < 0 then Prog.stop (.crash (.nodeCountNegative addr))
  else if count = 0 ∧ E.sparse = true then do
    let now ← consult E.clock
    Prog.modify fun s => { s with nodeDropTimes := s.nodeDropTimes.insert addr now }
  else pure ()

/-- `NameStore.actuallyLoadFileNode`. -/
def actuallyLoadFileNode (E : Env) (addr : BlobAddr) : Op FileNode := do
  let data ← readFile addr
  match E.unmarshalMetadata data with
  | none => do
      releaseBlob E addr
      fail (.message "error parsing metadata".toList)
  | some metadata => do
      let blob ←
        -- a dense name store reads the content now, so that it stays referenced
        if E.sparse then pure none
        else Prog.catching (do let _ ← readFile metadata.contentHash; pure (some metadata.contentHash)) fun
          | .err e => do
              releaseBlob E addr
              fail (.wrapped ("content blob missing for ".toList ++ addr) e)
          | halt => Prog.stop halt
      match metadata.type with
      | .file => pure ⟨metadata, blob, none, 0⟩
      | .directory => pure ⟨metadata, blob, none, 0⟩
      | .other _ => do
          releaseBlob E addr
          fail (.message "unknown node type".toList)

/-- `NameStore.loadFileNode`: afterwards the cache entry of `addr` is the node.
With one operation at a time no entry is ever found in flight. -/
def loadFileNode (E : Env) (addr : BlobAddr) : Op Unit := do
  let s ← Prog.get
  match s.fileCache.lookup addr with
  | some _ => pure ()
  | none => do
      let node ← actuallyLoadFileNode E addr
      setNode addr node

/-- `ExportedBlob` of a `TreeNode` or `BlobNode`. -/
def exportedBlob (addr : BlobAddr) : Op Unit := do
  let node ← getNode addr
  match node.blob with
  | some _ => pure ()
  | none => do
      let _ ← readFile node.metadata.contentHash
      setNode addr { node with blob := some node.metadata.contentHash }

/-- The loop of `TreeNode.Children` that fills `ChildrenMap`: it stops at the
first malformed address, whose name is then already in the map. -/
def fillChildren : Children → List (Σ _ : GoString, BlobAddr) → Children × Bool
  | filled, [] => (filled, true)
  | filled, ⟨name, cid⟩ :: rest =>
      if IsCid cid then fillChildren (filled.insert name cid) rest
      else (filled.insert name [], false)

/-- `TreeNode.Children`. -/
def treeChildren (E : Env) (addr : BlobAddr) : Op Children := do
  exportedBlob addr
  let node ← getNode addr
  match node.childrenMap with
  | some children => pure children
  | none => do
      let data ← readAll node.metadata.contentHash
      match E.unmarshalDir data with
      | none => fail (.message "error parsing directory".toList)
      | some dirMap => do
          let entries ← consult fun tick => E.childOrder tick dirMap
          let (filled, complete) := fillChildren ∅ entries
          setNode addr { node with childrenMap := some filled }
          if complete then pure filled
          else fail (.message "invalid CID v0 format".toList)

/-- `FileNode.Children`: a `BlobNode` has none. -/
def nodeChildren (E : Env) (addr : BlobAddr) : Op (Option Children) := do
  let node ← getNode addr
  if node.metadata.type = .directory then do
    let children ← treeChildren E addr
    pure (some children)
  else pure none

/-- The metadata `createMetadataBlob` writes for a new directory. -/
def directoryMetadata (E : Env) (children : Children) (now : ℤ) : GNodeMetadata where
  type := .directory
  size := Int64.ofNat (E.marshalDir children).length
  contentHash := E.sum (E.marshalDir children)
  mode := 0o755
  timestamp := E.rfc3339 now

/-- `NameStore.CreateTreeNode`. -/
def createTreeNode (E : Env) (children : Children) : Op BlobAddr := do
  let content ← addDataBlock E (E.marshalDir children)
  let now ← consult E.clock
  let metadata := directoryMetadata E children now
  let addr ← addDataBlock E (E.marshalMetadata metadata)
  let s ← Prog.get
  match s.fileCache.lookup addr with
  | some existing => do
      releaseBlob E content
      releaseBlob E addr
      if existing.metadata.type = .directory then pure addr
      else fail (.message "non tree node found in file cache".toList)
  | none => do
      setNode addr ⟨metadata, some content, some children, 0⟩
      pure addr

end Grits
