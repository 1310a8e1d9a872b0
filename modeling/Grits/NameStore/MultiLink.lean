import Grits.NameStore.Resolve
import Grits.NameStore.RefManager

/-!
# Linking

`recursiveLink` and `MultiLink` of `internal/grits/namestore.go`.  The phases
of `MultiLink` are separate definitions: the assertions, the new tree, the link
callbacks, the response, and the commit.
-/

namespace Grits

open SlashPath

/-- `LinkRequest`; an empty `newAddr` unlinks. -/
structure LinkRequest where
  path : GoString
  newAddr : BlobAddr
  prevAddr : BlobAddr
  assert : UInt32
  deriving DecidableEq

/-- `AssertPrevValueMatches`. -/
def assertPrevValueMatches : UInt32 := 1
/-- `AssertIsBlob`. -/
def assertIsBlob : UInt32 := 2
/-- `AssertIsTree`. -/
def assertIsTree : UInt32 := 4
/-- `AssertIsNonEmpty`. -/
def assertIsNonEmpty : UInt32 := 8

/-- A `FileTreeWatcher`: the error it answers a notification with, given what
it has been told before. -/
abbrev Watcher := List Notification → Notification → Option GoErr

/-- `LinkCallback`. -/
abbrev LinkCallback :=
  Option BlobAddr → Option BlobAddr → List LinkRequest → PrincipalRef → Op Unit

/-- The functions registered with a name store. -/
structure Hooks where
  watchers : List Watcher
  lookupCallbacks : List LookupCallback
  linkCallbacks : List LinkCallback

/-- `NameStore.notifyWatchers`: every watcher is told, and the last error
counts. -/
def notifyWatchers (H : Hooks) (path : GoString) (oldValue newValue : Option BlobAddr) :
    Op Unit := do
  let s ← Prog.get
  let notification : Notification := ⟨path, oldValue, newValue⟩
  Prog.modify fun s => { s with notifications := s.notifications ++ [notification] }
  match (H.watchers.filterMap fun watcher => watcher s.notifications notification).getLast? with
  | some e => fail e
  | none => pure ()

/-- `newChildren` of `recursiveLink`. -/
def putChild (children : Children) (name : GoString) : Option BlobAddr → Children
  | some addr => children.insert name addr
  | none => children.erase name

/-- `oldParent.Children()` at the start of `recursiveLink`. -/
def linkChildren (E : Env) : Option BlobAddr → Op Children
  | none => fail .notExist
  | some oldParent => do
      match ← nodeChildren E oldParent with
      | some children => pure children
      | none => fail .notDir

/-- The node a request links: none if its address is empty. -/
def loadNewValue (E : Env) (metadataAddr : BlobAddr) : Op (Option BlobAddr) :=
  if metadataAddr = [] then pure none
  else do
    loadFileNode E metadataAddr
    pure (some metadataAddr)

/-- The existing child at `part`; while there are further components below it,
it has to exist. -/
def loadOldChild (E : Env) (oldChildren : Children) (part : GoString) (isLast : Bool) :
    Op (Option BlobAddr) :=
  match oldChildren.lookup part with
  | some oldChildAddr => do
      loadFileNode E oldChildAddr
      pure (some oldChildAddr)
  | none => if isLast then pure none else fail .notExist

/-- `NameStore.recursiveLink` on the name whose `strings.SplitN(name, "/", 2)`
is, level by level, `part` and then `rest`. -/
def recursiveLink (E : Env) (H : Hooks) (metadataAddr : BlobAddr) :
    (rest : List GoString) → (prevPath part : GoString) → (oldParent : Option BlobAddr) →
      Op (Option BlobAddr)
  | [], prevPath, part, oldParent => do
      let currPath := if prevPath = [] then part else prevPath ++ '/' :: part
      let oldChildren ← linkChildren E oldParent
      let oldChild ← loadOldChild E oldChildren part true
      let newValue ← loadNewValue E metadataAddr
      notifyWatchers H currPath oldChild newValue
      if part = [] then pure newValue
      else do
        let result ← createTreeNode E (putChild oldChildren part newValue)
        pure (some result)
  | next :: rest, prevPath, part, oldParent => do
      let currPath := if prevPath = [] then part else prevPath ++ '/' :: part
      let oldChildren ← linkChildren E oldParent
      let oldChild ← loadOldChild E oldChildren part false
      let newValue ← recursiveLink E H metadataAddr rest currPath next oldChild
      let result ← createTreeNode E (putChild oldChildren part newValue)
      pure (some result)

/-- `matchesAddr`. -/
def matchesAddr (node : Option BlobAddr) (addr : BlobAddr) : Bool :=
  match node with
  | none => addr == []
  | some node => addr != [] && node == addr

/-- Whether the entry before the leaf, the parent of the requested path, was
reached. -/
def parentReachable (paths : List PathNodePair) : Bool :=
  match paths.dropLast.getLast? with
  | some parent => parent.error == none
  | none =>
      match paths with
      | [only] => only.error == none
      | _ => false

/-- The node the assertions of a request are about. -/
def assertedNode (E : Env) (path : GoString) : Op (Option BlobAddr) := do
  let response ← resolveFromLocal E path none
  match response.leaf with
  | none => fail (.message "empty return from resolvePath()".toList)
  | some leaf =>
      match leaf.error with
      | some .notFound =>
          if parentReachable response.paths then pure none else fail .notExist
      | some _ => fail .notExist
      | none => do
          loadFileNode E leaf.addr
          pure (some leaf.addr)

/-- Whether the assertions of a request hold of a node, given its metadata. -/
def assertionsHold (request : LinkRequest) (node : Option (BlobAddr × GNodeMetadata)) : Bool :=
  (request.assert &&& assertPrevValueMatches == 0 ||
      matchesAddr (node.map (·.1)) request.prevAddr) &&
    (request.assert &&& assertIsBlob == 0 || node.any fun node => node.2.type == .file) &&
    (request.assert &&& assertIsTree == 0 || node.any fun node => node.2.type == .directory) &&
    (request.assert &&& assertIsNonEmpty == 0 || node.isSome)

/-- The node together with its metadata. -/
def describeNode : Option BlobAddr → Op (Option (BlobAddr × GNodeMetadata))
  | none => pure none
  | some addr => do
      let node ← getNode addr
      pure (some (addr, node.metadata))

/-- Phase 1 of `MultiLink` for one request. -/
def checkAssertions (E : Env) (request : LinkRequest) : Op Unit :=
  if (request.path = [] ∨ request.path = ['.']) ∧ request.newAddr = [] then
    fail (.message "cannot unlink root".toList)
  else if request.assert = 0 then pure ()
  else do
    let node ← assertedNode E request.path
    let described ← describeNode node
    if assertionsHold request described then pure () else fail .assertionFailed

/-- The name `MultiLink` hands to `recursiveLink`. -/
def linkName (path : GoString) : GoString :=
  if trimRight path = ['.'] then [] else trimRight path

/-- Phase 2 of `MultiLink` for one request. -/
def applyRequest (E : Env) (H : Hooks) (newRoot : Option BlobAddr) (request : LinkRequest) :
    Op (Option BlobAddr) :=
  if isRooted (trimRight request.path) then fail (.message "name must be relative".toList)
  else match split (linkName request.path) with
    | part :: rest => recursiveLink E H request.newAddr rest [] part newRoot
    | [] => pure newRoot

/-- Phases 1 and 2 of `MultiLink`: the old and the new root. -/
def candidateRoot (E : Env) (H : Hooks) (requests : List LinkRequest) :
    Op (BlobAddr × Option BlobAddr) := do
  Prog.loop (fun _ request => checkAssertions E request) () requests
  let s ← Prog.get
  loadFileNode E s.rootAddr
  let newRoot ← Prog.loop (applyRequest E H) (some s.rootAddr) requests
  pure (s.rootAddr, newRoot)

/-- One round of the loop of phase 4 of `MultiLink`. -/
def responseStep (E : Env) (newRoot : Option BlobAddr) (paths : List PathNodePair)
    (request : LinkRequest) : Op (List PathNodePair) :=
  let path := trimRight request.path
  if path ∈ paths.map (·.path) then pure paths
  else do
    let response ← resolveFromLocal E path newRoot
    if response.leaf.any fun leaf => leaf.error == some .notFound then
      pure (paths ++ [⟨path, [], [], 0, none⟩])
    else pure (appendUnseen paths response.paths)

/-- Append a string to a list unless it is there already. -/
def addUnseen (paths : List GoString) (path : GoString) : List GoString :=
  if path ∈ paths then paths else paths ++ [path]

/-- `extractPaths`. -/
def extractPaths (requests : List LinkRequest) : List GoString :=
  (requests.map fun request => trimRight request.path).foldl addUnseen []

/-- Phase 4 of `MultiLink`, if results are asked for. -/
def buildResponse (E : Env) (H : Hooks) (requests : List LinkRequest)
    (newRoot : Option BlobAddr) (principal : PrincipalRef) (serialNumber : ℤ) :
    (returnResults : Bool) → Op (Option LookupResponse)
  | false => pure none
  | true => do
      let paths ← Prog.loop (responseStep E newRoot) [] requests
      let response ← runLookupCallbacks H.lookupCallbacks
        ⟨extractPaths requests, [], principal⟩ newRoot ⟨paths, serialNumber⟩
      pure (some response)

/-- What `MultiLink` has worked out before it touches a reference. -/
structure Prepared where
  oldRoot : BlobAddr
  newRoot : Option BlobAddr
  response : Option LookupResponse

/-- Phases 1 to 4 of `MultiLink`. -/
def prepare (E : Env) (H : Hooks) (requests : List LinkRequest) (returnResults : Bool)
    (principal : PrincipalRef) : Op Prepared := do
  let s ← Prog.get
  let (oldRoot, newRoot) ← candidateRoot E H requests
  Prog.loop (fun _ callback => callback (some oldRoot) newRoot requests principal) ()
    H.linkCallbacks
  let response ← buildResponse E H requests newRoot principal (s.serialNumber + 1) returnResults
  pure ⟨oldRoot, newRoot, response⟩

/-- Phase 5 of `MultiLink`. -/
def commit (E : Env) (oldRoot : BlobAddr) (newRoot : Option BlobAddr) : Op Unit := do
  recursiveTake E newRoot
  match ← tryErr (recursiveRelease E (some oldRoot)) with
  | .error e => do
      match ← tryErr (recursiveRelease E newRoot) with
      | .error _ => Prog.stop (.crash .rereleaseFailed)
      | .ok _ => fail e
  | .ok _ =>
      match newRoot with
      | none => Prog.stop (.crash .nilRoot)
      | some newRoot =>
          Prog.modify fun s =>
            { s with rootAddr := newRoot, serialNumber := s.serialNumber + 1 }

/-- `NameStore.MultiLink`. -/
def multiLink (E : Env) (H : Hooks) (requests : List LinkRequest) (returnResults : Bool)
    (principal : PrincipalRef) : Op (Option LookupResponse) := do
  let prepared ← prepare E H requests returnResults principal
  commit E prepared.oldRoot prepared.newRoot
  pure prepared.response

/-- `EmptyNameStore`. -/
def emptyNameStore (E : Env) (blobStore : Finmap fun _ : BlobAddr => LocalCachedFile) :
    Except Halt Unit × NameStore :=
  (do
    let root ← createTreeNode E ∅
    recursiveTake E (some root)
    Prog.modify fun s => { s with serialNumber := 0, rootAddr := root } : Op Unit)
  { blobStore := blobStore
    rootAddr := []
    serialNumber := 1
    fileCache := ∅
    refCount := ∅
    nodeDropTimes := ∅
    notifications := []
    ticks := 0 }

end Grits
