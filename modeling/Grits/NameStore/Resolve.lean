import Grits.NameStore.State

/-!
# Resolving paths

`resolveFromLocal` and `Lookup` of `internal/grits/namestore.go`.  Without
fetchers `resolvePath` is `resolveFromLocal`.
-/

namespace Grits

open SlashPath

/-- The error texts of a `PathNodePair`. -/
inductive LookupError where
  | notFound
  | notDir
  | accessDenied
  | internal
  deriving DecidableEq

/-- `PathNodePair`. -/
structure PathNodePair where
  path : GoString
  addr : BlobAddr
  contentHash : BlobAddr
  size : Int64
  error : Option LookupError
  deriving DecidableEq

/-- The entry of a path that resolved to the node at `addr`. -/
def PathNodePair.found (path : GoString) (addr : BlobAddr) (metadata : GNodeMetadata) :
    PathNodePair :=
  ⟨path, addr, metadata.contentHash, metadata.size, none⟩

/-- The entry of a path that did not resolve. -/
def PathNodePair.failed (path : GoString) (error : LookupError) : PathNodePair :=
  ⟨path, [], [], 0, some error⟩

/-- `LookupResponse`. -/
structure LookupResponse where
  paths : List PathNodePair
  serialNumber : ℤ
  deriving DecidableEq

/-- `LookupResponse.Leaf`. -/
def LookupResponse.leaf (response : LookupResponse) : Option PathNodePair :=
  response.paths.getLast?

/-- `Principal`. -/
structure Principal where
  user : GoString
  origin : GoString
  deriving DecidableEq

/-- A `*Principal`: `BackendPrincipal` is recognised by its address. -/
inductive PrincipalRef where
  | backend
  | of (principal : Principal)
  deriving DecidableEq

/-- The variables of the loop of `resolveFromLocal`. -/
structure Walk where
  paths : List PathNodePair
  /-- `nil` once the walk is lost. -/
  current : Option BlobAddr
  currentPath : GoString
  deriving DecidableEq

/-- Emit an entry with an error and lose the walk. -/
def Walk.lost (walk : Walk) (path : GoString) (error : LookupError) : Walk :=
  ⟨walk.paths ++ [.failed path error], none, path⟩

/-- Emit the entry of a child and go on from it. -/
def Walk.entered (walk : Walk) (path : GoString) (child : BlobAddr)
    (metadata : GNodeMetadata) : Walk :=
  ⟨walk.paths ++ [.found path child metadata], some child, path⟩

/-- The label of the next component. -/
def Walk.nextPath (walk : Walk) (part : GoString) : GoString :=
  if walk.currentPath = [] then part else joinClean walk.currentPath part

/-- One round of the loop of `resolveFromLocal`. -/
def resolveStep (E : Env) (walk : Walk) (part : GoString) : Op Walk :=
  if part = [] then pure walk
  else
    let path := walk.nextPath part
    match walk.current with
    | none => pure (walk.lost path .notFound)
    | some current => do
        let node ← getNode current
        if node.metadata.type ≠ .directory then pure (walk.lost path .notDir)
        else do
          match ← tryErr (treeChildren E current) with
          | .error _ => pure (walk.lost path .internal)
          | .ok children =>
              match children.lookup part with
              | none => pure (walk.lost path .notFound)
              | some childAddr => do
                  match ← tryErr (loadFileNode E childAddr) with
                  | .error _ => pure (walk.lost path .internal)
                  | .ok _ => do
                      let child ← getNode childAddr
                      pure (walk.entered path childAddr child.metadata)

/-- The node `resolveFromLocal` starts from: the root if none is given. -/
def startOfWalk (E : Env) : Option BlobAddr → Op BlobAddr
  | some addr => pure addr
  | none => do
      let s ← Prog.get
      loadFileNode E s.rootAddr
      pure s.rootAddr

/-- `NameStore.resolveFromLocal`. -/
def resolveFromLocal (E : Env) (path : GoString) (startNode : Option BlobAddr) :
    Op LookupResponse := do
  let path := trimRight path
  if isRooted path then fail (.message "paths must be relative".toList)
  else do
    let s ← Prog.get
    let start ← startOfWalk E startNode
    takeNode start
    let node ← getNode start
    let walk ← Prog.loop (resolveStep E)
      ⟨[.found [] start node.metadata], some start, []⟩ (split path)
    releaseNode E start
    pure ⟨walk.paths, s.serialNumber⟩

/-- `LookupRequest`. -/
structure LookupRequest where
  paths : List GoString
  startAddr : BlobAddr
  principal : PrincipalRef

/-- `LookupCallback`. -/
abbrev LookupCallback := LookupResponse → LookupRequest → Option BlobAddr → Op LookupResponse

/-- Append the entries whose label has not been seen. -/
def appendUnseen (paths : List PathNodePair) : List PathNodePair → List PathNodePair
  | [] => paths
  | pair :: rest =>
      if pair.path ∈ paths.map (·.path) then appendUnseen paths rest
      else appendUnseen (paths ++ [pair]) rest

/-- One round of the loop of `Lookup` over the requested paths. -/
def lookupStep (E : Env) (startNode : Option BlobAddr) (paths : List PathNodePair)
    (path : GoString) : Op (List PathNodePair) := do
  let response ← resolveFromLocal E (trimRight path) startNode
  pure (appendUnseen paths response.paths)

/-- Run the lookup callbacks one after another. -/
def runLookupCallbacks (callbacks : List LookupCallback) (request : LookupRequest)
    (root : Option BlobAddr) (response : LookupResponse) : Op LookupResponse :=
  Prog.loop (fun response callback => callback response request root) response callbacks

/-- The snapshot of the root that `Lookup` takes for its callbacks. -/
def callbackRoot (E : Env) (callbacks : List LookupCallback) : Op (Option BlobAddr) := do
  let s ← Prog.get
  if callbacks = [] ∨ s.rootAddr = [] then pure none
  else do
    match ← tryErr (loadFileNode E s.rootAddr) with
    | .error _ => pure none
    | .ok _ => do
        takeNode s.rootAddr
        pure (some s.rootAddr)

/-- The deferred `Release` of the callback root: it runs also when a callback
returns an error. -/
def releasing {α : Type} (E : Env) (root : Option BlobAddr) (m : Op α) : Op α := do
  let result ← tryErr m
  match root with
  | some root => releaseNode E root
  | none => pure ()
  match result with
  | .ok a => pure a
  | .error e => fail e

/-- The node `Lookup` starts from, where an address is given. -/
def lookupStart (E : Env) (startAddr : BlobAddr) : Op (Option BlobAddr) :=
  if startAddr ≠ [] then
    Prog.catching (do loadFileNode E startAddr; pure (some startAddr)) fun
      | .err e => fail (.wrapped ("lookup: cannot load start node ".toList ++ startAddr) e)
      | halt => Prog.stop halt
  else pure none

/-- `NameStore.Lookup` without a `holdRef`. -/
def lookup (E : Env) (callbacks : List LookupCallback) (paths : List GoString)
    (startAddr : BlobAddr) (principal : PrincipalRef) : Op LookupResponse := do
  let s ← Prog.get
  let startNode ← lookupStart E startAddr
  let root ← callbackRoot E callbacks
  releasing E root do
    let entries ← Prog.loop (lookupStep E startNode) [] paths
    runLookupCallbacks callbacks ⟨paths, startAddr, principal⟩ root ⟨entries, s.serialNumber⟩

end Grits
