import Grits.Auth.Permission
import Grits.NameStore.MultiLink

/-!
# Access control

`AuthModule` of `internal/gritsd/module_auth.go`: the grants of the
`access.json` files on the way to a path, the permission they add up to, and the
callbacks that enforce it on lookups and links.

A file node that the source passes around is named by its metadata address; the
calls of a volume are those of its name store.
-/

namespace Grits

open SlashPath

/-- `Grant`. -/
structure Grant where
  user : GoString
  auth : Option Bool
  all : Option Bool
  origin : GoString
  permission : Permission
  deriving DecidableEq

/-- `AccessConfig`. -/
structure AccessConfig where
  allow : List Grant
  deriving DecidableEq

/-- What `AuthModule` is configured with and the libraries it rests on. -/
structure AuthModule where
  /-- `Config.CoreVhost`. -/
  coreVhost : GoString
  /-- `url.Parse` and then `Hostname`. -/
  urlHostname : GoString → Option GoString
  /-- `json.Unmarshal` into an `AccessConfig`. -/
  unmarshalAccess : Bytes → Option AccessConfig

variable (m : AuthModule)

/-- `strings.HasPrefix(s, "http://") || strings.HasPrefix(s, "https://")`. -/
def hasScheme (s : GoString) : Bool :=
  "http://".toList.isPrefixOf s || "https://".toList.isPrefixOf s

/-- `AuthModule.authHostname`. -/
def AuthModule.authHostname : GoString :=
  let raw := if hasScheme m.coreVhost then m.coreVhost else "https://".toList ++ m.coreVhost
  (m.urlHostname raw).getD []

/-- `AuthModule.resolveOrigin`. -/
def AuthModule.resolveOrigin (origin : GoString) : GoString :=
  if origin = [] ∨ origin = ['*'] then origin
  else if hasScheme origin then origin
  else if origin.any fun c => c == '/' || c == '*' then []
  else
    let coreHost := m.authHostname
    if coreHost = [] then []
    else "https://".toList ++ origin ++ '.' :: coreHost

/-- The loop at the end of `readAccessConfigFromRoot`. -/
def AuthModule.resolveOrigins (cfg : AccessConfig) : AccessConfig :=
  ⟨cfg.allow.map fun g => { g with origin := m.resolveOrigin g.origin }⟩

/-- `grantMatchesPrincipal`. -/
def grantMatchesPrincipal (g : Grant) (principal : Principal) : Bool :=
  if g.origin = [] then false
  else
    let tier : Bool :=
      if g.user ≠ [] then g.user == principal.user
      else if g.auth = some true then principal.user != []
      else if g.all = some true then true
      else g.origin != ['*']
    if !tier then false
    else if g.origin = ['*'] then true
    else if principal.origin = [] then true
    else g.origin == principal.origin

/-- `parentPath`. -/
def parentPath (path : GoString) : GoString := (beforeLastSlash (trimRight path)).getD []

/-! ## Reading `access.json` -/

/-- The directory that holds the `access.json` of its parent. -/
def gritsDir : GoString := ".grits".toList

/-- `".grits/access.json"`, below a directory. -/
def accessPath (dirPath : GoString) : GoString :=
  if dirPath = [] then ".grits/access.json".toList
  else dirPath ++ "/.grits/access.json".toList

/-- `FatalIfBlobMissing` on the error of a call, which is returned otherwise. -/
def fatalIfBlobMissing {α : Type} (call : Op α) : Op α :=
  Prog.catching call fun
    | .err e =>
        match isBlobMissing e with
        | some addr => Prog.stop (.crash (.blobMissing addr))
        | none => fail e
    | halt => Prog.stop halt

/-- Return the error of a call inside `fmt.Errorf("…: %w", err)`. -/
def wrapErr {α : Type} (text : GoString) (call : Op α) : Op α :=
  Prog.catching call fun
    | .err e => fail (.wrapped text e)
    | halt => Prog.stop halt

/-- `ExportedBlob` and `Read` of the whole blob, for a holder of the node, and the
deferred `Release` of the node. -/
def readAndRelease (E : Env) (text : GoString) (node : BlobAddr) : Op Bytes :=
  releasing E (some node) do
    wrapErr text (fatalIfBlobMissing (exportedBlob node))
    let node ← getNode node
    readAll node.metadata.contentHash

/-- `json.Unmarshal` and the origins resolved, as `readAccessConfig` and
`readAccessConfigFromRoot` end. -/
def parseAccessConfig (dirPath : GoString) (data : Bytes) : Op (Option AccessConfig) :=
  match m.unmarshalAccess data with
  | none => fail (.message ("parsing ".toList ++ accessPath dirPath))
  | some cfg => pure (some (m.resolveOrigins cfg))

/-- `AuthModule.readAccessConfigFromRoot`. -/
def readAccessConfigFromRoot (E : Env) (rootNode : BlobAddr) (dirPath : GoString) :
    Op (Option AccessConfig) := do
  let resp ← wrapErr ("reading ".toList ++ accessPath dirPath)
    (fatalIfBlobMissing (resolveFromLocal E (accessPath dirPath) (some rootNode)))
  match resp.leaf with
  | none => pure none
  | some leaf =>
      if leaf.error ≠ none then pure none
      else do
        wrapErr ("loading node for ".toList ++ accessPath dirPath)
          (fatalIfBlobMissing (getFileNode E leaf.addr))
        let data ← readAndRelease E ("getting blob for ".toList ++ accessPath dirPath) leaf.addr
        parseAccessConfig m dirPath data

/-- `LocalVolume.LookupNode`: the caller holds a reference to the node returned. -/
def lookupNode (E : Env) (callbacks : List LookupCallback) (path : GoString)
    (principal : PrincipalRef) : Op BlobAddr := do
  let path := trimRight path
  let resp ← lookup E callbacks [path] [] principal
  match resp.leaf with
  | none => fail (.message ("LookupNode: no paths returned for ".toList ++ path))
  | some leaf =>
      match leaf.error with
      | some .notFound => fail .notExist
      | some .accessDenied => fail (.accessDenied leaf.path)
      | some _ => fail (.message ("LookupNode: unexpected error at ".toList ++ leaf.path))
      | none =>
          if leaf.path ≠ path then
            fail (.message ("LookupNode: expected leaf at ".toList ++ path))
          else do
            getFileNode E leaf.addr
            pure leaf.addr

/-- `ReadVolumeFile` for the backend, from whom the lookup callback hides nothing. -/
def readVolumeFile (E : Env) (path : GoString) : Op Bytes := do
  let node ← wrapErr ("ReadVolumeFile: lookup ".toList ++ path)
    (fatalIfBlobMissing (lookupNode E [] path .backend))
  readAndRelease E ("ReadVolumeFile: exported blob for ".toList ++ path) node

/-- `errors.Is(err, ErrNotExist)`. -/
def isNotExist : GoErr → Bool
  | .notExist => true
  | .wrapped _ cause => isNotExist cause
  | _ => false

/-- `AuthModule.readAccessConfig`. -/
def readAccessConfig (E : Env) (dirPath : GoString) : Op (Option AccessConfig) := do
  match ← tryErr (readVolumeFile E (accessPath dirPath)) with
  | .error e =>
      if isNotExist e then pure none
      else fail (.wrapped ("reading ".toList ++ accessPath dirPath) e)
  | .ok data => parseAccessConfig m dirPath data

/-- `AuthModule.readAccessConfigAtRoot`. -/
def readAccessConfigAtRoot (E : Env) (rootNode : Option BlobAddr) (dirPath : GoString) :
    Op (Option AccessConfig) :=
  match rootNode with
  | some rootNode => readAccessConfigFromRoot m E rootNode dirPath
  | none => readAccessConfig m E dirPath

/-! ## The effective permission -/

/-- The three buckets of `resolvePermissionAtRoot`. -/
structure Buckets where
  inheritedGrants : List Grant
  gritsParentGrants : List Grant
  localGrants : List Grant

/-- File grants found at a directory into a bucket; `rest` are the segments that
follow it. -/
def Buckets.add (buckets : Buckets) (rest : List GoString) (grants : List Grant) : Buckets :=
  match rest with
  | [] => { buckets with localGrants := buckets.localGrants ++ grants }
  | next :: _ =>
      if next = gritsDir then
        { buckets with gritsParentGrants := buckets.gritsParentGrants ++ grants }
      else { buckets with inheritedGrants := buckets.inheritedGrants ++ grants }

/-- The grants of the `access.json` of a directory that match; an error while
reading it counts as none. -/
def matchingGrants (E : Env) (rootNode : Option BlobAddr) (principal : Principal)
    (dirPath : GoString) : Op (List Grant) := do
  match ← tryErr (readAccessConfigAtRoot m E rootNode dirPath) with
  | .error _ => pure []
  | .ok none => pure []
  | .ok (some cfg) => pure (cfg.allow.filter fun g => grantMatchesPrincipal g principal)

/-- The loop of `resolvePermissionAtRoot` over the segments of the path, `acc`
being the segments before joined. -/
def collectGrants (E : Env) (rootNode : Option BlobAddr) (principal : Principal) :
    List GoString → GoString → Buckets → Op Buckets
  | [], _, buckets => pure buckets
  | seg :: rest, acc, buckets =>
      if seg = [] then collectGrants E rootNode principal rest acc buckets
      else do
        let acc := if acc = [] then seg else acc ++ '/' :: seg
        let grants ← matchingGrants m E rootNode principal acc
        collectGrants E rootNode principal rest acc (buckets.add rest grants)

/-- Merge grants, each changed by `part`, which leaves some out. -/
def mergeGrants (part : Permission → Option Permission) (merged : Permission)
    (grants : List Grant) : Permission :=
  grants.foldl (fun merged g =>
    match part g.permission with
    | none => merged
    | some p => mergePerm merged p) merged

/-- The merges at the end of `resolvePermissionAtRoot`. -/
def Buckets.merge (buckets : Buckets) (segments : List GoString) : Permission :=
  let merged := mergeGrants inheritedPerm .empty buckets.inheritedGrants
  let merged := mergeGrants gritsParentPerm merged buckets.gritsParentGrants
  let lastSegIsGrits := segments.getLast? == some gritsDir
  mergeGrants (localPerm lastSegIsGrits) merged buckets.localGrants

/-- `AuthModule.resolvePermissionAtRoot`. -/
def resolvePermissionAtRoot (E : Env) (rootNode : Option BlobAddr) (dirPath : GoString)
    (principal : Principal) : Op Permission := do
  let segments := split (trimRight dirPath)
  let buckets ← collectGrants m E rootNode principal segments [] ⟨[], [], []⟩
  -- the grants of the root are always inherited
  let rootGrants ← matchingGrants m E rootNode principal []
  let buckets := { buckets with inheritedGrants := buckets.inheritedGrants ++ rootGrants }
  pure (buckets.merge segments)

/-- The check that `hasPermissionAtRoot` makes for a required permission. -/
def permits (effective : Permission) : Permission → Bool
  | .read => canRead effective
  | .insert => canInsert effective
  | .readWrite => canWrite effective
  | .owner => canOwn effective
  | _ => false

/-- `AuthModule.hasPermissionAtRoot`. -/
def hasPermissionAtRoot (E : Env) (rootNode : Option BlobAddr) (path : GoString)
    (principal : PrincipalRef) (required : Permission) : Op Bool :=
  match principal with
  | .backend => pure true
  | .of principal => do
      let effective ← resolvePermissionAtRoot m E rootNode path principal
      pure (permits effective required)

/-! ## The callbacks -/

/-- One round of the loop of `MakeLookupCallback`. -/
def pruneStep (E : Env) (root : Option BlobAddr) (principal : PrincipalRef)
    (result : List PathNodePair) (pair : PathNodePair) : Op (List PathNodePair) := do
  if ← hasPermissionAtRoot m E root pair.path principal .read then pure (result ++ [pair])
  else pure (result ++ [.failed pair.path .accessDenied])

/-- `AuthModule.MakeLookupCallback`. -/
def makeLookupCallback (E : Env) : LookupCallback := fun resp req root => do
  let result ← Prog.loop (pruneStep m E root req.principal) [] resp.paths
  pure ⟨result, resp.serialNumber⟩

/-- Whether `lookupFromRoot` finds a node at the path. -/
def existsAtRoot (E : Env) (path : GoString) : Option BlobAddr → Op Bool
  | none => pure false
  | some root => do
      match ← tryErr (resolveFromLocal E path (some root)) with
      | .error _ => pure false
      | .ok resp => pure (resp.leaf.any fun leaf => leaf.error == none)

/-- One round of the loop of `MakeLinkCallback`. -/
def checkLink (E : Env) (oldRoot : Option BlobAddr) (principal : PrincipalRef)
    (req : LinkRequest) : Op Unit := do
  let reqPath := trimRight req.path
  let parent := parentPath reqPath
  if ← hasPermissionAtRoot m E oldRoot reqPath principal .readWrite then pure ()
  else if ← hasPermissionAtRoot m E oldRoot parent principal .insert then do
    if ← existsAtRoot E reqPath oldRoot then fail (.accessDenied reqPath) else pure ()
  else fail (.accessDenied reqPath)

/-- `AuthModule.MakeLinkCallback`. -/
def makeLinkCallback (E : Env) : LinkCallback := fun oldRoot _ requests principal =>
  Prog.loop (fun _ req => checkLink m E oldRoot principal req) () requests

end Grits
