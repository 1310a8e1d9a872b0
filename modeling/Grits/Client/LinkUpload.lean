import Grits.Client.SlowLookup
import Grits.Library.Resupply

/-!
# Links over HTTP

`handleLink` and `handleBlobUpload` of `internal/gritsd/module_http.go`, and
`_serverMultiLink` of `client/lib/grits/GritsClient.js`, which posts a link again and
again until the server has every blob it needs.

The volume can be written, and no rate or size limit is reached.  The blobs that
`handleLink` keeps for 45 seconds through its `refHolder` are left out: they decide
nothing about the reply.
-/

namespace Grits

/-! ## The server -/

/-- `IsAssertionFailed`. -/
def isAssertionFailed : GoErr → Bool
  | .assertionFailed => true
  | .wrapped _ cause => isAssertionFailed cause
  | _ => false

/-- `IsNotDir`. -/
def isNotDir : GoErr → Bool
  | .notDir => true
  | .wrapped _ cause => isNotDir cause
  | _ => false

/-- A reply of `handleLink`. -/
inductive LinkReply where
  | linked (response : Option LookupResponse)
  /-- Status 422, with the address of a blob. -/
  | missingBlob (addr : BlobAddr)
  /-- Any other status. -/
  | error (status : ℕ)

/-- The reply for an error of `MultiLink`. -/
def linkFailure (e : GoErr) : LinkReply :=
  match isBlobMissing e with
  | some addr => .missingBlob addr
  | none =>
      if isAssertionFailed e then .error 409
      else if isNotExist e then .error 404
      else if isNotDir e then .error 400
      else if (isAccessDenied e).isSome then .error 403
      else .error 500

/-- The loop of `handleLink` over the entries of the response: every node is kept until
the loop is over. -/
def keepEntries (E : Env) : List PathNodePair → Op Unit
  | [] => pure ()
  | pair :: rest =>
      -- a deleted path or an error
      if pair.addr = [] then keepEntries E rest
      else do
        fatalIfBlobMissing (getFileNode E pair.addr)
        releasing E (some pair.addr) do
          let node ← getNode pair.addr
          if node.metadata.type = .directory then fatalIfBlobMissing (exportedBlob pair.addr)
          else pure ()
          keepEntries E rest

/-- `HTTPModule.handleLink`, for a volume that can be written. -/
def handleLink (E : Env) (H : Hooks) (requests : List LinkRequest) (principal : PrincipalRef) :
    Op LinkReply :=
  if requests.isEmpty || !requests.all (fun request => validRelativePath request.path) then
    pure (.error 400)
  else do
    match ← tryErr (multiLink E H requests true principal) with
    | .error e => pure (linkFailure e)
    | .ok response => do
        match ← tryErr (keepEntries E ((response.map (·.paths)).getD [])) with
        | .error _ => pure (.error 500)
        | .ok _ => pure (.linked response)

/-- `HTTPModule.handleBlobUpload` with an address in the path: whether the status is one
of success.  The `refHolder` keeps the reference to a new blob. -/
def handleBlobUpload (E : Env) (expectedHash : BlobAddr) (body : Bytes) : Op Bool := do
  let s ← Prog.get
  match s.blobStore.lookup expectedHash with
  | some _ => do
      let _ ← readFile expectedHash
      releaseBlob E expectedHash
      pure true
  | none => do
      let actualHash ← addDataBlock E body
      if expectedHash ≠ actualHash then do
        releaseBlob E actualHash
        pure false
      else pure true

/-! ## The client -/

/-- The blobs a client holds in its blob cache. -/
abbrev BlobCache := Finmap fun _ : BlobAddr => Bytes

/-- How `_serverMultiLink` fails. -/
inductive LinkError where
  /-- `AssertionError`, for status 409. -/
  | assertion
  /-- Any other status. -/
  | status (status : ℕ)
  /-- `fetch` itself fails. -/
  | network
  deriving DecidableEq

/-- One `fetch` of `_serverMultiLink`, and what the client makes of the reply. -/
def postLink (E : Env) (H : Hooks) (requests : List LinkRequest) (principal : PrincipalRef)
    (s : NameStore) :
    Resupply.Attempt (Option LookupResponse) BlobAddr LinkError × NameStore :=
  match handleLink E H requests principal s with
  | (.ok (.linked response), t) => (.done response, t)
  | (.ok (.missingBlob addr), t) => (.lacks addr, t)
  | (.ok (.error status), t) =>
      (.refused (if status = 409 then .assertion else .status status), t)
  | (.error _, t) => (.refused .network, t)

/-- `_uploadMissingBlob`: the server afterwards, unless an error is thrown. -/
def uploadMissingBlob (E : Env) (cache : BlobCache) (addr : BlobAddr) (s : NameStore) :
    Option NameStore :=
  match cache.lookup addr with
  | some bytes =>
      match handleBlobUpload E addr bytes s with
      | (.ok true, t) => some t
      | _ => none
  -- `_serverHasBlob`
  | none => if (s.blobStore.lookup addr).isSome then some s else none

/-- `_normalizePath`: no slash at either end. -/
def normalizePath (path : GoString) : GoString :=
  SlashPath.trimRight (path.dropWhile (· == '/'))

/-- The requests in the body of a post. -/
def postedRequests (requests : List LinkRequest) : List LinkRequest :=
  requests.map fun request => { request with path := normalizePath request.path }

/-- `_serverMultiLink`, for at most `fuel` posts; the blobs it asks for are those in
`seenMissing`. -/
def serverMultiLink (E : Env) (H : Hooks) (cache : BlobCache) (requests : List LinkRequest)
    (principal : PrincipalRef) (fuel : ℕ) (s : NameStore) :
    Resupply.Outcome NameStore (Option LookupResponse) BlobAddr LinkError :=
  Resupply.run (postLink E H (postedRequests requests) principal) (uploadMissingBlob E cache)
    fuel [] s

end Grits
