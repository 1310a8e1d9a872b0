import Grits.Auth.Lookups

/-!
# Lookups over HTTP

`handleLookup` of `internal/gritsd/module_http.go`, and `_slowLookup` of
`client/lib/grits/GritsClient.js`, which asks it for a path and, in the same
request, for the mini-roots it holds.

The blobs that `handleLookup` keeps for 45 seconds through its `refHolder` are left
out: they decide nothing about the reply.
-/

namespace Grits

open SlashPath

/-! ## The request -/

/-- What `JSON.stringify` writes for a character of a string. -/
def jsonEscape (c : Char) : GoString :=
  if c = '"' then ['\\', '"']
  else if c = '\\' then ['\\', '\\']
  else if c.toNat = 0x08 then ['\\', 'b']
  else if c.toNat = 0x09 then ['\\', 't']
  else if c.toNat = 0x0a then ['\\', 'n']
  else if c.toNat = 0x0c then ['\\', 'f']
  else if c.toNat = 0x0d then ['\\', 'r']
  else if c.toNat < 0x20 then
    ['\\', 'u', '0', '0', Nat.digitChar (c.toNat / 16), Nat.digitChar (c.toNat % 16)]
  else [c]

/-- `JSON.stringify` of a string. -/
def jsonString (s : GoString) : GoString := '"' :: s.flatMap jsonEscape ++ ['"']

/-- The elements of a JSON array, with a comma before each but the first. -/
def jsonElements (elements : List GoString) : GoString := [','].intercalate elements

/-- The body of the request of `_slowLookup`. -/
def lookupBody (volume : GoString) (paths : List GoString) : GoString :=
  "\x7b\"volume\":".toList ++ jsonString volume ++ ",\"paths\":[".toList ++
    jsonElements (paths.map jsonString) ++ "]\x7d".toList

/-- The bytes of a text in UTF-8. -/
def utf8Length (s : GoString) : ℕ := (s.map Char.utf8Size).sum

/-- `io.LimitReader(r.Body, 1<<20)`. -/
def maxLookupBody : ℕ := 2 ^ 20

/-- `Validate("relativePath", value)`. -/
def validRelativePath (value : GoString) : Bool :=
  value == [] || (utf8Length value ≤ 4096 && value.head? != some '/' &&
    value.getLast? != some '/' && !value.contains (Char.ofNat 0))

/-- The request passes the checks at the start of `handleLookup`.  A longer body is cut,
and is no JSON any more. -/
def acceptsLookup (volume : GoString) (paths : List GoString) : Bool :=
  utf8Length (lookupBody volume paths) ≤ maxLookupBody && !paths.isEmpty &&
    paths.all validRelativePath

/-! ## The reply -/

/-- A reply of `handleLookup`. -/
inductive LookupReply where
  /-- The entries, under the status that the last of them gives. -/
  | entries (status : ℕ) (response : LookupResponse)
  /-- Status 403, for an `ErrAccessDenied`.  The handler goes on after it, and writes a
  second JSON value behind the one with the path. -/
  | denied
  /-- `http.Error`. -/
  | error (status : ℕ)

/-- The status of a reply whose last entry has this error. -/
def leafStatus : Option LookupError → ℕ
  | none => 200
  | some .notFound => 404
  | some .accessDenied => 403
  | some _ => 207

/-- `IsAccessDenied`. -/
def isAccessDenied : GoErr → Option GoString
  | .accessDenied path => some path
  | .wrapped _ cause => isAccessDenied cause
  | _ => none

/-- The loop of `handleLookup` over the entries that were found: every node is kept
until the loop is over. -/
def serveEntries (E : Env) : List PathNodePair → Op Unit
  | [] => pure ()
  | pair :: rest =>
      if pair.error ≠ none ∨ pair.addr = [] then serveEntries E rest
      else do
        getFileNode E pair.addr
        releasing E (some pair.addr) do
          let node ← getNode pair.addr
          if node.metadata.type = .directory then fatalIfBlobMissing (exportedBlob pair.addr)
          else pure ()
          serveEntries E rest

/-- `HTTPModule.handleLookup`, for a volume that exists. -/
def handleLookup (E : Env) (callbacks : List LookupCallback) (volume : GoString)
    (paths : List GoString) (principal : PrincipalRef) : Op LookupReply :=
  if acceptsLookup volume paths = false then pure (.error 400)
  else do
    match ← tryErr (lookup E callbacks paths [] principal) with
    | .error e =>
        match isAccessDenied e, isBlobMissing e with
        | some _, _ => pure .denied
        | none, some addr => Prog.stop (.crash (.blobMissing addr))
        | none, none => pure (.error 404)
    | .ok response => do
        match ← tryErr (serveEntries E response.paths) with
        | .error _ => pure (.error 500)
        | .ok _ => pure (.entries (leafStatus (response.leaf.bind (·.error))) response)

/-! ## The client -/

/-- An entry of `_miniRoots`; its address is gone after `resetRoot`. -/
structure MiniRoot where
  addr : Option BlobAddr
  ts : ℤ

/-- `MINIROOT_TTL`, in milliseconds. -/
def miniRootTTL : ℤ := 1 * 60 * 1000

/-- The paths that `_slowLookup` asks for. -/
def slowPaths (now : ℤ) (miniRoots : List (GoString × MiniRoot)) (path : GoString) :
    List GoString :=
  path :: (miniRoots.filter fun root =>
    decide (now - root.2.ts < miniRootTTL) && root.1 != path).map (·.1)

/-- How `_slowLookup` ends. -/
inductive LookupOutcome where
  | found (metadataHash contentHash : BlobAddr) (contentSize : Int64)
  /-- It returns `null`. -/
  | notFound
  /-- It throws an `AccessDeniedError` for this path, which may be `undefined`. -/
  | accessDenied (path : Option GoString)
  /-- It throws another error. -/
  | failed
  deriving DecidableEq

/-- What `_slowLookup` makes of the entry for its path. -/
def entryOutcome : Option PathNodePair → LookupOutcome
  | none => .notFound
  | some entry =>
      match entry.error with
      | none => .found entry.addr entry.contentHash entry.size
      | some .notFound => .notFound
      | some .accessDenied => .accessDenied (some entry.path)
      | some _ => .failed

/-- What `_slowLookup` makes of a reply.  A 403 with entries has no `path` in it; in the
other one `resp.json()` fails, and the path asked for stands in. -/
def readReply (path : GoString) : LookupReply → LookupOutcome
  | .denied => .accessDenied (some path)
  | .error _ => .notFound
  | .entries status response =>
      if status = 403 then .accessDenied none
      else if ¬ (200 ≤ status ∧ status ≤ 299) then .notFound
      else if response.paths = [] then .failed
      else entryOutcome (response.paths.find? fun entry => entry.path == path)

/-- `_slowLookup`. -/
def slowLookup (E : Env) (callbacks : List LookupCallback) (volume : GoString)
    (principal : PrincipalRef) (now : ℤ) (miniRoots : List (GoString × MiniRoot))
    (path : GoString) : Op LookupOutcome := do
  let reply ← handleLookup E callbacks volume (slowPaths now miniRoots path) principal
  pure (readReply path reply)

end Grits
