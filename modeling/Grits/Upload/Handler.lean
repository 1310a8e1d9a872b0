import Grits.BlobStore.Safety

/-!
# Uploading a blob

`HTTPModule.handleBlobUpload` of `internal/gritsd/module_http.go` for one request,
with the `ReferenceHolder` of `internal/gritsd/refholder.go`, among everything else
the server does with its blob store.  The handler stops where it calls the blob
store, the holder or the reader of the body; in between, the rest of the server goes
on.
-/

namespace Grits

namespace Upload

open BlobStore Runs

/-! ## The request -/

structure HTTPModuleConfig where
  readOnly : Bool
  maxUploadSize : ℤ

structure BlobRequest where
  /-- `r.URL.Path`. -/
  path : GoString
  /-- `r.ContentLength`, which is `-1` when it is not known. -/
  contentLength : ℤ

/-- `strings.TrimPrefix`. -/
def trimPrefix (head s : GoString) : GoString := if head <+: s then s.drop head.length else s

/-- The text before its last dot, if there is one. -/
def cutExtension (s : GoString) : GoString :=
  if '.' ∈ s then (s.rdropWhile (· ≠ '.')).dropLast else s

/-- The hash in the path. -/
def BlobRequest.expectedHash (r : BlobRequest) : Option BlobAddr :=
  let blobPath := trimPrefix ['/'] (trimPrefix "/grits/v1/blob".toList r.path)
  if blobPath = [] then none else some (cutExtension blobPath)

/-- `[1-9A-HJ-NP-Za-km-z]`. -/
def isBase58 (c : Char) : Bool :=
  '1' ≤ c && c ≤ '9' || 'A' ≤ c && c ≤ 'H' || 'J' ≤ c && c ≤ 'N' || 'P' ≤ c && c ≤ 'Z' ||
    'a' ≤ c && c ≤ 'k' || 'm' ≤ c && c ≤ 'z'

/-- `Validate("blobAddr", value)`. -/
def validBlobAddr (value : GoString) : Bool :=
  value.take 2 = ['Q', 'm'] && value.length = 46 && (value.drop 2).all isBase58

/-- The status of a request that is refused before the blob store is asked; `overLimit` is
the answer of `CheckLimit`. -/
def refusal (c : HTTPModuleConfig) (r : BlobRequest) (overLimit : Bool) : Option ℕ :=
  if c.readOnly then some 403
  else if 0 < r.contentLength ∧ c.maxUploadSize < r.contentLength then some 413
  else if 0 < r.contentLength ∧ overLimit then some 429
  else match r.expectedHash with
    | none => none
    | some addr => if validBlobAddr addr then none else some 400

/-! ## The handler -/

structure Reply where
  status : ℕ
  /-- The hash in its body. -/
  hash : Option BlobAddr
  time : ℤ

/-- How far the handler is. -/
inductive Stage where
  | called (request : BlobRequest)
  /-- `ReadFile` has returned a file. -/
  | existing (expectedHash : BlobAddr) (id : ℕ)
  /-- There is no such blob, or the path has no hash. -/
  | absent (expectedHash : Option BlobAddr)
  /-- The body is in the temporary file. -/
  | copied (expectedHash : Option BlobAddr) (data : Bytes)
  /-- `AddLocalFile` has returned a file of another hash. -/
  | mismatch (id : ℕ)
  /-- `AddLocalFile` has returned the file. -/
  | added (id : ℕ) (actualHash : BlobAddr)
  /-- `Hold` has taken its reference. -/
  | taken (id : ℕ) (actualHash : BlobAddr)
  | answered (reply : Reply)

/-- The references the handler has. -/
def Stage.refs : Stage → Multiset ℕ
  | .existing _ id => {id}
  | .mismatch id => {id}
  | .added id _ => {id}
  | .taken id _ => {id, id}
  | _ => 0

/-- `heldReference`; `ours` if the request put it there. -/
structure HeldReference where
  obj : ℕ
  expiresAt : ℤ
  ours : Bool

/-- `5*time.Minute`. -/
def fiveMinutes : ℤ := 5 * 60 * 1000000000

structure Server where
  /-- The blob store, with the references that neither the handler nor the holder has. -/
  rest : Usage
  heldRefs : List HeldReference
  stage : Stage

/-- The hash is that in the path, if there is one. -/
def Fits (H : BlobHash) (expectedHash : Option BlobAddr) (data : Bytes) : Prop :=
  ∀ addr, expectedHash = some addr → addr = H.sum data

/-- Which uploads there may be. -/
structure Uploads where
  /-- Of a blob that is there already. -/
  ofExisting : Prop
  /-- Of a body that has the hash in the path. -/
  fitting : Prop

/-- All uploads. -/
def Uploads.any : Uploads := ⟨True, True⟩

/-- A step of the handler, of the holder or of the rest of the server. -/
inductive Step (H : BlobHash) (c : HTTPModuleConfig) (uploads : Uploads) : Server → Server → Prop
  | rest {s : Server} {rest : Usage} (hstep : BlobStore.Step H s.rest rest) :
      Step H c uploads s { s with rest := rest }
  /-- `Hold` of another handler, which has taken the reference. -/
  | holdOther {s : Server} {id : ℕ} {duration : ℤ} (hheld : id ∈ s.rest.held) :
      Step H c uploads s { s with
        rest := { s.rest with held := s.rest.held.erase id }
        heldRefs := s.heldRefs ++ [⟨id, s.rest.clock + duration, false⟩] }
  /-- A round of the loop of `cleanupExpired`. -/
  | cleanupExpired {s : Server} {ref : HeldReference} {refs : List HeldReference} {now : ℤ}
      {bs : LocalBlobStore} (hrefs : s.heldRefs = ref :: refs) (hnow : now ≤ s.rest.clock)
      (hexpired : ref.expiresAt < now) (hrun : s.rest.store.release ref.obj s.rest.clock = .ok bs) :
      Step H c uploads s { s with rest := { s.rest with store := bs }, heldRefs := refs }
  | refuse {s : Server} {request : BlobRequest} {overLimit : Bool} {status : ℕ}
      (hstage : s.stage = .called request) (hrefusal : refusal c request overLimit = some status) :
      Step H c uploads s { s with stage := .answered ⟨status, none, s.rest.clock⟩ }
  | unnamed {s : Server} {request : BlobRequest} {overLimit : Bool}
      (hstage : s.stage = .called request) (hrefusal : refusal c request overLimit = none)
      (hhash : request.expectedHash = none) : Step H c uploads s { s with stage := .absent none }
  | readFile {s : Server} {request : BlobRequest} {overLimit : Bool} {addr : BlobAddr} {id : ℕ}
      {bs : LocalBlobStore} (hexisting : uploads.ofExisting)
      (hstage : s.stage = .called request) (hrefusal : refusal c request overLimit = none)
      (hhash : request.expectedHash = some addr)
      (hrun : s.rest.store.readFile addr = (some id, bs)) :
      Step H c uploads s { s with rest := { s.rest with store := bs }, stage := .existing addr id }
  /-- A fetcher has added the blob, and `ReadFile` returns its reference. -/
  | fetched {s : Server} {request : BlobRequest} {overLimit : Bool} {addr : BlobAddr} {id : ℕ}
      {file : BlobStore.LocalCachedFile} (hexisting : uploads.ofExisting)
      (hstage : s.stage = .called request) (hrefusal : refusal c request overLimit = none)
      (hhash : request.expectedHash = some addr) (hheld : id ∈ s.rest.held)
      (hfile : s.rest.store.heap[id]? = some file) (haddr : file.address = addr) :
      Step H c uploads s { s with
        rest := { s.rest with held := s.rest.held.erase id }
        stage := .existing addr id }
  | missing {s : Server} {request : BlobRequest} {overLimit : Bool} {addr : BlobAddr}
      {bs : LocalBlobStore} (hstage : s.stage = .called request)
      (hrefusal : refusal c request overLimit = none)
      (hhash : request.expectedHash = some addr) (hrun : s.rest.store.readFile addr = (none, bs)) :
      Step H c uploads s { s with
        rest := { s.rest with store := bs }
        stage := .absent (some addr) }
  | alreadyExists {s : Server} {addr : BlobAddr} {id : ℕ} {bs : LocalBlobStore}
      (hstage : s.stage = .existing addr id)
      (hrun : s.rest.store.release id s.rest.clock = .ok bs) :
      Step H c uploads s { s with
        rest := { s.rest with store := bs }
        stage := .answered ⟨204, some addr, s.rest.clock⟩ }
  | copy {s : Server} {expectedHash : Option BlobAddr} {data : Bytes}
      (hstage : s.stage = .absent expectedHash)
      (hlimit : 0 < c.maxUploadSize ∧ data.length ≤ c.maxUploadSize) :
      Step H c uploads s { s with stage := .copied expectedHash data }
  /-- There is no temporary file, or the body is too large or cannot be read. -/
  | copyFails {s : Server} {expectedHash : Option BlobAddr} {status : ℕ}
      (hstage : s.stage = .absent expectedHash) (hstatus : status = 413 ∨ status = 500) :
      Step H c uploads s { s with stage := .answered ⟨status, none, s.rest.clock⟩ }
  /-- The file cannot be moved into the blob store. -/
  | addFails {s : Server} {expectedHash : Option BlobAddr} {data : Bytes}
      (hstage : s.stage = .copied expectedHash data) :
      Step H c uploads s { s with stage := .answered ⟨500, none, s.rest.clock⟩ }
  | addLocalFile {s : Server} {expectedHash : Option BlobAddr} {data : Bytes} {written : ℤ}
      {id : ℕ} {bs : LocalBlobStore} (hfitting : uploads.fitting)
      (hstage : s.stage = .copied expectedHash data) (hfits : Fits H expectedHash data)
      (hrun : s.rest.store.addLocalFile H data written = (id, bs)) :
      Step H c uploads s { s with
        rest := { s.rest with store := bs }
        stage := .added id (H.sum data) }
  | addOther {s : Server} {expectedHash : Option BlobAddr} {data : Bytes} {written : ℤ}
      {id : ℕ} {bs : LocalBlobStore} (hstage : s.stage = .copied expectedHash data)
      (hfits : ¬ Fits H expectedHash data)
      (hrun : s.rest.store.addLocalFile H data written = (id, bs)) :
      Step H c uploads s { s with rest := { s.rest with store := bs }, stage := .mismatch id }
  | releaseOther {s : Server} {id : ℕ} {bs : LocalBlobStore} (hstage : s.stage = .mismatch id)
      (hrun : s.rest.store.release id s.rest.clock = .ok bs) :
      Step H c uploads s { s with
        rest := { s.rest with store := bs }
        stage := .answered ⟨400, none, s.rest.clock⟩ }
  | holdTake {s : Server} {id : ℕ} {actualHash : BlobAddr}
      (hstage : s.stage = .added id actualHash) :
      Step H c uploads s { s with
        rest := { s.rest with store := s.rest.store.take id }
        stage := .taken id actualHash }
  | hold {s : Server} {id : ℕ} {actualHash : BlobAddr} (hstage : s.stage = .taken id actualHash) :
      Step H c uploads s { s with
        heldRefs := s.heldRefs ++ [⟨id, s.rest.clock + fiveMinutes, true⟩]
        stage := .answered ⟨200, some actualHash, s.rest.clock⟩ }

/-- The server was started; the request may come at any time from then on. -/
structure Opened (H : BlobHash) (s : Server) : Prop where
  rest : BlobStore.Opened H s.rest
  heldRefs : s.heldRefs = []
  stage : ∃ request, s.stage = .called request

/-- The uploads that are let through are let through by a weaker condition. -/
theorem Step.mono {H : BlobHash} {c : HTTPModuleConfig} {uploads uploads' : Uploads}
    (hexisting : uploads.ofExisting → uploads'.ofExisting)
    (hfitting : uploads.fitting → uploads'.fitting) {s t : Server}
    (h : Step H c uploads s t) : Step H c uploads' s t := by
  cases h with
  | rest hstep => exact .rest hstep
  | holdOther hheld => exact .holdOther hheld
  | cleanupExpired hrefs hnow hexpired hrun => exact .cleanupExpired hrefs hnow hexpired hrun
  | refuse hstage hrefusal => exact .refuse hstage hrefusal
  | unnamed hstage hrefusal hhash => exact .unnamed hstage hrefusal hhash
  | readFile h hstage hrefusal hhash hrun =>
      exact .readFile (hexisting h) hstage hrefusal hhash hrun
  | fetched h hstage hrefusal hhash hheld hfile haddr =>
      exact .fetched (hexisting h) hstage hrefusal hhash hheld hfile haddr
  | missing hstage hrefusal hhash hrun => exact .missing hstage hrefusal hhash hrun
  | alreadyExists hstage hrun => exact .alreadyExists hstage hrun
  | copy hstage hlimit => exact .copy hstage hlimit
  | copyFails hstage hstatus => exact .copyFails hstage hstatus
  | addFails hstage => exact .addFails hstage
  | addLocalFile h hstage hfits hrun => exact .addLocalFile (hfitting h) hstage hfits hrun
  | addOther hstage hfits hrun => exact .addOther hstage hfits hrun
  | releaseOther hstage hrun => exact .releaseOther hstage hrun
  | holdTake hstage => exact .holdTake hstage
  | hold hstage => exact .hold hstage

end Upload

end Grits
