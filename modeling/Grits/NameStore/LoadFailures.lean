import Grits.NameStore.NodeCleanup
import Grits.NameStore.Volume

/-!
# Loads and fetches that fail

`actuallyLoadFileNode` takes a reference to the metadata blob and, in a dense
name store, one to the content blob, and `RemoteVolume.FetchBlob` takes one to
the blob it has just stored.  Every later exit with an error is to give back
what was taken so far.

Two exits do not.  The content blob is kept when the type of the node turns out
to be unknown, which only a number can be, since an unknown word is refused
while the metadata is parsed.  And the stored blob is kept when its address is
not the one that was asked for.
-/

namespace Grits

open Prog

variable {E : Env} {s t u : NameStore} {addr : BlobAddr}

/-- What the HTTP client makes of a request to the remote.  A body that breaks off is read
with an error. -/
inductive Response where
  | failed (cause : GoString)
  | answered (status : ℕ) (body : Bytes) (readError : Option GoString)

/-- `LocalBlobStore.Touch`. -/
def touchBlob (E : Env) (addr : BlobAddr) (duration : ℤ) : Op Unit := do
  let now ← consult E.clock
  let s ← Prog.get
  match s.blobStore.lookup addr with
  | none => Prog.stop (.dangling addr)
  | some file =>
      let file := { file with expiresAt := some (now + duration) }
      Prog.modify fun s => { s with blobStore := s.blobStore.insert addr file }

/-- `RemoteVolume.FetchBlob`, when the remote responds like this. -/
def fetchBlob (E : Env) (cacheDuration : ℤ) (resp : Response) (addr : BlobAddr) : Op BlobAddr :=
  match resp with
  | .failed cause =>
      fail (.message ("failed to fetch blob ".toList ++ addr ++ ": ".toList ++ cause))
  | .answered status body readError =>
      if status ≠ 200 then
        fail (.message ("failed to fetch blob ".toList ++ addr ++
          ": status ".toList ++ (Nat.repr status).toList))
      else
        match readError with
        | some cause => fail (.message ("failed to copy and hash data: ".toList ++ cause))
        | none => do
            let cf ← addDataBlock E body
            if cf ≠ addr then
              fail (.message ("mismatch of blob addr! ".toList ++ cf ++ " != ".toList ++ addr))
            else do
              touchBlob E cf cacheDuration
              pure cf

namespace Table

end Table

end Grits
