import Grits.BlobStore.Disk
import Grits.Library.Runs
import Grits.NameStore.State

/-!
# The local blob store

`LocalBlobStore` of `internal/grits/blobstore.go`, with its files on disk.  Each
function runs under `mtx`, except that `EvictOldFiles` reads the clock before it
takes the lock.  A pointer to a `LocalCachedFile` is a position in `heap`.
-/

namespace Grits

namespace BlobStore

/-- `ComputeHash`, whose texts are long enough to be cut up by `blobToPath`. -/
structure BlobHash where
  sum : Bytes → BlobAddr
  isCid_sum : ∀ data, IsCid (sum data)
  le_length_sum : ∀ data, 5 ≤ (sum data).length

structure LocalCachedFile where
  path : Path
  refCount : ℤ
  address : BlobAddr
  size : ℕ
  /-- The zero time is `none`. -/
  expiresAt : Option ℤ

structure LocalBlobStore where
  files : Finmap fun _ : BlobAddr => ℕ
  heap : List LocalCachedFile
  disk : Disk

/-- `blobToPath`. -/
def blobToPath (addr : BlobAddr) : Path :=
  if addr.length < 5 then [addr] else [addr.take 3, (addr.drop 3).take 1, addr.drop 4]

namespace LocalBlobStore

/-! ## Opening -/

/-- What `scanAndLoadExistingFiles` does with a file it finds. -/
def scanFile (H : BlobHash) (validateBlobs : Bool) (bs : LocalBlobStore) (path : Path) :
    Option LocalBlobStore :=
  match bs.disk.files.lookup path with
  | none => some bs
  | some file =>
      let addr := path.flatten
      if ¬ IsCid addr then some bs
      else if validateBlobs ∧ H.sum file.data ≠ addr then none
      else some { bs with
        files := bs.files.insert addr bs.heap.length
        heap := bs.heap ++ [⟨path, 0, addr, file.data.length, some file.modTime⟩] }

/-- `NewLocalBlobStore`, which walks the files in some order. -/
def newLocalBlobStore (H : BlobHash) (validateBlobs : Bool) (order : List Path) (disk : Disk) :
    Option LocalBlobStore :=
  order.foldlM (scanFile H validateBlobs) ⟨∅, [], disk⟩

/-! ## Blobs -/

/-- Write through a pointer. -/
def update (id : ℕ) (f : LocalCachedFile → LocalCachedFile) (bs : LocalBlobStore) :
    LocalBlobStore :=
  { bs with heap := bs.heap.modify id f }

/-- `Take`. -/
def take (id : ℕ) (bs : LocalBlobStore) : LocalBlobStore :=
  bs.update id fun file => { file with refCount := file.refCount + 1 }

/-- `ReadFile`; for a blob that is not here the fetchers are asked. -/
def readFile (addr : BlobAddr) (bs : LocalBlobStore) : Option ℕ × LocalBlobStore :=
  match bs.files.lookup addr with
  | some id => (some id, bs.take id)
  | none => (none, bs)

/-- A blob that was not here, written at its path. -/
def addNew (addr : BlobAddr) (file : DiskFile) (bs : LocalBlobStore) : ℕ × LocalBlobStore :=
  (bs.heap.length,
    { files := bs.files.insert addr bs.heap.length
      heap := bs.heap ++ [⟨blobToPath addr, 1, addr, file.data.length, none⟩]
      disk := (bs.disk.mkdirAll (blobToPath addr).dropLast).writeFile (blobToPath addr) file })

/-- `AddReader` of a reader that gives `data`; the temporary file was written at `written`. -/
def addReader (H : BlobHash) (data : Bytes) (written : ℤ) (bs : LocalBlobStore) :
    ℕ × LocalBlobStore :=
  match bs.files.lookup (H.sum data) with
  | some id => (id, bs.take id)
  | none => bs.addNew (H.sum data) ⟨data, written⟩

/-- `AddLocalFile` of a file that holds `data`. -/
def addLocalFile (H : BlobHash) (data : Bytes) (written : ℤ) (bs : LocalBlobStore) :
    ℕ × LocalBlobStore := bs.addReader H data written

/-- `AddDataBlock`. -/
def addDataBlock (H : BlobHash) (data : Bytes) (now : ℤ) (bs : LocalBlobStore) :
    ℕ × LocalBlobStore :=
  match bs.files.lookup (H.sum data) with
  | some id => (id, bs.take id)
  | none => bs.addNew (H.sum data) ⟨data, now⟩

/-- `Touch`. -/
def touch (id : ℕ) (now duration : ℤ) (bs : LocalBlobStore) : LocalBlobStore :=
  match bs.heap[id]? with
  | none => bs
  | some file =>
      { bs.update id fun file => { file with expiresAt := some (now + duration) } with
        disk := bs.disk.chtimes file.path (now + duration) }

/-- Delete a blob from the map and from the disk. -/
def discard (file : LocalCachedFile) (bs : LocalBlobStore) : LocalBlobStore :=
  { bs with
    files := bs.files.erase file.address
    disk := (bs.disk.removeFile file.path).tryRmdirParents file.path }

/-- `Release`. -/
def release (id : ℕ) (now : ℤ) (bs : LocalBlobStore) : Except Crash LocalBlobStore :=
  match bs.heap[id]? with
  | none => .ok bs
  | some file =>
      let bs := bs.update id fun file => { file with refCount := file.refCount - 1 }
      let file := { file with refCount := file.refCount - 1 }
      if file.refCount < 0 then .error (.blobCountNegative file.address)
      else if 0 < file.refCount then .ok bs
      else if isAfter now file.expiresAt then .ok (bs.discard file)
      else .ok bs

/-! ## Eviction -/

/-- One round of the loop of `EvictOldFiles`. -/
def evictAt (now : ℤ) (bs : LocalBlobStore) (addr : BlobAddr) : LocalBlobStore :=
  match bs.files.lookup addr with
  | none => bs
  | some id =>
      match bs.heap[id]? with
      | none => bs
      | some file =>
          if 0 < file.refCount then bs
          else if isAfter now file.expiresAt then bs.discard file
          else bs

/-- `EvictOldFiles`, in the order in which the map is gone through. -/
def evictOldFiles (now : ℤ) (order : List BlobAddr) (bs : LocalBlobStore) : LocalBlobStore :=
  order.foldl (evictAt now) bs

end LocalBlobStore

/-! ## Use -/

/-- A blob store with the references its clients hold. -/
structure Usage where
  store : LocalBlobStore
  held : Multiset ℕ
  clock : ℤ
  /-- The times at which `EvictOldFiles` has run. -/
  evictions : List ℤ

/-- A call of the blob store, or the passing of time. -/
inductive Step (H : BlobHash) : Usage → Usage → Prop
  | readFile {u : Usage} {addr : BlobAddr} {id : ℕ} {bs : LocalBlobStore}
      (hrun : u.store.readFile addr = (some id, bs)) :
      Step H u { u with store := bs, held := id ::ₘ u.held }
  | readFileElsewhere {u : Usage} {addr : BlobAddr} {bs : LocalBlobStore}
      (hrun : u.store.readFile addr = (none, bs)) : Step H u { u with store := bs }
  | addReader {u : Usage} {data : Bytes} {written : ℤ} {id : ℕ} {bs : LocalBlobStore}
      (hrun : u.store.addReader H data written = (id, bs)) :
      Step H u { u with store := bs, held := id ::ₘ u.held }
  | addLocalFile {u : Usage} {data : Bytes} {written : ℤ} {id : ℕ} {bs : LocalBlobStore}
      (hrun : u.store.addLocalFile H data written = (id, bs)) :
      Step H u { u with store := bs, held := id ::ₘ u.held }
  | addDataBlock {u : Usage} {data : Bytes} {id : ℕ} {bs : LocalBlobStore}
      (hrun : u.store.addDataBlock H data u.clock = (id, bs)) :
      Step H u { u with store := bs, held := id ::ₘ u.held }
  | take {u : Usage} {id : ℕ} (hheld : id ∈ u.held) :
      Step H u { u with store := u.store.take id, held := id ::ₘ u.held }
  | release {u : Usage} {id : ℕ} {bs : LocalBlobStore} (hheld : id ∈ u.held)
      (hrun : u.store.release id u.clock = .ok bs) :
      Step H u { u with store := bs, held := u.held.erase id }
  | touch {u : Usage} {id : ℕ} {duration : ℤ} (hheld : id ∈ u.held) :
      Step H u { u with store := u.store.touch id u.clock duration }
  | evictOldFiles {u : Usage} {now : ℤ} {order : List BlobAddr} (hnow : now ≤ u.clock)
      (horder : (order : Multiset BlobAddr) = u.store.files.keys.val) :
      Step H u { u with
        store := u.store.evictOldFiles now order
        evictions := now :: u.evictions }
  | tick {u : Usage} {clock : ℤ} (hclock : u.clock ≤ clock) : Step H u { u with clock := clock }

/-- Every file of the disk is a blob at its own path. -/
structure Proper (H : BlobHash) (disk : Disk) : Prop where
  rooted : disk.Rooted
  path : ∀ path file, disk.files.lookup path = some file → path = blobToPath (H.sum file.data)

/-- A blob store that was just opened. -/
structure Opened (H : BlobHash) (u : Usage) : Prop where
  store : ∃ validateBlobs disk, ∃ order : List Path, Proper H disk ∧
    (order : Multiset Path) = disk.files.keys.val ∧
    LocalBlobStore.newLocalBlobStore H validateBlobs order disk = some u.store
  held : u.held = 0
  evictions : u.evictions = []

end BlobStore

end Grits
