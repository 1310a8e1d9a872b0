import Grits.Library.Runs
import Mathlib.Logic.Function.Basic
import Mathlib.Algebra.Order.Group.Int

/-!
# The blob cache

`BlobCache.Get` of `internal/grits/blobcache.go`, with `fetchAndCache` and the cleanup
worker.  Between two acquisitions of the mutex a call is in one of the states of `Call`.
What the blob store has, what `fetchBlob` answers and in which order the cleanup visits
the entries is open.
-/

namespace Grits

namespace BlobGet

/-- What a `CachedFile` says of itself. -/
structure Blobs (Addr File : Type) where
  getAddress : File → Addr
  getSize : File → ℤ

/-- The sizes the cleanup works with; `targetSize` is 90% of `maxSize`. -/
structure Limits where
  maxSize : ℤ
  targetSize : ℤ

/-- What `Get` returns. -/
inductive Result (Addr File Err : Type) where
  | file (file : File)
  /-- `failed to fetch blob %s: %w` -/
  | failedToFetch (addr : Addr) (err : Err)

/-- How far a call of `Get` is.  A request in flight has the number of the call that
fetches. -/
inductive Call (Addr File Err : Type) where
  /-- Before `c.mutex.Lock()`. -/
  | called (addr : Addr)
  /-- It has the mutex, and looks the blob up. -/
  | locked (addr : Addr)
  /-- In `req.cond.Wait()`. -/
  | waiting (addr : Addr) (req : ℕ)
  /-- Signalled; `Wait` has to take the mutex again. -/
  | woken (addr : Addr) (req : ℕ)
  /-- It is back from `Wait`, with the mutex. -/
  | resumed (addr : Addr) (req : ℕ)
  /-- In the `Get` that it calls itself, before `c.mutex.Lock()`. -/
  | retrying (addr : Addr) (req : ℕ)
  /-- In `c.fetchBlob(addr)`. -/
  | fetching (addr : Addr)
  /-- It has the file, and is before `c.mutex.Lock()` of `fetchAndCache`. -/
  | fetched (addr : Addr) (file : File)
  /-- `fetchAndCache` has returned; it has to take the mutex again. -/
  | ended (addr : Addr) (result : Result Addr File Err)
  /-- It has the mutex, and only the deferred `c.mutex.Unlock()` is left. -/
  | returning (addr : Addr) (result : Result Addr File Err)
  | returned (addr : Addr) (result : Result Addr File Err)

/-- Who has taken a reference: a call for its caller, or the cache for an entry. -/
inductive Owner where
  | call (id : ℕ)
  | cache
  deriving DecidableEq

/-- How far `performCleanup` is. -/
inductive Cleaner (Addr File : Type) where
  | idle
  | cleaning
  | collected (entries : List (Addr × File))
  | releasing (toRemove : List File)

/-- The cache and the calls.  `results` has the `result` and `err` of the requests that
have been updated, and `refs` the references by owner: the `RefCount` of a file is their
sum and what others have taken. -/
structure Cache (Addr File Err : Type) where
  cachedBlobs : Addr → Option File
  currentSize : ℤ
  inFlight : Addr → Option ℕ
  results : ℕ → Option (Result Addr File Err)
  mutex : Option ℕ
  cleanupChan : Bool
  cleaner : Cleaner Addr File
  refs : File → Owner → ℕ
  calls : ℕ → Option (Call Addr File Err)

variable {Addr File Err : Type}

section CacheOps

variable (s : Cache Addr File Err)

/-- The cache after the call `id` went on to `call`. -/
def Cache.goOn (id : ℕ) (call : Call Addr File Err) : Cache Addr File Err :=
  { s with calls := Function.update s.calls id (some call) }

/-- What `req.cond.Broadcast()` does to a call. -/
def Call.wake (req : ℕ) : Call Addr File Err → Call Addr File Err
  | .waiting addr req' => if req' = req then .woken addr req' else .waiting addr req'
  | call => call

/-- `req.cond.Broadcast()` -/
def Cache.broadcast (req : ℕ) : Cache Addr File Err :=
  { s with calls := fun id => (s.calls id).map (Call.wake req) }

/-- `file.Take()` -/
def Cache.take [DecidableEq File] (file : File) (owner : Owner) : Cache Addr File Err :=
  { s with refs := fun other o =>
      if other = file ∧ o = owner then s.refs other o + 1 else s.refs other o }

/-- `file.Release()` -/
def Cache.release [DecidableEq File] (file : File) (owner : Owner) : Cache Addr File Err :=
  { s with refs := fun other o =>
      if other = file ∧ o = owner then s.refs other o - 1 else s.refs other o }

/-- `c.cachedBlobs[addr] = &CacheEntry{...}` -/
def Cache.putEntry [DecidableEq Addr] (addr : Addr) (file : File) : Cache Addr File Err :=
  { s with cachedBlobs := Function.update s.cachedBlobs addr (some file) }

/-- The loop of `performCleanup` over the entries. -/
def Cache.evict [DecidableEq Addr] (B : Blobs Addr File) (limits : Limits) :
    Cache Addr File Err → List (Addr × File) → List File → Cache Addr File Err
  | s, [], toRemove => { s with cleaner := .releasing toRemove }
  | s, (addr, file) :: entries, toRemove =>
      if s.currentSize ≤ limits.targetSize then { s with cleaner := .releasing toRemove }
      else
        Cache.evict B limits { s with
          cachedBlobs := Function.update s.cachedBlobs addr none
          currentSize := s.currentSize - B.getSize file } entries (toRemove ++ [file])

end CacheOps

variable [DecidableEq Addr] [DecidableEq File]

/-- The steps of the calls and of the cleanup worker. -/
inductive Step (B : Blobs Addr File) (limits : Limits) :
    Cache Addr File Err → Cache Addr File Err → Prop
  | call {s : Cache Addr File Err} {id : ℕ} {addr : Addr} (hidle : s.calls id = none) :
      Step B limits s (s.goOn id (.called addr))
  | lock {s : Cache Addr File Err} {id : ℕ} {addr : Addr}
      (hcall : s.calls id = some (.called addr)) (hfree : s.mutex = none) :
      Step B limits s ({ s with mutex := some id }.goOn id (.locked addr))
  | hit {s : Cache Addr File Err} {id : ℕ} {addr : Addr} {file : File}
      (hcall : s.calls id = some (.locked addr)) (hentry : s.cachedBlobs addr = some file) :
      Step B limits s ((s.take file (.call id)).goOn id (.returning addr (.file file)))
  /-- The blob store has the file. -/
  | readFile {s : Cache Addr File Err} {id : ℕ} {addr : Addr} {file : File}
      (hcall : s.calls id = some (.locked addr)) (hentry : s.cachedBlobs addr = none)
      (haddr : B.getAddress file = addr) :
      Step B limits s ((((s.take file .cache).putEntry addr file).take file (.call id)).goOn id
        (.returning addr (.file file)))
  | wait {s : Cache Addr File Err} {id req : ℕ} {addr : Addr}
      (hcall : s.calls id = some (.locked addr)) (hentry : s.cachedBlobs addr = none)
      (hreq : s.inFlight addr = some req) :
      Step B limits s ({ s with mutex := none }.goOn id (.waiting addr req))
  | fetch {s : Cache Addr File Err} {id : ℕ} {addr : Addr}
      (hcall : s.calls id = some (.locked addr)) (hentry : s.cachedBlobs addr = none)
      (hreq : s.inFlight addr = none) :
      Step B limits s ({ s with
        inFlight := Function.update s.inFlight addr (some id)
        mutex := none }.goOn id (.fetching addr))
  /-- `fetchBlob` has a file, with a reference; `fetchAndCache` takes one for the cache. -/
  | fetchDone {s : Cache Addr File Err} {id : ℕ} {addr : Addr} {file : File}
      (hcall : s.calls id = some (.fetching addr)) (haddr : B.getAddress file = addr) :
      Step B limits s (((s.take file (.call id)).take file .cache).goOn id (.fetched addr file))
  | fetchFailed {s : Cache Addr File Err} {id : ℕ} {addr : Addr} {err : Err}
      (hcall : s.calls id = some (.fetching addr)) :
      Step B limits s (s.goOn id (.ended addr (.failedToFetch addr err)))
  | store {s : Cache Addr File Err} {id : ℕ} {addr : Addr} {file : File}
      (hcall : s.calls id = some (.fetched addr file)) (hfree : s.mutex = none) :
      Step B limits s (({ s with
        currentSize := s.currentSize + B.getSize file
        cleanupChan := s.cleanupChan ||
          decide (limits.maxSize < s.currentSize + B.getSize file) }.putEntry addr file).goOn id
            (.ended addr (.file file)))
  | finish {s : Cache Addr File Err} {id : ℕ} {addr : Addr} {result : Result Addr File Err}
      (hcall : s.calls id = some (.ended addr result)) (hfree : s.mutex = none) :
      Step B limits s (({ s with
        mutex := some id
        results := Function.update s.results id (some result)
        inFlight := Function.update s.inFlight addr none }.broadcast id).goOn id
          (.returning addr result))
  | resume {s : Cache Addr File Err} {id req : ℕ} {addr : Addr}
      (hcall : s.calls id = some (.woken addr req)) (hfree : s.mutex = none) :
      Step B limits s ({ s with mutex := some id }.goOn id (.resumed addr req))
  | fail {s : Cache Addr File Err} {id req : ℕ} {addr addr' : Addr} {err : Err}
      (hcall : s.calls id = some (.resumed addr req))
      (herr : s.results req = some (.failedToFetch addr' err)) :
      Step B limits s (s.goOn id (.returning addr (.failedToFetch addr' err)))
  /-- `return c.Get(addr)`: the deferred `Unlock` of this call is not reached before. -/
  | retry {s : Cache Addr File Err} {id req : ℕ} {addr : Addr}
      (hcall : s.calls id = some (.resumed addr req))
      (herr : ∀ addr' err, s.results req ≠ some (.failedToFetch addr' err)) :
      Step B limits s (s.goOn id (.retrying addr req))
  | lockRetry {s : Cache Addr File Err} {id req : ℕ} {addr : Addr}
      (hcall : s.calls id = some (.retrying addr req)) (hfree : s.mutex = none) :
      Step B limits s ({ s with mutex := some id }.goOn id (.locked addr))
  | unlock {s : Cache Addr File Err} {id : ℕ} {addr : Addr} {result : Result Addr File Err}
      (hcall : s.calls id = some (.returning addr result)) :
      Step B limits s ({ s with mutex := none }.goOn id (.returned addr result))
  | cleanup {s : Cache Addr File Err} (hidle : s.cleaner = .idle) (hsent : s.cleanupChan = true) :
      Step B limits s { s with cleanupChan := false, cleaner := .cleaning }
  /-- The order is that of `lastAccessed`, which others may write while it sorts. -/
  | collect {s : Cache Addr File Err} {entries : List (Addr × File)}
      (hcleaner : s.cleaner = .cleaning) (hfree : s.mutex = none) (hnodup : entries.Nodup)
      (hentries : ∀ addr file, (addr, file) ∈ entries ↔ s.cachedBlobs addr = some file) :
      Step B limits s { s with cleaner := .collected entries }
  | evict {s : Cache Addr File Err} {entries : List (Addr × File)}
      (hcleaner : s.cleaner = .collected entries) (hfree : s.mutex = none) :
      Step B limits s (s.evict B limits entries [])
  | release {s : Cache Addr File Err} {file : File} {toRemove : List File}
      (hcleaner : s.cleaner = .releasing (file :: toRemove)) :
      Step B limits s { s.release file .cache with cleaner := .releasing toRemove }
  | cleaned {s : Cache Addr File Err} (hcleaner : s.cleaner = .releasing []) :
      Step B limits s { s with cleaner := .idle }

/-- `NewBlobCache`, with nobody calling. -/
structure Started (s : Cache Addr File Err) : Prop where
  cachedBlobs : ∀ addr, s.cachedBlobs addr = none
  inFlight : ∀ addr, s.inFlight addr = none
  results : ∀ req, s.results req = none
  mutex : s.mutex = none
  cleaner : s.cleaner = .idle
  refs : ∀ file id, s.refs file (.call id) = 0
  calls : ∀ id, s.calls id = none

end BlobGet

end Grits
