import Grits.NameStore.State

/-!
# The dense reference manager

`DenseRefManager` of `internal/grits/namestore.go`.  It counts, for every node
of the committed tree, one reference for each directory entry that names it and
one for being the root, and it recurses into a subtree only when the subtree is
referenced for the first or released for the last time.

The recursions follow the graph of blobs downwards, so `E.rank` bounds their
depth.
-/

namespace Grits

/-- The state of `recursiveTake`: the name store and the list `taken`, which
all levels of the recursion share. -/
structure TakeState where
  ns : NameStore
  taken : List BlobAddr

/-- An operation on the name store inside `recursiveTake`. -/
def onNameStore {α : Type} (m : Op α) : Prog TakeState Halt α :=
  Prog.zoom (·.ns) (fun ns t => { t with ns := ns }) m

/-- One round of the loop of `releaseTaken`. -/
def releaseTakenAt (E : Env) (addr : BlobAddr) : Op Unit := do
  let s ← Prog.get
  let count := (s.refCount.lookup addr).getD 0
  if count ≤ 1 then do
    Prog.modify fun s => { s with refCount := s.refCount.erase addr }
    match s.fileCache.lookup addr with
    | some _ => releaseNode E addr
    | none => pure ()
  else
    Prog.modify fun s => { s with refCount := s.refCount.insert addr (count - 1) }

/-- `DenseRefManager.releaseTaken`. -/
def releaseTaken (E : Env) : Prog TakeState Halt Unit := do
  let t ← Prog.get
  onNameStore (Prog.loop (fun _ addr => releaseTakenAt E addr) () t.taken)
  Prog.modify fun t => { t with taken := [] }

/-- Call `releaseTaken` before returning an error of `m`. -/
def undoing {α : Type} (E : Env) (m : Prog TakeState Halt α) : Prog TakeState Halt α :=
  Prog.catching m fun
    | .err e => do
        releaseTaken E
        Prog.stop (.err e)
    | halt => Prog.stop halt

/-- `rm.refCount[addr] = count` and the append to `taken`. -/
def countTaken (addr : BlobAddr) (count : ℤ) : Prog TakeState Halt Unit :=
  Prog.modify fun t =>
    { t with
      ns := { t.ns with refCount := t.ns.refCount.insert addr count }
      taken := t.taken ++ [addr] }

/-- `DenseRefManager.recursiveTake` of a node that is not nil. -/
def recursiveTakeFrom (E : Env) : ℕ → BlobAddr → Prog TakeState Halt Unit
  | 0, _ => Prog.stop .outOfFuel
  | fuel + 1, addr => do
      let t ← Prog.get
      match t.ns.refCount.lookup addr with
      | some count =>
          if count ≤ 0 then Prog.stop (.crash (.refCountNonpositive addr))
          else countTaken addr (count + 1)
      | none => do
          let children ← undoing E (onNameStore (nodeChildren E addr))
          let entries ← onNameStore (consult fun tick => E.childOrder tick (children.getD ∅))
          Prog.loop (fun _ entry => do
            undoing E (onNameStore (loadFileNode E entry.2))
            undoing E (recursiveTakeFrom E fuel entry.2)) () entries
          countTaken addr 1
          onNameStore (takeNode addr)

/-- `RefManager.recursiveTake` of the root of a tree; the sparse manager does
nothing. -/
def recursiveTake (E : Env) : Option BlobAddr → Op Unit
  | none => pure ()
  | some addr =>
      if E.sparse then pure ()
      else Prog.zoom (fun s => ⟨s, []⟩) (fun t _ => t.ns)
        (recursiveTakeFrom E (E.rank addr + 1) addr)

/-- `DenseRefManager.recursiveRelease` of a node that is not nil. -/
def recursiveReleaseFrom (E : Env) : ℕ → BlobAddr → Op Unit
  | 0, _ => Prog.stop .outOfFuel
  | fuel + 1, addr => do
      let s ← Prog.get
      match s.refCount.lookup addr with
      | none => Prog.stop (.crash (.releaseUntracked addr))
      | some count =>
          if count ≤ 0 then Prog.stop (.crash (.releaseUnreferenced addr))
          else if count = 1 then do
            let children ← nodeChildren E addr
            let entries ← consult fun tick => E.childOrder tick (children.getD ∅)
            Prog.loop (fun _ entry => do
              loadFileNode E entry.2
              recursiveReleaseFrom E fuel entry.2) () entries
            releaseNode E addr
            Prog.modify fun s => { s with refCount := s.refCount.erase addr }
          else
            Prog.modify fun s => { s with refCount := s.refCount.insert addr (count - 1) }

/-- `RefManager.recursiveRelease` of the root of a tree. -/
def recursiveRelease (E : Env) : Option BlobAddr → Op Unit
  | none => pure ()
  | some addr =>
      if E.sparse then pure ()
      else recursiveReleaseFrom E (E.rank addr + 1) addr

/-- `NameStore.GetFileNode`: the caller holds a reference to the node from here on. -/
def getFileNode (E : Env) (addr : BlobAddr) : Op Unit := do
  loadFileNode E addr
  takeNode addr

/-- One round of the loop of `DenseRefManager.cleanup`. -/
def cleanupAt (E : Env) (addr : BlobAddr) : Op Unit := do
  let s ← Prog.get
  match s.fileCache.lookup addr with
  | none => pure ()
  | some node =>
      if node.refCount ≠ 0 then pure ()
      else match s.refCount.lookup addr with
        | some _ => Prog.stop (.crash (.cleanupTracked addr))
        | none => do
            releaseBlob E addr
            match ← tryErr (exportedBlob addr) with
            | .ok _ => releaseBlob E node.metadata.contentHash
            | .error _ => pure ()
            Prog.modify fun s => { s with fileCache := s.fileCache.erase addr }

/-- `DenseRefManager.cleanup`. -/
def cleanup (E : Env) : Op Unit := do
  let s ← Prog.get
  let addrs ← consult fun tick => E.cacheOrder tick s.fileCache.keys
  Prog.loop (fun _ addr => cleanupAt E addr) () addrs

end Grits
