import Grits.NameStore.MultiLink

/-!
# Calls that tell the watchers nothing

Watchers are told of a change in `recursiveLink` and nowhere else: every other
operation of the name store is `Mute`.
-/

namespace Grits

open Prog

variable {E : Env} {α : Type}

/-! ## Blobs and nodes -/

/-- The call tells the watchers nothing. -/
def Mute (m : Op α) : Prop := Leaves NameStore.notifications m

theorem mute_fail (e : GoErr) : Mute (fail e : Op α) := leaves_stop _

theorem mute_consult (answer : ℕ → α) : Mute (consult answer) := fun _ => rfl

theorem Mute.tryErr {m : Op α} (h : Mute m) : Mute (tryErr m) := by
  refine Leaves.catching (h.bind fun _ => leaves_pure _) fun halt => ?_
  cases halt with
  | err e => exact leaves_pure _
  | crash c => exact leaves_stop _
  | dangling a => exact leaves_stop _
  | outOfFuel => exact leaves_stop _

theorem mute_readFile (addr : BlobAddr) : Mute (readFile addr) := by
  refine leaves_get.bind fun s => ?_
  split
  · exact .bind (leaves_modify fun _ => rfl) fun _ => leaves_pure _
  · exact mute_fail _

theorem mute_readAll (addr : BlobAddr) : Mute (readAll addr) := by
  refine leaves_get.bind fun s => ?_
  split
  · exact leaves_pure _
  · exact leaves_stop _

theorem mute_releaseBlob (addr : BlobAddr) : Mute (releaseBlob E addr) := by
  refine leaves_get.bind fun s => ?_
  split
  next => exact leaves_stop _
  next =>
    simp only
    split
    next => exact leaves_stop _
    next =>
      split
      next => exact leaves_modify fun _ => rfl
      next =>
        refine (mute_consult _).bind fun now => ?_
        split
        · exact leaves_modify fun _ => rfl
        · exact leaves_modify fun _ => rfl

theorem mute_getNode (addr : BlobAddr) : Mute (getNode addr) := by
  refine leaves_get.bind fun s => ?_
  split
  · exact leaves_pure _
  · exact leaves_stop _

theorem mute_setNode (addr : BlobAddr) (node : FileNode) : Mute (setNode addr node) :=
  leaves_modify fun _ => rfl

theorem mute_takeNode (addr : BlobAddr) : Mute (takeNode addr) := by
  refine (mute_getNode addr).bind fun node => ?_
  split
  · exact leaves_stop _
  · exact mute_setNode _ _

theorem mute_releaseNode (addr : BlobAddr) : Mute (releaseNode E addr) := by
  refine (mute_getNode addr).bind fun node => (mute_setNode _ _).bind fun _ => ?_
  split
  next => exact leaves_stop _
  next =>
    split
    · exact (mute_consult _).bind fun now => leaves_modify fun _ => rfl
    · exact leaves_pure _

theorem mute_actuallyLoadFileNode (addr : BlobAddr) : Mute (actuallyLoadFileNode E addr) := by
  refine (mute_readFile addr).bind fun data => ?_
  split
  next => exact (mute_releaseBlob addr).bind fun _ => mute_fail _
  next metadata _ =>
    simp only
    split
    next =>
      cases metadata.type with
      | file => exact leaves_pure _
      | directory => exact leaves_pure _
      | other value => exact (mute_releaseBlob addr).bind fun _ => mute_fail _
    next =>
      refine .bind (.catching ((mute_readFile _).bind fun _ => leaves_pure _) fun halt => ?_)
        fun blob => ?_
      · cases halt with
        | err e => exact (mute_releaseBlob addr).bind fun _ => mute_fail _
        | crash c => exact leaves_stop _
        | dangling a => exact leaves_stop _
        | outOfFuel => exact leaves_stop _
      · cases metadata.type with
        | file => exact leaves_pure _
        | directory => exact leaves_pure _
        | other value => exact (mute_releaseBlob addr).bind fun _ => mute_fail _

theorem mute_loadFileNode (addr : BlobAddr) : Mute (loadFileNode E addr) := by
  refine leaves_get.bind fun s => ?_
  split
  · exact leaves_pure _
  · exact (mute_actuallyLoadFileNode addr).bind fun node => mute_setNode _ _

theorem mute_exportedBlob (addr : BlobAddr) : Mute (exportedBlob addr) := by
  refine (mute_getNode addr).bind fun node => ?_
  split
  · exact leaves_pure _
  · exact (mute_readFile _).bind fun _ => mute_setNode _ _

theorem mute_treeChildren (addr : BlobAddr) : Mute (treeChildren E addr) := by
  refine (mute_exportedBlob addr).bind fun _ => (mute_getNode addr).bind fun node => ?_
  split
  next => exact leaves_pure _
  next =>
    refine (mute_readAll _).bind fun data => ?_
    split
    next => exact mute_fail _
    next =>
      refine (mute_consult _).bind fun entries => (mute_setNode _ _).bind fun _ => ?_
      split
      · exact leaves_pure _
      · exact mute_fail _

theorem mute_startOfWalk (startNode : Option BlobAddr) : Mute (startOfWalk E startNode) := by
  cases startNode with
  | some addr => exact leaves_pure _
  | none => exact leaves_get.bind fun s => (mute_loadFileNode _).bind fun _ => leaves_pure _

theorem mute_resolveStep (walk : Walk) (part : GoString) : Mute (resolveStep E walk part) := by
  unfold resolveStep
  split
  next => exact leaves_pure _
  next =>
    simp only
    split
    next => exact leaves_pure _
    next current _ =>
      refine (mute_getNode current).bind fun node => ?_
      split
      next => exact leaves_pure _
      next =>
        refine (mute_treeChildren current).tryErr.bind fun result => ?_
        split
        next => exact leaves_pure _
        next =>
          split
          next => exact leaves_pure _
          next childAddr _ =>
            refine (mute_loadFileNode childAddr).tryErr.bind fun result => ?_
            split
            · exact leaves_pure _
            · exact (mute_getNode childAddr).bind fun _ => leaves_pure _

theorem mute_resolveFromLocal (path : GoString) (startNode : Option BlobAddr) :
    Mute (resolveFromLocal E path startNode) := by
  unfold resolveFromLocal
  simp only
  split
  next => exact mute_fail _
  next =>
    refine leaves_get.bind fun s => (mute_startOfWalk startNode).bind fun start =>
      (mute_takeNode start).bind fun _ => (mute_getNode start).bind fun node => ?_
    refine (Leaves.loop (fun walk part _ => mute_resolveStep walk part) _).bind fun walk => ?_
    exact (mute_releaseNode start).bind fun _ => leaves_pure _

theorem mute_runLookupCallbacks {callbacks : List LookupCallback}
    (h : ∀ callback ∈ callbacks, ∀ response request root, Mute (callback response request root))
    (request : LookupRequest) (root : Option BlobAddr) (response : LookupResponse) :
    Mute (runLookupCallbacks callbacks request root response) :=
  Leaves.loop (fun response callback hcallback => h callback hcallback response request root) _

/-! ## References -/

theorem mute_getFileNode (addr : BlobAddr) : Mute (getFileNode E addr) :=
  (mute_loadFileNode addr).bind fun _ => mute_takeNode addr

theorem mute_cleanupAt (addr : BlobAddr) : Mute (cleanupAt E addr) := by
  refine leaves_get.bind fun s => ?_
  split
  next => exact leaves_pure _
  next node _ =>
    split
    next => exact leaves_pure _
    next =>
      split
      next => exact leaves_stop _
      next =>
        refine (mute_releaseBlob addr).bind fun _ =>
          (mute_exportedBlob addr).tryErr.bind fun _ => ?_
        split
        · exact (mute_releaseBlob _).bind fun _ => leaves_modify fun _ => rfl
        · exact leaves_modify fun _ => rfl

theorem mute_cleanup : Mute (cleanup E) :=
  leaves_get.bind fun _ => (mute_consult _).bind fun _ =>
    Leaves.loop (fun _ addr _ => mute_cleanupAt addr) _

/-! ## Lookups -/

theorem Mute.releasing {m : Op α} (h : Mute m) (root : Option BlobAddr) :
    Mute (releasing E root m) := by
  refine h.tryErr.bind fun result => ?_
  cases root with
  | none =>
      cases result with
      | ok a => exact leaves_pure _
      | error e => exact mute_fail _
  | some addr =>
      refine (mute_releaseNode addr).bind fun _ => ?_
      cases result with
      | ok a => exact leaves_pure _
      | error e => exact mute_fail _

theorem mute_lookupStart (startAddr : BlobAddr) : Mute (lookupStart E startAddr) := by
  unfold lookupStart
  split
  next =>
    refine Leaves.catching ((mute_loadFileNode startAddr).bind fun _ => leaves_pure _)
      fun halt => ?_
    cases halt with
    | err e => exact mute_fail _
    | crash c => exact leaves_stop _
    | dangling a => exact leaves_stop _
    | outOfFuel => exact leaves_stop _
  next => exact leaves_pure _

theorem mute_callbackRoot (callbacks : List LookupCallback) : Mute (callbackRoot E callbacks) := by
  refine leaves_get.bind fun s => ?_
  split
  next => exact leaves_pure _
  next =>
    refine (mute_loadFileNode _).tryErr.bind fun result => ?_
    split
    · exact leaves_pure _
    · exact (mute_takeNode _).bind fun _ => leaves_pure _

/-- A lookup whose callbacks tell nothing tells nothing. -/
theorem mute_lookup {callbacks : List LookupCallback}
    (h : ∀ callback ∈ callbacks, ∀ response request root, Mute (callback response request root))
    (paths : List GoString) (startAddr : BlobAddr) (principal : PrincipalRef) :
    Mute (lookup E callbacks paths startAddr principal) := by
  refine leaves_get.bind fun s => (mute_lookupStart startAddr).bind fun start =>
    (mute_callbackRoot callbacks).bind fun root => Mute.releasing ?_ root
  refine (Leaves.loop (fun paths path _ => ?_) _).bind fun entries => ?_
  · exact (mute_resolveFromLocal _ _).bind fun _ => leaves_pure _
  · exact mute_runLookupCallbacks h _ _ _

/-! ## Assertions and responses -/

end Grits
