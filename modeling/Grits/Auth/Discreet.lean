import Grits.Auth.Links
import Grits.NameStore.Watchers

/-!
# The callbacks of the server tell the watchers nothing

`MakeLookupCallback` and `MakeLinkCallback` of `internal/gritsd/module_auth.go` read the
`access.json` files of the volume.  They are `Mute`, and so the hooks of a volume with access
control are `Discreet`, whoever watches it.
-/

namespace Grits

open Prog

variable {E : Env} {α : Type} (m : AuthModule)

theorem Mute.wrapErr {call : Op α} (h : Mute call) (text : GoString) :
    Mute (wrapErr text call) := by
  refine h.catching fun halt => ?_
  cases halt with
  | err e => exact mute_fail _
  | crash c => exact leaves_stop _
  | dangling a => exact leaves_stop _
  | outOfFuel => exact leaves_stop _

theorem Mute.fatalIfBlobMissing {call : Op α} (h : Mute call) :
    Mute (fatalIfBlobMissing call) := by
  refine h.catching fun halt => ?_
  cases halt with
  | err e =>
      simp only
      split
      · exact leaves_stop _
      · exact mute_fail _
  | crash c => exact leaves_stop _
  | dangling a => exact leaves_stop _
  | outOfFuel => exact leaves_stop _

theorem mute_readAndRelease (text : GoString) (node : BlobAddr) :
    Mute (readAndRelease E text node) :=
  Mute.releasing (.bind ((mute_exportedBlob node).fatalIfBlobMissing.wrapErr text) fun _ =>
    (mute_getNode node).bind fun _ => mute_readAll _) _

theorem mute_parseAccessConfig (dirPath : GoString) (data : Bytes) :
    Mute (parseAccessConfig m dirPath data) := by
  unfold parseAccessConfig
  split
  · exact mute_fail _
  · exact leaves_pure _

theorem mute_readAccessConfigFromRoot (rootNode : BlobAddr) (dirPath : GoString) :
    Mute (readAccessConfigFromRoot m E rootNode dirPath) := by
  refine ((mute_resolveFromLocal _ _).fatalIfBlobMissing.wrapErr _).bind fun resp => ?_
  split
  next => exact leaves_pure _
  next leaf _ =>
    split
    next => exact leaves_pure _
    next =>
      refine ((mute_getFileNode _).fatalIfBlobMissing.wrapErr _).bind fun _ => ?_
      exact (mute_readAndRelease _ _).bind fun data => mute_parseAccessConfig m dirPath data

theorem mute_lookupNode (path : GoString) (principal : PrincipalRef) :
    Mute (lookupNode E [] path principal) := by
  refine (mute_lookup (by intro callback h; cases h) _ _ _).bind fun resp => ?_
  split
  next => exact mute_fail _
  next leaf _ =>
    split
    · exact mute_fail _
    · exact mute_fail _
    · exact mute_fail _
    · split
      · exact mute_fail _
      · exact (mute_getFileNode _).bind fun _ => leaves_pure _

theorem mute_readAccessConfigAtRoot (rootNode : Option BlobAddr) (dirPath : GoString) :
    Mute (readAccessConfigAtRoot m E rootNode dirPath) := by
  cases rootNode with
  | some rootNode => exact mute_readAccessConfigFromRoot m rootNode dirPath
  | none =>
      have hread : Mute (readVolumeFile E (accessPath dirPath)) :=
        ((mute_lookupNode _ _).fatalIfBlobMissing.wrapErr _).bind fun _ => mute_readAndRelease _ _
      refine hread.tryErr.bind fun result => ?_
      split
      · split
        · exact leaves_pure _
        · exact mute_fail _
      · exact mute_parseAccessConfig m dirPath _

theorem mute_matchingGrants (rootNode : Option BlobAddr) (principal : Principal)
    (dirPath : GoString) : Mute (matchingGrants m E rootNode principal dirPath) := by
  refine (mute_readAccessConfigAtRoot m rootNode dirPath).tryErr.bind fun result => ?_
  split
  · exact leaves_pure _
  · exact leaves_pure _
  · exact leaves_pure _

theorem mute_collectGrants (rootNode : Option BlobAddr) (principal : Principal)
    (segments : List GoString) (acc : GoString) (buckets : Buckets) :
    Mute (collectGrants m E rootNode principal segments acc buckets) := by
  induction segments generalizing acc buckets with
  | nil => exact leaves_pure _
  | cons seg rest ih =>
      rw [collectGrants]
      split
      · exact ih _ _
      · exact (mute_matchingGrants m _ _ _).bind fun grants => ih _ _

theorem mute_hasPermissionAtRoot (rootNode : Option BlobAddr) (path : GoString)
    (principal : PrincipalRef) (required : Permission) :
    Mute (hasPermissionAtRoot m E rootNode path principal required) := by
  cases principal with
  | backend => exact leaves_pure _
  | of principal =>
      refine Leaves.bind ?_ fun _ => leaves_pure _
      refine (mute_collectGrants m _ _ _ _ _).bind fun buckets => ?_
      exact (mute_matchingGrants m _ _ _).bind fun _ => leaves_pure _

theorem makeLookupCallback_mute (response : LookupResponse) (request : LookupRequest)
    (root : Option BlobAddr) : Mute (makeLookupCallback m E response request root) := by
  refine (Leaves.loop (fun result pair _ => ?_) _).bind fun _ => leaves_pure _
  refine (mute_hasPermissionAtRoot m _ _ _ _).bind fun allowed => ?_
  split
  · exact leaves_pure _
  · exact leaves_pure _

theorem mute_existsAtRoot (path : GoString) (root : Option BlobAddr) :
    Mute (existsAtRoot E path root) := by
  cases root with
  | none => exact leaves_pure _
  | some root =>
      refine (mute_resolveFromLocal _ _).tryErr.bind fun result => ?_
      split
      · exact leaves_pure _
      · exact leaves_pure _

theorem makeLinkCallback_mute (oldRoot newRoot : Option BlobAddr) (requests : List LinkRequest)
    (principal : PrincipalRef) :
    Mute (makeLinkCallback m E oldRoot newRoot requests principal) := by
  refine Leaves.loop (fun _ request _ => ?_) _
  refine (mute_hasPermissionAtRoot m _ _ _ _).bind fun allowed => ?_
  split
  next => exact leaves_pure _
  next =>
    refine (mute_hasPermissionAtRoot m _ _ _ _).bind fun allowed => ?_
    split
    next =>
      refine (mute_existsAtRoot _ _).bind fun found => ?_
      split
      · exact mute_fail _
      · exact leaves_pure _
    next => exact mute_fail _

/-- The hooks of a volume with access control, whoever watches it. -/
def volumeHooks (m : AuthModule) (E : Env) (watchers : List Watcher) : Hooks :=
  ⟨watchers, [makeLookupCallback m E], [makeLinkCallback m E]⟩

/-- The hooks of the server are discreet: `watchers_told` applies to its volumes. -/
theorem volumeHooks_discreet (hdense : E.sparse = false) (watchers : List Watcher) :
    (volumeHooks m E watchers).Discreet E.toEncoding where
  lookupCallbacks := by
    intro callback hcallback
    rw [volumeHooks, List.mem_singleton] at hcallback
    rw [hcallback]
    exact makeLookupCallback_readOnly m hdense
  linkCallbacks := by
    intro callback hcallback
    rw [volumeHooks, List.mem_singleton] at hcallback
    rw [hcallback]
    exact makeLinkCallback_readOnly m hdense
  muteLink := by
    intro callback hcallback
    rw [volumeHooks, List.mem_singleton] at hcallback
    rw [hcallback]
    exact makeLinkCallback_mute m
  muteLookup := by
    intro callback hcallback
    rw [volumeHooks, List.mem_singleton] at hcallback
    rw [hcallback]
    exact makeLookupCallback_mute m

end Grits
