import Grits.Auth.Policy
import Grits.NameStore.Invariant

/-!
# The permissions of a tree

In a loaded tree `resolvePermissionAtRoot` changes nothing and returns the
permission of the tree's policy: the grants of its `access.json` files.
-/

namespace Grits

open Prog SlashPath

namespace Encoding

variable (E : Encoding)

open Classical in
/-- The bytes of the content of the node that `addr` names. -/
noncomputable def contentOf (addr : BlobAddr) : Option Bytes :=
  if h : ∃ data metadata, E.MetadataAt addr metadata ∧ E.sum data = metadata.contentHash then
    some h.choose
  else none

/-- The bytes of the `access.json` of a directory. -/
noncomputable def accessContent (root : BlobAddr) (dir : List GoString) : Option Bytes :=
  (E.walk (some root) (dir ++ [gritsDir, "access.json".toList])).bind E.contentOf

variable {E}

theorem contentOf_eq {addr : BlobAddr} {metadata : GNodeMetadata} {data : Bytes}
    (hmetadata : E.MetadataAt addr metadata) (hsum : E.sum data = metadata.contentHash) :
    E.contentOf addr = some data := by
  have hex : ∃ data metadata, E.MetadataAt addr metadata ∧ E.sum data = metadata.contentHash :=
    ⟨data, metadata, hmetadata, hsum⟩
  rw [contentOf, dif_pos hex]
  obtain ⟨metadata', hmetadata', hsum'⟩ := hex.choose_spec
  rw [← hmetadata.unique hmetadata', ← hsum] at hsum'
  rw [E.sum_injective hsum']

end Encoding

/-- The grants of the `access.json` with these bytes. -/
def AuthModule.grantsIn (m : AuthModule) (data : Option Bytes) : List Grant :=
  match data.bind m.unmarshalAccess with
  | some cfg => (m.resolveOrigins cfg).allow
  | none => []

/-- The grants at the directories of a tree. -/
noncomputable def AuthModule.policyAt (m : AuthModule) (E : Encoding) (root : BlobAddr) : Policy :=
  fun dir => m.grantsIn (E.accessContent root dir)

/-- The path resolves to nothing in the tree at `root`. -/
def Encoding.Absent (E : Encoding) (root : BlobAddr) (path : GoString) : Prop :=
  isRooted (trimRight path) = true ∨ E.walk (some root) (components path) = none

/-- What the link callback asks of a request, for the policy of the tree at `root`. -/
def Policy.MayLink (policy : Policy) (E : Encoding) (root : BlobAddr) (principal : PrincipalRef)
    (request : LinkRequest) : Prop :=
  policy.permitted principal (trimRight request.path) .readWrite = true ∨
    policy.permitted principal (parentPath (trimRight request.path)) .insert = true ∧
      E.Absent root request.path

/-! ## Paths of `access.json` files -/

theorem components_accessName :
    components ".grits/access.json".toList = [gritsDir, "access.json".toList] := by decide

theorem accessPath_eq {dirPath : GoString} (h : dirPath ≠ []) :
    accessPath dirPath = dirPath ++ '/' :: ".grits/access.json".toList := by
  rw [accessPath, if_neg h]
  rfl

theorem components_accessPath (dirPath : GoString) :
    components (accessPath dirPath) = components dirPath ++ [gritsDir, "access.json".toList] := by
  by_cases h : dirPath = []
  · rw [accessPath, if_pos h, h, components_accessName]
    rfl
  · rw [accessPath_eq h, components_append, components_accessName]

theorem isRooted_accessPath {dirPath : GoString} (h : isRooted dirPath = false) :
    isRooted (trimRight (accessPath dirPath)) = false := by
  refine isRooted_trimRight ?_
  by_cases hnil : dirPath = []
  · rw [accessPath, if_pos hnil]
    rfl
  · rw [accessPath_eq hnil, isRooted_append hnil, h]

/-! ## Reading in a loaded tree -/

variable {E : Env} {held : Multiset BlobAddr} {s t : NameStore} {m : AuthModule}

theorem wrapErr_run {α : Type} {call : Op α} {a : α} (text : GoString)
    (h : call s = (.ok a, t)) : wrapErr text call s = (.ok a, t) := catching_run h

theorem fatalIfBlobMissing_run {α : Type} {call : Op α} {a : α} (h : call s = (.ok a, t)) :
    fatalIfBlobMissing call s = (.ok a, t) := catching_run h

theorem releasing_run {α : Type} {root : BlobAddr} {call : Op α} {a : α} {u : NameStore}
    (hcall : call s = (.ok a, t)) (hrelease : releaseNode E root t = (.ok (), u)) :
    releasing E (some root) call s = (.ok a, u) := by
  rw [releasing, bind_run (tryErr_run hcall)]
  exact (bind_run hrelease).trans rfl

theorem releasing_run_error {α : Type} {root : BlobAddr} {call : Op α} {e : GoErr}
    {u : NameStore} (hcall : call s = (.error (.err e), t))
    (hrelease : releaseNode E root t = (.ok (), u)) :
    releasing E (some root) call s = (.error (.err e), u) := by
  rw [releasing, bind_run (tryErr_run_error hcall)]
  exact (bind_run hrelease).trans rfl

/-- The state while a cached node is held once more. -/
def holding (s : NameStore) (addr : BlobAddr) (node : FileNode) : NameStore :=
  { s with fileCache := s.fileCache.insert addr { node with refCount := node.refCount + 1 } }

theorem holding_lookup (s : NameStore) (addr : BlobAddr) (node : FileNode) :
    (holding s addr node).fileCache.lookup addr =
      some { node with refCount := node.refCount + 1 } := Finmap.lookup_insert _

/-- A loaded node can be held, and let go of again. -/
theorem holding_spec (hs : Sound E.toEncoding held s) (hdense : E.sparse = false) {addr : BlobAddr}
    {node : FileNode} (hnode : s.fileCache.lookup addr = some node) :
    takeNode addr s = (.ok (), holding s addr node) ∧
      Sound E.toEncoding held (holding s addr node) ∧
      Quiet (Pi.single addr 1) s (holding s addr node) ∧
      releaseNode E addr (holding s addr node) = (.ok (), s) := by
  have hcount := (hs.nodes addr node hnode).refCount
  have htake : takeNode addr s = (.ok (), holding s addr node) := takeNode_run hnode hcount
  have hspec := takeNode_spec hs ⟨node, hnode⟩
  rw [wp, htake] at hspec
  refine ⟨htake, hspec.1, hspec.2, ?_⟩
  have hpos : 0 < node.refCount + 1 := by omega
  rw [releaseNode_run hdense (holding_lookup s addr node) hpos, holding, Finmap.insert_insert]
  simp only [add_sub_cancel_right]
  rw [insert_lookup_self hnode]

theorem getFileNode_held (hs : Sound E.toEncoding held s) (hdense : E.sparse = false)
    {addr : BlobAddr} {node : FileNode} (hnode : s.fileCache.lookup addr = some node) :
    getFileNode E addr s = (.ok (), holding s addr node) := by
  rw [getFileNode, bind_run (loadFileNode_cached ⟨node, hnode⟩), (holding_spec hs hdense hnode).1]

/-- Reading the content of a cached node leaves the state as it was. -/
theorem readNode_held (hs : Sound E.toEncoding held s) (hdense : E.sparse = false)
    {addr : BlobAddr} (hcached : Cached s addr) :
    ∃ data u, E.contentOf addr = some data ∧ getFileNode E addr s = (.ok (), u) ∧
      ∀ text, readAndRelease E text addr u = (.ok data, s) := by
  obtain ⟨node, hnode⟩ := id hcached
  obtain ⟨-, hu, -, hrelease⟩ := holding_spec hs hdense hnode
  obtain ⟨file, hfile⟩ := hs.exists_content hnode
  refine ⟨file.data, holding s addr node, ?_, getFileNode_held hs hdense hnode, ?_⟩
  · exact Encoding.contentOf_eq (hs.nodes addr node hnode).metadata (hs.hashed _ file hfile)
  · intro text
    refine releasing_run (t := holding s addr node) ?_ hrelease
    have hexport : exportedBlob addr (holding s addr node) = (.ok (), holding s addr node) :=
      exportedBlob_cached hu ⟨_, holding_lookup s addr node⟩
    rw [bind_run (wrapErr_run text (fatalIfBlobMissing_run hexport)),
      bind_run (getNode_run (holding_lookup s addr node))]
    exact readAll_run hfile

section HeldTree

variable (hs : Sound E.toEncoding held s) (hdense : E.sparse = false) {root : BlobAddr}
  (hheld : HeldTree E.toEncoding s root)

include hs hdense hheld

/-- What the resolver finds at a path of a loaded tree. -/
theorem lookupFromRoot_held {path : GoString} (hrel : isRooted (trimRight path) = false) :
    ∃ response, resolveFromLocal E path (some root) s = (.ok response, s) ∧
      ∃ leaf, response.leaf = some leaf ∧
        match E.walk (some root) (components path) with
        | some addr => leaf.error = none ∧ leaf.addr = addr ∧ Cached s addr
        | none => leaf.error ≠ none := by
  have hrun : resolveFromLocal E path (some root) s = _ :=
    resolveFromLocal_held hs hdense hheld rfl hrel
  have hcurrent := Encoding.resolve_current (E := E.toEncoding) root path
  rw [components_trimRight] at hcurrent
  obtain ⟨above, leaf, hpaths, -, hleaf⟩ := Encoding.leads_resolve (E := E.toEncoding) root path
  refine ⟨_, hrun, leaf, ?_, ?_⟩
  · rw [LookupResponse.leaf, hpaths, List.getLast?_concat]
  · rw [← hcurrent]
    cases haddr : (E.resolve root path).current with
    | none =>
        simp only [haddr] at hleaf
        obtain ⟨error, rfl⟩ := hleaf
        exact Option.some_ne_none error
    | some addr =>
        simp only [haddr] at hleaf
        rw [haddr] at hcurrent
        have hcached := (hheld _ addr hcurrent.symm).cached
        obtain ⟨node, hnode⟩ := id hcached
        rw [(hs.nodes addr node hnode).metadata.entryAt] at hleaf
        subst hleaf
        exact ⟨rfl, rfl, hcached⟩

/-- Reading the `access.json` of a directory of a loaded tree. -/
theorem readAccessConfigFromRoot_held {dirPath : GoString} (hrel : isRooted dirPath = false) :
    ∃ result, tryErr (readAccessConfigFromRoot m E root dirPath) s = (.ok result, s) ∧
      (match result with
        | .ok (some cfg) => cfg.allow
        | .ok none => []
        | .error _ => []) = m.policyAt E.toEncoding root (components dirPath) := by
  obtain ⟨response, hrun, leaf, hleaf, hfound⟩ :=
    lookupFromRoot_held hs hdense hheld (isRooted_accessPath hrel)
  rw [components_accessPath] at hfound
  have hlookup := wrapErr_run ("reading ".toList ++ accessPath dirPath)
    (fatalIfBlobMissing_run hrun)
  rw [AuthModule.policyAt, Encoding.accessContent]
  cases hwalk : E.walk (some root) (components dirPath ++ [gritsDir, "access.json".toList]) with
  | none =>
      rw [hwalk] at hfound
      refine ⟨.ok none, tryErr_run ?_, rfl⟩
      rw [readAccessConfigFromRoot, bind_run hlookup, hleaf]
      simp only
      rw [if_pos hfound]
      rfl
  | some addr =>
      rw [hwalk] at hfound
      obtain ⟨herror, rfl, hcached⟩ := hfound
      obtain ⟨data, u, hcontent, hget, hread⟩ := readNode_held hs hdense hcached
      have hgot := wrapErr_run ("loading node for ".toList ++ accessPath dirPath)
        (fatalIfBlobMissing_run hget)
      have hparse : readAccessConfigFromRoot m E root dirPath s =
          parseAccessConfig m dirPath data s := by
        rw [readAccessConfigFromRoot, bind_run hlookup, hleaf]
        simp only
        rw [if_neg (not_not.mpr herror), bind_run hgot, bind_run (hread _)]
      rw [Option.bind_some, hcontent, AuthModule.grantsIn, Option.bind_some]
      cases hcfg : m.unmarshalAccess data with
      | none =>
          rw [parseAccessConfig, hcfg] at hparse
          exact ⟨.error (.message ("parsing ".toList ++ accessPath dirPath)),
            tryErr_run_error hparse, rfl⟩
      | some cfg =>
          refine ⟨.ok (some (m.resolveOrigins cfg)), tryErr_run ?_, rfl⟩
          rw [hparse, parseAccessConfig, hcfg]
          rfl

theorem matchingGrants_held (principal : Principal) {dirPath : GoString}
    (hrel : isRooted dirPath = false) :
    matchingGrants m E (some root) principal dirPath s =
      (.ok ((m.policyAt E.toEncoding root).matching principal (components dirPath)), s) := by
  obtain ⟨result, hrun, hresult⟩ := readAccessConfigFromRoot_held (m := m) hs hdense hheld hrel
  rw [Policy.matching, ← hresult, matchingGrants, readAccessConfigAtRoot, bind_run hrun]
  rcases result with e | _ | cfg
  · rfl
  · rfl
  · rfl

theorem collectGrants_held (principal : Principal) {segments dir : List GoString}
    (hsegments : ∀ seg ∈ segments, '/' ∉ seg) (hdir : Names dir) (buckets : Buckets) :
    collectGrants m E (some root) principal segments (join dir) buckets s =
      (.ok ((m.policyAt E.toEncoding root).collect principal segments dir buckets), s) := by
  induction segments generalizing dir buckets with
  | nil => rfl
  | cons seg rest ih =>
      have hrest : ∀ seg ∈ rest, '/' ∉ seg := fun other hother =>
        hsegments other (List.mem_cons_of_mem _ hother)
      rw [collectGrants, Policy.collect]
      by_cases hseg : seg = []
      · rw [if_pos hseg, if_pos hseg]
        exact ih hrest hdir buckets
      · rw [if_neg hseg, if_neg hseg]
        have hnames : Names (dir ++ [seg]) := hdir.concat hseg (hsegments seg List.mem_cons_self)
        simp only [join_extend hdir]
        rw [bind_run (matchingGrants_held hs hdense hheld principal (isRooted_join hnames)),
          components_join hnames]
        exact ih hrest hnames _

/-- In a loaded tree the effective permission is that of the tree's policy. -/
theorem resolvePermissionAtRoot_held (path : GoString) (principal : Principal) :
    resolvePermissionAtRoot m E (some root) path principal s =
      (.ok ((m.policyAt E.toEncoding root).effective principal path), s) := by
  have hsegments : ∀ seg ∈ split (trimRight path), '/' ∉ seg :=
    fun _ => slash_notMem_of_mem_split
  have hcollect := collectGrants_held (m := m) hs hdense hheld principal hsegments names_nil
    ⟨[], [], []⟩
  have hrel : isRooted [] = false := rfl
  have hroot := matchingGrants_held (m := m) hs hdense hheld principal hrel
  rw [join_nil] at hcollect
  unfold resolvePermissionAtRoot Policy.effective
  rw [bind_run hcollect, bind_run hroot]
  rfl

theorem hasPermissionAtRoot_held (path : GoString) (principal : PrincipalRef)
    (required : Permission) : hasPermissionAtRoot m E (some root) path principal required s =
      (.ok ((m.policyAt E.toEncoding root).permitted principal path required), s) := by
  cases principal with
  | backend => rfl
  | of principal =>
      rw [hasPermissionAtRoot, bind_run (resolvePermissionAtRoot_held hs hdense hheld path principal)]
      rfl

theorem existsAtRoot_held (path : GoString) : existsAtRoot E path (some root) s =
    (.ok (decide (isRooted (trimRight path) = false ∧
      (E.walk (some root) (components path)).isSome)), s) := by
  cases hrel : isRooted (trimRight path) with
  | true =>
      have hrun : tryErr (resolveFromLocal E path (some root)) s =
          (.ok (.error (.message "paths must be relative".toList)), s) :=
        tryErr_run_error (resolveFromLocal_rooted hrel)
      rw [existsAtRoot, bind_run hrun]
      simp
  | false =>
      obtain ⟨response, hrun, leaf, hleaf, hfound⟩ := lookupFromRoot_held hs hdense hheld hrel
      rw [existsAtRoot, bind_run (tryErr_run hrun)]
      simp only [hleaf, Option.any_some, true_and, pure_run]
      cases hwalk : E.walk (some root) (components path) with
      | none =>
          rw [hwalk] at hfound
          simpa [Option.isSome_iff_ne_none] using hfound
      | some addr =>
          rw [hwalk] at hfound
          simp [hfound.1]

/-! ### The callbacks -/

theorem makeLookupCallback_held (response : LookupResponse) (request : LookupRequest) :
    makeLookupCallback m E response request (some root) s =
      (.ok ⟨response.paths.map ((m.policyAt E.toEncoding root).prune request.principal),
        response.serialNumber⟩, s) := by
  have hloop : loop (pruneStep m E (some root) request.principal) [] response.paths s =
      (.ok (response.paths.map ((m.policyAt E.toEncoding root).prune request.principal)), s) := by
    rw [loop_eq_foldl (I := fun _ => True) (f := fun result pair =>
      result ++ [(m.policyAt E.toEncoding root).prune request.principal pair]) ?_
      (fun _ _ _ => trivial) trivial]
    · rw [List.foldl_append_eq_append, List.nil_append]
      rw [← List.flatMap_def, ← List.map_eq_flatMap]
    · intro result pair _
      unfold pruneStep Policy.prune
      rw [bind_run (hasPermissionAtRoot_held hs hdense hheld pair.path request.principal .read)]
      split <;> rfl
  unfold makeLookupCallback
  rw [bind_run hloop]
  rfl

/-- The link callback lets a request pass if its path may be written, or if it is
new and may be inserted. -/
theorem checkLink_held (principal : PrincipalRef) (request : LinkRequest) :
    ((m.policyAt E.toEncoding root).MayLink E.toEncoding root principal request →
      checkLink m E (some root) principal request s = (.ok (), s)) ∧
    (¬ (m.policyAt E.toEncoding root).MayLink E.toEncoding root principal request →
      checkLink m E (some root) principal request s =
        (.error (.err (.accessDenied (trimRight request.path))), s)) := by
  have hwrites := hasPermissionAtRoot_held (m := m) hs hdense hheld (trimRight request.path)
    principal .readWrite
  have hinserts := hasPermissionAtRoot_held (m := m) hs hdense hheld
    (parentPath (trimRight request.path)) principal .insert
  have hexists := existsAtRoot_held hs hdense hheld (trimRight request.path)
  rw [trimRight_trimRight, components_trimRight] at hexists
  unfold checkLink Policy.MayLink Encoding.Absent
  rw [bind_run hwrites]
  cases (m.policyAt E.toEncoding root).permitted principal (trimRight request.path) .readWrite with
  | true => exact ⟨fun _ => rfl, fun h => absurd (.inl rfl) h⟩
  | false =>
      rw [if_neg (by simp), bind_run hinserts]
      cases (m.policyAt E.toEncoding root).permitted principal
          (parentPath (trimRight request.path)) .insert with
      | false =>
          refine ⟨fun h => ?_, fun _ => rfl⟩
          simp at h
      | true =>
          rw [if_pos rfl, bind_run hexists]
          cases isRooted (trimRight request.path) with
          | true => exact ⟨fun _ => rfl, fun h => absurd (.inr ⟨rfl, .inl rfl⟩) h⟩
          | false =>
              cases E.walk (some root) (components request.path) with
              | none => exact ⟨fun _ => rfl, fun h => absurd (.inr ⟨rfl, .inr rfl⟩) h⟩
              | some addr =>
                  refine ⟨fun h => ?_, fun _ => rfl⟩
                  simp at h

theorem makeLinkCallback_held (newRoot : Option BlobAddr) (principal : PrincipalRef)
    (requests : List LinkRequest) :
    ((∀ request ∈ requests,
        (m.policyAt E.toEncoding root).MayLink E.toEncoding root principal request) →
      makeLinkCallback m E (some root) newRoot requests principal s = (.ok (), s)) ∧
    ((makeLinkCallback m E (some root) newRoot requests principal s).1 = .ok () →
      ∀ request ∈ requests,
        (m.policyAt E.toEncoding root).MayLink E.toEncoding root principal request) := by
  unfold makeLinkCallback
  induction requests with
  | nil => exact ⟨fun _ => rfl, fun _ _ h => absurd h List.not_mem_nil⟩
  | cons request rest ih =>
      obtain ⟨hallowed, hdenied⟩ := checkLink_held (m := m) hs hdense hheld principal request
      rw [loop_cons]
      constructor
      · intro hall
        rw [bind_run (hallowed (hall request List.mem_cons_self))]
        exact ih.1 fun other hother => hall other (List.mem_cons_of_mem _ hother)
      · intro hok
        by_cases hrequest :
            (m.policyAt E.toEncoding root).MayLink E.toEncoding root principal request
        · rw [bind_run (hallowed hrequest)] at hok
          intro other hother
          rcases List.mem_cons.mp hother with rfl | hother
          · exact hrequest
          · exact ih.2 hok other hother
        · rw [bind_run_error (hdenied hrequest)] at hok
          cases hok

end HeldTree

end Grits
