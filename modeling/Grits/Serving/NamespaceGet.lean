import Grits.Auth.Lookups
import Grits.Auth.ReadOnly
import Grits.NameStore.Volume

/-!
# Serving a path

`handleNamespaceGet` of `internal/gritsd/module_http.go`, with the references to nodes
that it takes and gives back.
-/

namespace Grits

open Prog SlashPath FirstByKey

namespace Serving

/-! ## The handler -/

/-- `IsAccessDenied` -/
def isAccessDenied : GoErr → Bool
  | .accessDenied _ => true
  | .wrapped _ cause => isAccessDenied cause
  | _ => false

/-- What the handler reads of a request. -/
structure GetRequest where
  /-- The method is `HEAD`. -/
  isHead : Bool
  /-- `r.URL.Path` -/
  urlPath : GoString
  accept : GoString
  ifNoneMatch : GoString
  principal : PrincipalRef
  /-- The file of the blob can be opened. -/
  opens : Bool

inductive GetReply where
  /-- 404 -/
  | notFound
  /-- 403 -/
  | accessDenied
  /-- 500, with the error in its text. -/
  | internal (e : GoErr)
  /-- 500, "Can't read content" or "Can't read blob". -/
  | unreadable (path : GoString)
  /-- 302 -/
  | redirect (location : GoString)
  /-- 304 -/
  | notModified (etag : GoString)
  /-- 200 without a body. -/
  | headers (etag : GoString)
  /-- What `http.ServeContent` makes of the blob, under the name of the path. -/
  | content (etag : GoString) (blob : BlobAddr) (path : GoString)
  deriving DecidableEq

/-- `indexPath` -/
def indexPath (path : GoString) : GoString := trimRight path ++ "/index.html".toList

/-- The header asks for JSON. -/
def GetRequest.wantsJson (r : GetRequest) : Bool := decide ("application/json".toList <:+: r.accept)

/-- `volume.FatalIfBlobMissing` -/
def fatalOr {α : Type} (e : GoErr) (go : Op α) : Op α :=
  match isBlobMissing e with
  | some addr => Prog.stop (.crash (.blobMissing addr))
  | none => go

/-- What follows once `leafNode` is the node to serve. -/
def serveNode (r : GetRequest) (path : GoString) (leafNode : BlobAddr) : Op GetReply := do
  let etag := ['"'] ++ leafNode ++ ['"']
  if r.ifNoneMatch ≠ [] ∧ r.ifNoneMatch = etag then pure (.notModified etag)
  else if r.isHead then pure (.headers etag)
  else do
    match ← tryErr (exportedBlob leafNode) with
    | .error e => fatalOr e (pure (.unreadable path))
    | .ok _ => do
        let node ← getNode leafNode
        if r.opens then pure (.content etag node.metadata.contentHash path)
        else pure (.unreadable path)

/-- `handleNamespaceGet`.  The deferred `Release` is that of the node the path names:
`leafNode` was evaluated when the call was deferred. -/
def handleNamespaceGet (E : Env) (callbacks : List LookupCallback) (path : GoString)
    (r : GetRequest) : Op GetReply := do
  match ← tryErr (lookupNode E callbacks path r.principal) with
  | .error e =>
      if isNotExist e then pure .notFound
      else if isAccessDenied e then pure .accessDenied
      else fatalOr e (pure (.internal e))
  | .ok leafNode =>
      releasing E (some leafNode) do
        let node ← getNode leafNode
        if node.metadata.type = .directory ∧ ¬ r.wantsJson then do
          match ← tryErr (lookupNode E callbacks (indexPath path) r.principal) with
          | .error _ => pure .notFound
          | .ok indexNode =>
              if ¬ ['/'] <:+ r.urlPath then pure (.redirect (r.urlPath ++ ['/']))
              else serveNode r (indexPath path) indexNode
        else serveNode r path leafNode

/-! ## What a path leads to -/

/-- The lookup callbacks of a volume: that of the auth module, if there is one. -/
def lookupCallbacks (E : Env) (auth : Option AuthModule) : List LookupCallback :=
  auth.toList.map fun m => makeLookupCallback m E

/-- What the callbacks leave of an entry. -/
noncomputable def pruned (E : Encoding) (auth : Option AuthModule) (root : BlobAddr)
    (principal : PrincipalRef) (pair : PathNodePair) : PathNodePair :=
  match auth with
  | none => pair
  | some m => (m.policyAt E root).prune principal pair

/-- The principal finds a node at the path in the tree at `root`. -/
structure Finds (E : Encoding) (auth : Option AuthModule) (root : BlobAddr)
    (principal : PrincipalRef) (path : GoString) (addr : BlobAddr) : Prop where
  relative : isRooted (trimRight path) = false
  leaf : ∃ pair, (E.batch root [trimRight path]).getLast? = some pair ∧
    (pruned E auth root principal pair).error = none ∧ pair.path = trimRight path ∧
    pair.addr = addr

/-- The path is a directory that a browser asks for, and its index is found. -/
structure ServesIndex (E : Encoding) (auth : Option AuthModule) (root : BlobAddr)
    (path : GoString) (r : GetRequest) (index : BlobAddr) : Prop where
  directory : ∃ dir, Finds E auth root r.principal path dir ∧ E.IsDir dir
  browser : r.wantsJson = false
  index : Finds E auth root r.principal (indexPath path) index

variable {E : Env} {auth : Option AuthModule} {holders : Multiset BlobAddr} {s t : NameStore}
  {path : GoString} {principal : PrincipalRef} {addr : BlobAddr}

theorem Finds.unique {E : Encoding} {root other : BlobAddr}
    (h : Finds E auth root principal path addr) (h' : Finds E auth root principal path other) :
    addr = other := by
  obtain ⟨-, pair, hpair, -, -, rfl⟩ := h
  obtain ⟨-, pair', hpair', -, -, rfl⟩ := h'
  cases hpair.symm.trans hpair'
  rfl

theorem pruned_error {E : Encoding} {root : BlobAddr} {pair : PathNodePair}
    (h : (pruned E auth root principal pair).error = none) :
    pruned E auth root principal pair = pair := by
  unfold pruned at h ⊢
  cases auth with
  | none => rfl
  | some m =>
      change ((m.policyAt E root).prune principal pair).error = none at h
      change (m.policyAt E root).prune principal pair = pair
      unfold Policy.prune at h ⊢
      split at h
      next hread => rw [if_pos hread]
      next => cases h

/-! ## Lookups in a loaded tree -/

theorem lookup_relative (hdense : E.sparse = false) (h : Inv E.toEncoding holders s)
    {paths : List GoString} (hrel : Relative paths) (principal : PrincipalRef) :
    lookup E (lookupCallbacks E auth) paths [] principal s =
      (.ok ⟨(E.batch s.rootAddr paths).map (pruned E.toEncoding auth s.rootAddr principal),
        s.serialNumber⟩, s) := by
  cases auth with
  | none =>
      have hid : pruned E.toEncoding none s.rootAddr principal = id := rfl
      rw [hid, List.map_id]
      exact lookup_held hdense h hrel principal
  | some m => exact lookup_auth_held hdense h hrel principal

/-- A path that begins with a slash is refused, and nothing is left held. -/
theorem lookup_rooted (hdense : E.sparse = false) (h : Inv E.toEncoding holders s)
    (hrooted : isRooted (trimRight path) = true) (principal : PrincipalRef) :
    lookup E (lookupCallbacks E auth) [trimRight path] [] principal s =
      (.error (.err (.message "paths must be relative".toList)), s) := by
  have hresolve : ∀ u : NameStore, lookupStep E none [] (trimRight path) u =
      (.error (.err (.message "paths must be relative".toList)), u) := by
    intro u
    refine bind_run_error (resolveFromLocal_rooted ?_)
    rw [trimRight_trimRight, trimRight_trimRight]
    exact hrooted
  have hbody : ∀ (callbacks : List LookupCallback) (root : Option BlobAddr) (u : NameStore), (do
      let entries ← loop (lookupStep E none) [] [trimRight path]
      runLookupCallbacks callbacks ⟨[trimRight path], [], principal⟩ root
        ⟨entries, s.serialNumber⟩ : Op LookupResponse) u =
      (.error (.err (.message "paths must be relative".toList)), u) := by
    intro callbacks root u
    refine bind_run_error ?_
    rw [loop_cons]
    exact bind_run_error (hresolve u)
  unfold lookup
  rw [bind_run (get_run s)]
  change (callbackRoot E _ >>= fun root => releasing E root _) s = _
  cases auth with
  | none =>
      change releasing E none _ s = _
      rw [releasing, bind_run (tryErr_run_error (hbody _ _ s))]
      rfl
  | some m =>
      have hcached : Cached s s.rootAddr := h.root_ready.cached
      obtain ⟨node, hnode⟩ := id hcached
      obtain ⟨htake, -, -, hrelease⟩ := holding_spec h.sound hdense hnode
      have hroot : s.rootAddr ≠ [] := by
        intro hnil
        have hcid := hcached.isCid h.sound
        rw [hnil] at hcid
        exact not_isCid_nil hcid
      have hcallbackRoot : callbackRoot E (lookupCallbacks E (some m)) s =
          (.ok (some s.rootAddr), holding s s.rootAddr node) := by
        rw [callbackRoot, bind_run (get_run s), if_neg (by simp [hroot, lookupCallbacks])]
        rw [bind_run (tryErr_run (loadFileNode_cached hcached))]
        exact (bind_run htake).trans rfl
      rw [bind_run hcallbackRoot]
      exact releasing_run_error (hbody _ _ _) hrelease

/-- An entry of a lookup without an error is that of a loaded node. -/
theorem batch_cached (h : Inv E.toEncoding holders s) {paths : List GoString}
    {pair : PathNodePair} (hpair : pair ∈ E.batch s.rootAddr paths) (herror : pair.error = none) :
    Cached s pair.addr := by
  have hmem := mem_appendNew_nil.mp hpair
  obtain ⟨list, hlist, hin⟩ := List.mem_flatten.mp hmem.mem
  obtain ⟨path, -, rfl⟩ := List.mem_map.mp hlist
  obtain ⟨i, -, rfl⟩ := List.mem_map.mp hin
  generalize (components path).take i = parts at herror ⊢
  unfold Encoding.entryOf Encoding.place at herror ⊢
  cases hwalk : E.walk (some s.rootAddr) parts with
  | some addr =>
      simp only [hwalk] at herror ⊢
      have hcached := (h.heldTree parts addr hwalk).cached
      obtain ⟨node, hnode⟩ := id hcached
      rwa [Encoding.placeEntry, (h.sound.nodes addr node hnode).metadata.entryAt]
  | none =>
      -- the entry of a place that is not there has an error
      simp only [hwalk] at herror
      split at herror
      · cases herror
      · split at herror
        · cases herror
        · cases herror

/-- `LookupNode` returns the node that is found, with a reference, or an error. -/
theorem lookupNode_cases (auth : Option AuthModule) (hdense : E.sparse = false)
    (h : Inv E.toEncoding holders s) (path : GoString) (principal : PrincipalRef) :
    (∃ addr node, Finds E.toEncoding auth s.rootAddr principal path addr ∧
      s.fileCache.lookup addr = some node ∧
      lookupNode E (lookupCallbacks E auth) path principal s = (.ok addr, holding s addr node)) ∨
    ((∀ addr, ¬ Finds E.toEncoding auth s.rootAddr principal path addr) ∧
      ∃ e, isBlobMissing e = none ∧
        lookupNode E (lookupCallbacks E auth) path principal s = (.error (.err e), s)) := by
  unfold lookupNode
  cases hrooted : isRooted (trimRight path) with
  | true =>
      refine .inr ⟨fun addr hfinds => ?_, _, rfl, bind_run_error (lookup_rooted hdense h hrooted principal)⟩
      have hrel := hfinds.relative
      rw [hrooted] at hrel
      cases hrel
  | false =>
      have hrel : Relative [trimRight path] := by
        intro other hother
        rw [List.mem_singleton.mp hother, trimRight_trimRight, hrooted]
      simp only [bind_run (lookup_relative hdense h hrel principal), LookupResponse.leaf,
        List.getLast?_map]
      cases hleaf : (E.batch s.rootAddr [trimRight path]).getLast? with
      | none =>
          refine .inr ⟨?_, _, ?_, rfl⟩
          · rintro addr ⟨-, pair, hpair, -⟩
            rw [hleaf] at hpair
            cases hpair
          · rfl
      | some pair =>
          simp only [Option.map_some]
          cases herror : (pruned E.toEncoding auth s.rootAddr principal pair).error with
          | some error =>
              have hnot : ∀ addr, ¬ Finds E.toEncoding auth s.rootAddr principal path addr := by
                rintro addr ⟨-, other, hother, hnone, -⟩
                cases hleaf.symm.trans hother
                rw [herror] at hnone
                cases hnone
              cases error with
              | notFound => exact .inr ⟨hnot, _, rfl, rfl⟩
              | accessDenied => exact .inr ⟨hnot, _, rfl, rfl⟩
              | notDir => exact .inr ⟨hnot, _, rfl, rfl⟩
              | internal => exact .inr ⟨hnot, _, rfl, rfl⟩
          | none =>
              have hsame := pruned_error herror
              simp only [hsame]
              by_cases hpath : pair.path = trimRight path
              · have hmem := List.mem_of_getLast? hleaf
                obtain ⟨node, hnode⟩ := batch_cached h hmem (hsame ▸ herror)
                refine .inl ⟨pair.addr, node, ⟨hrooted, pair, hleaf, herror, hpath, rfl⟩, hnode, ?_⟩
                have hget := getFileNode_held h.sound hdense hnode
                change (if pair.path ≠ trimRight path then fail _
                  else (do getFileNode E pair.addr; pure pair.addr) : Op BlobAddr) s = _
                rw [if_neg (not_not.mpr hpath), bind_run hget]
                rfl
              · refine .inr ⟨?_, .message ("LookupNode: expected leaf at ".toList ++ trimRight path),
                  rfl, ?_⟩
                · rintro addr ⟨-, other, hother, -, hother', -⟩
                  cases hleaf.symm.trans hother
                  exact hpath hother'
                · change (if pair.path ≠ trimRight path then fail _
                    else (do getFileNode E pair.addr; pure pair.addr) : Op BlobAddr) s = _
                  rw [if_pos hpath]
                  rfl

/-! ## What is served -/

/-- Once the node to serve is held, nothing changes any more. -/
theorem serveNode_held {held : Multiset BlobAddr} (hs : Sound E.toEncoding held s)
    (hcached : Cached s addr) (r : GetRequest) (path : GoString) :
    ∃ reply, serveNode r path addr s = (.ok reply, s) := by
  obtain ⟨node, hnode⟩ := id hcached
  have hexport := tryErr_run (exportedBlob_cached hs hcached)
  by_cases hmatch : r.ifNoneMatch ≠ [] ∧ r.ifNoneMatch = ['"'] ++ addr ++ ['"']
  · exact ⟨_, by rw [serveNode, if_pos hmatch]; rfl⟩
  cases hhead : r.isHead with
  | true => exact ⟨_, by rw [serveNode, if_neg hmatch, if_pos hhead]; rfl⟩
  | false =>
      have hbody : serveNode r path addr s =
          ((do
            let node ← getNode addr
            if r.opens then pure (.content (['"'] ++ addr ++ ['"']) node.metadata.contentHash path)
            else pure (.unreadable path) : Op GetReply) s) := by
        rw [serveNode, if_neg hmatch, if_neg (by simp [hhead])]
        exact bind_run hexport
      rw [hbody, bind_run (getNode_run hnode)]
      cases r.opens with
      | true => exact ⟨_, rfl⟩
      | false => exact ⟨_, rfl⟩

theorem holding_inv (hdense : E.sparse = false) (h : Inv E.toEncoding holders s)
    {node : FileNode} (hnode : s.fileCache.lookup addr = some node) :
    Inv E.toEncoding (addr ::ₘ holders) (holding s addr node) :=
  wp_of_run (getFileNode_spec hdense h addr) (getFileNode_held h.sound hdense hnode)

/-- The release of a node that is held. -/
theorem releaseNode_released {held : Multiset BlobAddr} (hs : Sound E.toEncoding held s)
    (hdense : E.sparse = false) (hpos : 0 < nodeCount s addr) :
    ∃ t, releaseNode E addr s = (.ok (), t) ∧ Quiet (Pi.single addr (-1)) s t := by
  have hspec := releaseNode_spec hs hdense hpos
  unfold wp at hspec
  generalize releaseNode E addr s = result at hspec
  obtain ⟨_ | _, t⟩ := result
  · rename_i halt
    cases halt with
    | err e => exact hspec.elim
    | _ => exact False.elim hspec
  · exact ⟨t, rfl, hspec.2⟩

/-- What the handler does to the counts: one node is counted once more if an index was
served, and none otherwise. -/
theorem handleNamespaceGet_run (auth : Option AuthModule) (hdense : E.sparse = false)
    (h : Inv E.toEncoding holders s) (path : GoString) (r : GetRequest) :
    ∃ reply t, handleNamespaceGet E (lookupCallbacks E auth) path r s = (.ok reply, t) ∧
      (((∀ index, ¬ ServesIndex E.toEncoding auth s.rootAddr path r index) ∧ t = s) ∨
        ∃ index, ServesIndex E.toEncoding auth s.rootAddr path r index ∧
          Quiet (Pi.single index 1) s t) := by
  unfold handleNamespaceGet
  rcases lookupNode_cases auth hdense h path r.principal with
    ⟨leaf, node, hfinds, hnode, hrun⟩ | ⟨hnone, e, he, hrun⟩
  · obtain ⟨-, hu, hquiet, hrelease⟩ := holding_spec h.sound hdense hnode
    have hinv := holding_inv hdense h hnode
    have hget := getNode_run (holding_lookup s leaf node)
    rw [bind_run (tryErr_run hrun)]
    -- the node is a directory if its metadata says so
    have hdir := h.sound.isDir_iff hnode
    by_cases hindex : node.metadata.type = .directory ∧ ¬ r.wantsJson
    · rcases lookupNode_cases auth hdense hinv (indexPath path) r.principal with
        ⟨index, node', hfinds', hnode', hrun'⟩ | ⟨hnone', e, -, hrun'⟩
      · obtain ⟨-, hv, hquiet', -⟩ := holding_spec hu hdense hnode'
        have hserves : ServesIndex E.toEncoding auth s.rootAddr path r index :=
          ⟨⟨leaf, hfinds, hdir.mpr hindex.1⟩, by simpa using hindex.2, hfinds'⟩
        obtain ⟨reply, hreply⟩ : ∃ reply, (if ¬ ['/'] <:+ r.urlPath then
            pure (.redirect (r.urlPath ++ ['/']))
            else serveNode r (indexPath path) index : Op GetReply)
            (holding (holding s leaf node) index node') =
              (.ok reply, holding (holding s leaf node) index node') := by
          by_cases hslash : ['/'] <:+ r.urlPath
          · rw [if_neg (not_not.mpr hslash)]
            exact serveNode_held hv ⟨_, holding_lookup _ index node'⟩ r _
          · rw [if_pos hslash]
            exact ⟨_, rfl⟩
        -- only the node of the path is released
        have hpos : 0 < nodeCount (holding (holding s leaf node) index node') leaf := by
          have hnonneg := h.sound.nodeCount_nonneg leaf
          have hindexNonneg : (0 : ℤ) ≤ (Pi.single index 1 : BlobAddr → ℤ) leaf := by
            rw [Pi.single_apply]
            split
            · exact zero_le_one
            · exact le_rfl
          rw [hquiet'.nodeCount, hquiet.nodeCount, Pi.single_eq_same]
          omega
        obtain ⟨t, hreleased, hback⟩ := releaseNode_released hv hdense hpos
        refine ⟨reply, t, releasing_run ?_ hreleased, .inr ⟨index, hserves, ?_⟩⟩
        · rw [bind_run hget, if_pos hindex, bind_run (tryErr_run hrun')]
          exact hreply
        · have hall := (hquiet.trans hquiet').trans hback
          rwa [add_right_comm, ← Pi.single_add, add_neg_cancel, Pi.single_zero, zero_add] at hall
      · refine ⟨.notFound, s, releasing_run ?_ hrelease, .inl ⟨fun index hserves => ?_, rfl⟩⟩
        · rw [bind_run hget, if_pos hindex, bind_run (tryErr_run_error hrun')]
          rfl
        · exact hnone' index hserves.index
    · obtain ⟨reply, hserve⟩ :=
        serveNode_held hu ⟨_, holding_lookup s leaf node⟩ r path
      refine ⟨reply, s, releasing_run ?_ hrelease, .inl ⟨fun index hserves => ?_, rfl⟩⟩
      · rw [bind_run hget, if_neg hindex, hserve]
      · obtain ⟨dir, hfinds', hisDir⟩ := hserves.directory
        cases hfinds.unique hfinds'
        exact hindex ⟨hdir.mp hisDir, by simp [hserves.browser]⟩
  · rw [bind_run (tryErr_run_error hrun)]
    have hnot : ∀ index, ¬ ServesIndex E.toEncoding auth s.rootAddr path r index := by
      intro index hserves
      obtain ⟨dir, hfinds, -⟩ := hserves.directory
      exact hnone dir hfinds
    simp only [fatalOr, he]
    split_ifs
    · exact ⟨_, s, rfl, .inl ⟨hnot, rfl⟩⟩
    · exact ⟨_, s, rfl, .inl ⟨hnot, rfl⟩⟩
    · exact ⟨_, s, rfl, .inl ⟨hnot, rfl⟩⟩

/-- The handler returns, and leaves the counts of all nodes as they were exactly if it does
not serve, or redirect to, the index of a directory. -/
theorem handleNamespaceGet_balanced_iff (hdense : E.sparse = false) (hs : Reachable E holders s)
    (auth : Option AuthModule) (path : GoString) (r : GetRequest) :
    ∃ reply t, handleNamespaceGet E (lookupCallbacks E auth) path r s = (.ok reply, t) ∧
      ((∀ addr, nodeCount t addr = nodeCount s addr) ↔
        ∀ index, ¬ ServesIndex E.toEncoding auth s.rootAddr path r index) := by
  obtain ⟨reply, t, hrun, hcounts⟩ :=
    handleNamespaceGet_run auth hdense (hs.inv hdense) path r
  refine ⟨reply, t, hrun, ?_⟩
  rcases hcounts with ⟨hnone, rfl⟩ | ⟨index, hserves, hquiet⟩
  · exact iff_of_true (fun _ => rfl) hnone
  · refine iff_of_false (fun hsame => ?_) (fun hnone => hnone index hserves)
    have hcount := hquiet.nodeCount index
    rw [hsame index, Pi.single_eq_same] at hcount
    omega

/-! ## A site -/

/-- A file, and a directory `a` with that file as its `index.html`. -/
def siteTable : List KnownBlob :=
  Table.shortDirectory 'e' 'E' 0o755 [] ++ Table.shortFile 'f' 'F' ++
    [⟨[105], ['Q', 'm', 'i'], .directory (.single "index.html".toList ['Q', 'm', 'F'])⟩,
      ⟨[73], ['Q', 'm', 'I'], .metadata ⟨.directory, 1, ['Q', 'm', 'i'], 0o755, []⟩⟩] ++
    Table.shortDirectory 'd' 'D' 0o755 [('a', ['Q', 'm', 'I'])]

theorem proper_siteTable : Table.Proper siteTable := by decide +kernel

abbrev siteEnv : Env := Table.shortEnv siteTable proper_siteTable

abbrev siteVolume : NameStore := Table.shortVolume proper_siteTable ['Q', 'm', 'D']

theorem reachable_siteVolume : Reachable siteEnv 0 siteVolume :=
  Table.reachable_shortVolume proper_siteTable (by decide +kernel) (by decide +kernel)

/-- A request for the directory `a`. -/
def siteRequest (accept : GoString) : GetRequest where
  isHead := false
  urlPath := ['/', 'a']
  accept := accept
  ifNoneMatch := []
  principal := .of ⟨[], []⟩
  opens := true

theorem handleNamespaceGet_listing : ∃ reply t,
    handleNamespaceGet siteEnv [] ['a'] (siteRequest "application/json".toList) siteVolume =
      (.ok reply, t) ∧ ∀ addr, nodeCount t addr = nodeCount siteVolume addr := by
  obtain ⟨reply, t, hrun, hcounts⟩ := handleNamespaceGet_balanced_iff rfl reachable_siteVolume
    none ['a'] (siteRequest "application/json".toList)
  have hjson : (siteRequest "application/json".toList).wantsJson = true := by decide +kernel
  refine ⟨reply, t, hrun, hcounts.mpr fun index hserves => ?_⟩
  rw [hserves.browser] at hjson
  cases hjson

/-- A browser is redirected to `/a/`, and the index is held for good. -/
theorem handleNamespaceGet_pins_index :
    (handleNamespaceGet siteEnv [] ['a'] (siteRequest []) siteVolume).1 =
        .ok (.redirect ['/', 'a', '/']) ∧
      ¬ ∀ addr, nodeCount (handleNamespaceGet siteEnv [] ['a'] (siteRequest []) siteVolume).2
        addr = nodeCount siteVolume addr := by
  have hreply : (handleNamespaceGet siteEnv [] ['a'] (siteRequest []) siteVolume).1 =
      .ok (.redirect ['/', 'a', '/']) := by decide +kernel
  have hbefore : nodeCount siteVolume ['Q', 'm', 'F'] = 1 := by decide +kernel
  have hafter : nodeCount (handleNamespaceGet siteEnv [] ['a'] (siteRequest []) siteVolume).2
      ['Q', 'm', 'F'] = 2 := by decide +kernel
  refine ⟨hreply, fun hsame => ?_⟩
  have hcount := hsame ['Q', 'm', 'F']
  rw [hbefore, hafter] at hcount
  cases hcount

end Serving

end Grits
