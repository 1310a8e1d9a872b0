import Grits.NameStore.Assertions
import Grits.NameStore.Progress

/-!
# Links that lack a blob

A link of trees whose blobs can be supplied (`Offered`) fails only for want of one
of these blobs, and the error names it (`Lacks`).
-/

namespace Grits

open Prog

variable {E : Env} {H : Hooks} {held holders : Multiset BlobAddr} {s t u : NameStore}
  {offer : Set BlobAddr}

/-! ## What can be supplied -/

/-- The node at `addr` is loaded, or its blobs can be supplied; and it can be read if
it is a directory. -/
structure Obtainable (E : Encoding) (offer : Set BlobAddr) (s : NameStore) (addr : BlobAddr) :
    Prop where
  loadable : Cached s addr ∨ ∃ metadata, E.MetadataAt addr metadata ∧
    (metadata.type = .file ∨ metadata.type = .directory) ∧ addr ∈ offer ∧
    metadata.contentHash ∈ offer
  readable : E.IsDir addr → ∃ children, E.DirAt addr children

/-- Every node of the tree is obtainable. -/
def Offered (E : Encoding) (offer : Set BlobAddr) (s : NameStore) (root : BlobAddr) : Prop :=
  ∀ path addr, E.walk (some root) path = some addr → Obtainable E offer s addr

/-- The error names a blob that can be supplied and is not there. -/
def Lacks (offer : Set BlobAddr) (e : GoErr) (s : NameStore) : Prop :=
  ∃ blob ∈ offer, isBlobMissing e = some blob ∧ ¬ Stored s blob

theorem Lacks.within {e : GoErr} (h : Lacks offer e s)
    (hstored : ∀ blob, Stored t blob → Stored s blob) : Lacks offer e t := by
  obtain ⟨blob, hblob, he, hmissing⟩ := h
  exact ⟨blob, hblob, he, fun hthere => hmissing (hstored blob hthere)⟩

theorem HeldTree.offered {E : Encoding} {root : BlobAddr} (h : HeldTree E s root) :
    Offered E offer s root :=
  fun path addr hwalk => ⟨.inl (h path addr hwalk).cached, (h path addr hwalk).available.readable⟩

/-- What is offered stays so while no node leaves the cache. -/
theorem Offered.mono {E : Encoding} {root : BlobAddr} (h : Offered E offer s root)
    (hcached : ∀ addr, Cached s addr → Cached t addr) : Offered E offer t root :=
  fun path addr hwalk =>
    ⟨(h path addr hwalk).loadable.imp_left (hcached addr), (h path addr hwalk).readable⟩

theorem Offered.child {E : Encoding} {root child : BlobAddr} {children : Children}
    {name : GoString} (h : Offered E offer s root) (hdir : E.DirAt root children)
    (hchild : children.lookup name = some child) : Offered E offer s child := by
  intro path addr haddr
  apply h (name :: path) addr
  rw [Encoding.walk, PathTree.walk_cons, hdir.child, hchild]
  exact haddr

theorem Offered.newDir {E : Encoding} {root : BlobAddr} {children : Children}
    (hcached : Cached s root) (hdir : E.DirAt root children)
    (h : ∀ name child, children.lookup name = some child → Offered E offer s child) :
    Offered E offer s root := by
  intro path addr hwalk
  cases path with
  | nil =>
      cases hwalk
      exact ⟨.inl hcached, fun _ => ⟨children, hdir⟩⟩
  | cons name path =>
      rw [Encoding.walk, PathTree.walk_cons, hdir.child] at hwalk
      cases hchild : children.lookup name with
      | none =>
          rw [hchild] at hwalk
          simp at hwalk
      | some child =>
          rw [hchild] at hwalk
          exact h name child hchild path addr hwalk

/-! ## Loading -/

theorem readFile_lacks {addr : BlobAddr} (haddr : addr ∈ offer) (s : NameStore) :
    wp (readFile addr) (fun r t => FewerBlobs s t ∧ ∀ e, r = .error (.err e) →
      Lacks offer e s) s := by
  refine wp_mono (wp_and (readFile_fewer addr s) (Q := fun r _ => ∀ e, r = .error (.err e) →
    Lacks offer e s) ?_) fun _ _ h => ⟨h.1.1, h.2⟩
  unfold readFile
  rw [wp_get_bind]
  split
  next =>
    intro e he
    cases he
  next hnone =>
    rintro e ⟨⟩
    refine ⟨addr, haddr, rfl, ?_⟩
    rintro ⟨file, hfile⟩
    rw [hnone] at hfile
    cases hfile

/-- Releasing a blob may end the process, but it returns no error. -/
theorem releaseBlob_no_error (addr : BlobAddr) (s : NameStore) :
    wp (releaseBlob E addr) (fun r _ => ∀ e, r ≠ .error (.err e)) s := by
  unfold releaseBlob
  rw [wp_get_bind]
  split
  next => exact fun _ => nofun
  next =>
    simp only
    split
    next => exact fun _ => nofun
    next =>
      split
      next => exact fun _ => nofun
      next =>
        rw [wp_consult_bind]
        split
        next => exact fun _ => nofun
        next => exact fun _ => nofun

/-- Reading the two blobs of a node fails only for want of one of them. -/
theorem actuallyLoadFileNode_lacks (hs : Sound E.toEncoding held s) (hdense : E.sparse = false)
    {addr : BlobAddr} {metadata : GNodeMetadata} (hmetadata : E.MetadataAt addr metadata)
    (htype : metadata.type = .file ∨ metadata.type = .directory) (haddr : addr ∈ offer)
    (hcontent : metadata.contentHash ∈ offer) :
    wp (actuallyLoadFileNode E addr) (fun r _ => ∀ e, r = .error (.err e) → Lacks offer e s) s := by
  unfold actuallyLoadFileNode
  refine wp_bind (wp_and (wp_and (readFile_fewer addr s) (readFile_grows addr s))
    (readFile_lacks haddr s)) ?_ ?_
  swap
  · rintro halt t ⟨-, -, hlacks⟩ e ⟨⟩
    exact hlacks e rfl
  rintro data t ⟨⟨⟨-, hdata⟩, hst⟩, -⟩
  -- the blob read is the one that describes the node
  obtain ⟨file, hfile, rfl⟩ := hdata data rfl
  obtain ⟨bytes, hsum, hbytes⟩ := hmetadata
  have hfileData : file.data = bytes :=
    E.sum_injective ((hs.hashed addr file hfile).trans hsum.symm)
  subst hfileData
  rw [hbytes]
  simp only [hdense, Bool.false_eq_true, if_false]
  refine wp_bind (P := fun r _ => ∀ e, r = .error (.err e) → Lacks offer e s) ?_ ?_ ?_
  · refine wp_catching (P := fun r _ => ∀ e, r = .error (.err e) → Lacks offer e s) ?_ ?_ ?_
    · refine wp_bind (readFile_lacks hcontent t) ?_ ?_
      · intro _ u _ e he
        cases he
      · rintro _ u ⟨-, hlacks⟩ e ⟨⟩
        exact (hlacks e rfl).within hst.stored
    · intro a u _ e he
      cases he
    · rintro halt u hlacks
      cases halt with
      | err e =>
          obtain ⟨blob, hblob, he, hmissing⟩ := hlacks e rfl
          refine wp_bind (releaseBlob_no_error addr u) ?_ ?_
          · rintro _ v - e ⟨⟩
            exact ⟨blob, hblob, he, hmissing⟩
          · rintro _ v hno e ⟨⟩
            exact absurd rfl (hno e)
      | crash c => exact fun _ => nofun
      | dangling a => exact fun _ => nofun
      | outOfFuel => exact fun _ => nofun
  · intro blob u _
    rcases htype with htype | htype
    · rw [htype]
      exact fun _ => nofun
    · rw [htype]
      exact fun _ => nofun
  · rintro halt u hlacks e ⟨⟩
    exact hlacks e rfl

/-- Loading an obtainable node fails only for want of one of its two blobs. -/
theorem loadFileNode_lacks (hs : Sound E.toEncoding held s) (hdense : E.sparse = false)
    {addr : BlobAddr} (h : Obtainable E.toEncoding offer s addr) :
    wp (loadFileNode E addr) (ends
      (fun _ t => (Kept E.toEncoding held s t ∧ Cached t addr) ∧ ∀ a, Cached s a → Cached t a)
      (fun e t => Kept E.toEncoding held s t ∧ Lacks offer e t)) s := by
  have herror : wp (loadFileNode E addr) (fun r _ => ∀ e, r = .error (.err e) →
      Lacks offer e s) s := by
    unfold loadFileNode
    rw [wp_get_bind]
    split
    next => exact fun _ => nofun
    next hnone =>
      rcases h.loadable with ⟨node, hnode⟩ | ⟨metadata, hmetadata, htype, haddr, hcontent⟩
      · rw [hnone] at hnode
        cases hnode
      refine wp_bind (actuallyLoadFileNode_lacks hs hdense hmetadata htype haddr hcontent) ?_ ?_
      · exact fun _ _ _ _ => nofun
      · rintro halt t hlacks e ⟨⟩
        exact hlacks e rfl
  have hall := wp_and (loadFileNode_spec hs hdense addr)
    (wp_and (loadFileNode_within hs hdense addr) herror)
  refine wp_mono hall ?_
  rintro (halt | a) t ⟨hpost, hwithin, hlacks⟩
  · cases halt with
    | err e => exact ⟨hpost, (hlacks e rfl).within hwithin.stored⟩
    | crash c => exact hpost
    | dangling a => exact hpost
    | outOfFuel => exact hpost
  · exact ⟨hpost, fun other hother => hother.kept hpost.1⟩

/-- Trees that are offered are followed by every operation of a link. -/
theorem linking_offered (hdense : E.sparse = false) :
    Linking E (fun s t => ∀ addr, Cached s addr → Cached t addr) (Offered E.toEncoding offer)
      (Lacks offer) where
  refl := fun _ _ h => h
  trans := fun h h' addr hcached => h' addr (h addr hcached)
  load := fun hs hoffered => loadFileNode_lacks hs hdense (hoffered [] _ rfl)
  read := by
    intro held s addr hs hcached hoffered
    refine wp_ends_of_ok (wp_post_mono
      (nodeChildren_ok_spec hs hcached (hoffered [] addr rfl).readable) ?_ (fun _ h => h))
    exact fun _ t ht => ⟨ht.1, ht.2.cached⟩
  same := fun _ hcached => hcached
  stays := fun hoffered hcached => hoffered.mono hcached
  child := by
    intro held s addr children name child hs hoffered hresult hchild
    cases children with
    | none => simp at hchild
    | some children =>
        obtain ⟨metadata, hmetadata, htype, hreadable⟩ := ChildrenRead.readable hresult hs
        obtain ⟨exact', hdir⟩ := (hoffered [] addr rfl).readable ⟨metadata, hmetadata, htype⟩
        obtain ⟨metadata', hmetadata', -, hcontent⟩ := id hdir
        have hm : metadata' = metadata := hmetadata'.unique hmetadata
        subst hm
        rw [hreadable.eq_of_contentAt hcontent] at hchild
        exact hoffered.child hdir hchild
  undone := fun hlacks hblobs => hlacks.within fun blob hstored => by
    obtain ⟨file, hfile⟩ := hstored
    exact ⟨file, by rw [← hblobs, hfile]⟩
  isMap := fun hoffered => (hoffered [] _ rfl).readable
  create := by
    intro held s children hs hwf
    refine wp_post_mono (createTreeNode_ok_spec hs fun name addr h => .inr (hwf name addr h))
      (fun _ t ht => ?_) (fun _ h => h)
    exact ⟨ht.1, ht.2.cached⟩
  newDir := .newDir

/-! ## Assertions -/

/-- What the assertions are about depends on the tree alone. -/
theorem assertedNode_agrees (hdense : E.sparse = false) (hs : Inv E.toEncoding holders s)
    (ht : Inv E.toEncoding holders t) (hroot : t.rootAddr = s.rootAddr) (path : GoString) :
    ∃ r, (assertedNode E path s = (r, s) ∧ assertedNode E path t = (r, t)) ∧
      ∀ addr, r = .ok (some addr) → Cached s addr ∧ Cached t addr := by
  cases hrooted : SlashPath.isRooted (SlashPath.trimRight path) with
  | true =>
      refine ⟨.error (.err (.message "paths must be relative".toList)), ⟨?_, ?_⟩, fun _ h => by cases h⟩
      · rw [assertedNode, bind_run_error (resolveFromLocal_rooted hrooted)]
      · rw [assertedNode, bind_run_error (resolveFromLocal_rooted hrooted)]
  | false =>
      have hrunS : resolveFromLocal E path none s = _ :=
        resolveFromLocal_held hs.sound hdense hs.heldTree rfl hrooted
      have hrunT : resolveFromLocal E path none t = _ :=
        resolveFromLocal_held ht.sound hdense ht.heldTree rfl hrooted
      rw [hroot] at hrunT
      have hcurrent := Encoding.resolve_current (E := E.toEncoding) s.rootAddr path
      obtain ⟨above, leaf, hpaths, -, hleaf⟩ :=
        Encoding.leads_resolve (E := E.toEncoding) s.rootAddr path
      unfold assertedNode
      rw [bind_run hrunS, bind_run hrunT]
      simp only [LookupResponse.leaf, hpaths, List.getLast?_concat]
      cases haddr : (E.resolve s.rootAddr path).current with
      | none =>
          simp only [haddr] at hleaf
          obtain ⟨error, rfl⟩ := hleaf
          cases error with
          | notFound =>
              have hrun : ∀ (parent : Bool) (t' : NameStore),
                  (if parent = true then pure none else fail .notExist : Op (Option BlobAddr)) t' =
                    (if parent = true then .ok none else .error (.err .notExist), t') := by
                rintro (_ | _) t' <;> rfl
              refine ⟨_, ⟨hrun _ s, hrun _ t⟩, fun addr h => ?_⟩
              split at h <;> cases h
          | notDir => exact ⟨_, ⟨rfl, rfl⟩, fun _ h => by cases h⟩
          | accessDenied => exact ⟨_, ⟨rfl, rfl⟩, fun _ h => by cases h⟩
          | internal => exact ⟨_, ⟨rfl, rfl⟩, fun _ h => by cases h⟩
      | some addr =>
          simp only [haddr] at hleaf
          rw [haddr] at hcurrent
          have hcachedS := (hs.heldTree _ addr hcurrent.symm).cached
          have hcachedT := (ht.heldTree _ addr (by rw [hroot]; exact hcurrent.symm)).cached
          obtain ⟨node, hnode⟩ := id hcachedS
          rw [(hs.sound.nodes addr node hnode).metadata.entryAt] at hleaf
          subst hleaf
          simp only [PathNodePair.found]
          rw [bind_run (loadFileNode_cached hcachedS), bind_run (loadFileNode_cached hcachedT)]
          refine ⟨_, ⟨rfl, rfl⟩, ?_⟩
          rintro _ ⟨⟩
          exact ⟨hcachedS, hcachedT⟩

/-- Assertions that hold go on to hold while the root stays. -/
theorem checkAssertions_agrees (hdense : E.sparse = false) (hs : Inv E.toEncoding holders s)
    (ht : Inv E.toEncoding holders t) (hroot : t.rootAddr = s.rootAddr) {request : LinkRequest}
    (h : checkAssertions E request s = (.ok (), s)) :
    checkAssertions E request t = (.ok (), t) := by
  unfold checkAssertions at h ⊢
  split at h
  next => cases h
  next hguard =>
    rw [if_neg hguard]
    split at h
    next hassert =>
      rw [if_pos hassert]
      rfl
    next hassert =>
      rw [if_neg hassert]
      obtain ⟨r, ⟨hrunS, hrunT⟩, hcached⟩ := assertedNode_agrees hdense hs ht hroot request.path
      cases r with
      | error halt =>
          rw [bind_run_error hrunS] at h
          cases h
      | ok node =>
          have hdescribed : ∃ described, describeNode node s = (.ok described, s) ∧
              describeNode node t = (.ok described, t) := by
            cases node with
            | none => exact ⟨none, rfl, rfl⟩
            | some addr =>
                obtain ⟨⟨nodeS, hnodeS⟩, nodeT, hnodeT⟩ := hcached addr rfl
                have hmetadata := (hs.sound.nodes addr nodeS hnodeS).metadata.unique
                  (ht.sound.nodes addr nodeT hnodeT).metadata
                refine ⟨some (addr, nodeS.metadata), ?_, ?_⟩
                · rw [describeNode, bind_run (getNode_run hnodeS)]
                  rfl
                · rw [describeNode, bind_run (getNode_run hnodeT), ← hmetadata]
                  rfl
          obtain ⟨described, hdescribedS, hdescribedT⟩ := hdescribed
          rw [bind_run hrunS, bind_run hdescribedS] at h
          rw [bind_run hrunT, bind_run hdescribedT]
          split at h
          next hholds =>
            rw [if_pos hholds]
            rfl
          next => cases h

/-! ## Phases 1 and 2 -/

/-- The requests can be applied one after another: each path is relative, and the
directory above the place it writes is there when its turn comes. -/
def Applicable (E : Encoding) : List LinkRequest → BlobAddr → Prop
  | [], _ => True
  | request :: requests, root =>
      SlashPath.isRooted (SlashPath.trimRight request.path) = false ∧ Targets E request root ∧
        ∀ new, Linked E request (some root) (some new) → Applicable E requests new

/-- What is linked is offered. -/
def ValuesOffered (E : Encoding) (offer : Set BlobAddr) (s : NameStore)
    (requests : List LinkRequest) : Prop :=
  ∀ request ∈ requests, request.newAddr = [] ∨ Offered E offer s request.newAddr

theorem ValuesOffered.mono {E : Encoding} {requests : List LinkRequest}
    (h : ValuesOffered E offer s requests) (hcached : ∀ addr, Cached s addr → Cached t addr) :
    ValuesOffered E offer t requests :=
  fun request hrequest => (h request hrequest).imp_right fun hoffered => hoffered.mono hcached

/-- A root that the requests have led to. -/
def NewRoot (E : Encoding) (offer : Set BlobAddr) (new : Option BlobAddr) (t : NameStore) : Prop :=
  ∃ newRoot, new = some newRoot ∧ Cached t newRoot ∧ Offered E offer t newRoot

theorem NewRoot.mono {E : Encoding} {new : Option BlobAddr} (h : NewRoot E offer new s)
    (hcached : ∀ addr, Cached s addr → Cached t addr) : NewRoot E offer new t := by
  obtain ⟨newRoot, hnew, hthere, hoffered⟩ := h
  exact ⟨newRoot, hnew, hcached newRoot hthere, hoffered.mono hcached⟩

theorem applyRequest_lacks (hdense : E.sparse = false) (hwatch : H.Silent)
    (hs : Sound E.toEncoding held s) {root : BlobAddr} (hcached : Cached s root)
    (hroot : Offered E.toEncoding offer s root) {request : LinkRequest}
    (hrel : SlashPath.isRooted (SlashPath.trimRight request.path) = false)
    (htarget : Targets E.toEncoding request root)
    (hvalue : request.newAddr = [] ∨ Offered E.toEncoding offer s request.newAddr) :
    wp (applyRequest E H (some root) request) (ends
      (fun new t => Kept E.toEncoding held s t ∧ NewRoot E.toEncoding offer new t ∧
        Linked E.toEncoding request (some root) new) (Lacks offer)) s := by
  have hends := applyRequest_ends (linking_offered hdense) hwatch hs hcached hroot hrel htarget
    hvalue
  have hspec := applyRequest_spec (H := H) hdense hs (cachedIfSome_some hcached) request
  refine wp_mono (wp_and hends hspec) ?_
  rintro ((e | c | a | _) | new) t ⟨h, h'⟩
  · exact h
  · exact h
  · exact h
  · exact h
  · exact ⟨h.1.1, h.2, h'.2.2⟩

/-- The loop of phase 2. -/
theorem applyRequests_lacks (hdense : E.sparse = false) (hwatch : H.Silent)
    {requests : List LinkRequest} (hs : Sound E.toEncoding held s) {root : BlobAddr}
    (hcached : Cached s root) (hroot : Offered E.toEncoding offer s root)
    (happlicable : Applicable E.toEncoding requests root)
    (hvalues : ValuesOffered E.toEncoding offer s requests) :
    wp (loop (applyRequest E H) (some root) requests) (ends
      (fun new t => Kept E.toEncoding held s t ∧ NewRoot E.toEncoding offer new t)
      (Lacks offer)) s := by
  induction requests generalizing s root with
  | nil => exact ⟨hs.kept, root, rfl, hcached, hroot⟩
  | cons request rest ih =>
      obtain ⟨hrel, htarget, hrest⟩ := happlicable
      rw [loop_cons]
      refine wp_ends_bind (applyRequest_lacks hdense hwatch hs hcached hroot hrel htarget
        (hvalues request List.mem_cons_self)) ?_ (fun _ _ h => h)
      rintro _ t ⟨ht, ⟨newRoot, rfl, hcached', hoffered⟩, hlinked⟩
      have hvalues' : ValuesOffered E.toEncoding offer t rest := fun other hother =>
        (hvalues other (List.mem_cons_of_mem _ hother)).imp_right fun hoffered =>
          hoffered.mono fun addr haddr => haddr.kept ht
      refine wp_ends_mono (ih ht.sound hcached' hoffered (hrest newRoot hlinked) hvalues') ?_
        (fun _ _ h => h)
      rintro new u ⟨hu, hnew⟩
      exact ⟨ht.trans hu, hnew⟩

theorem candidateRoot_lacks (hdense : E.sparse = false) (hwatch : H.Silent)
    (hs : Sound E.toEncoding held s) (hheld : HeldTree E.toEncoding s s.rootAddr)
    {requests : List LinkRequest}
    (hchecks : ∀ request ∈ requests, checkAssertions E request s = (.ok (), s))
    (happlicable : Applicable E.toEncoding requests s.rootAddr)
    (hvalues : ValuesOffered E.toEncoding offer s requests) :
    wp (candidateRoot E H requests) (ends
      (fun roots t => Kept E.toEncoding held s t ∧ roots.1 = s.rootAddr ∧
        NewRoot E.toEncoding offer roots.2 t) (Lacks offer)) s := by
  have hcached := (hheld [] s.rootAddr rfl).cached
  have hall : loop (fun _ request => checkAssertions E request) () requests s = (.ok (), s) := by
    clear happlicable hvalues
    induction requests with
    | nil => rfl
    | cons request rest ih =>
        rw [loop_cons, bind_run (hchecks request List.mem_cons_self)]
        exact ih fun other hother => hchecks other (List.mem_cons_of_mem _ hother)
  unfold candidateRoot
  rw [wp_bind_run hall, wp_bind_run (get_run s), wp_bind_run (loadFileNode_cached hcached)]
  refine wp_ends_bind (applyRequests_lacks hdense hwatch hs hcached hheld.offered happlicable
    hvalues) ?_ (fun _ _ h => h)
  rintro new t ⟨ht, hnew⟩
  exact ⟨ht, rfl, hnew⟩

/-! ## Phases 3 and 4 -/

/-- The hooks object to nothing, except for want of a blob that is offered; and lookup
callbacks only leave entries out. -/
structure Hooks.Grant (E : Encoding) (offer : Set BlobAddr) (root : BlobAddr)
    (requests : List LinkRequest) (principal : PrincipalRef) (H : Hooks) : Prop where
  silent : H.Silent
  link : ∀ callback ∈ H.linkCallbacks, ∀ held s newRoot, Sound E held s → s.rootAddr = root →
    Cached s root → CachedIfSome s newRoot →
    wp (callback (some root) newRoot requests principal)
      (ends (fun _ t => Kept E held s t) (Lacks offer)) s
  lookup : ∀ callback ∈ H.lookupCallbacks, ∀ held s response request newRoot, Sound E held s →
    s.rootAddr = root → Cached s root → CachedIfSome s newRoot → request.principal = principal →
    wp (callback response request newRoot)
      (ends (fun response' t => Kept E held s t ∧
        ∀ pair ∈ response'.paths, pair.addr = [] ∨ pair ∈ response.paths) (Lacks offer)) s

/-- The nodes of the entries are cached. -/
def EntriesCached (s : NameStore) (paths : List PathNodePair) : Prop :=
  ∀ pair ∈ paths, pair.addr = [] ∨ Cached s pair.addr

theorem EntriesCached.kept {E : Encoding} {paths : List PathNodePair} (h : EntriesCached s paths)
    (hkept : Kept E held s t) : EntriesCached t paths :=
  fun pair hpair => (h pair hpair).imp_right fun hcached => hcached.kept hkept

/-- An entry with an error names no node. -/
theorem Entry.addr_of_error {path name : GoString} {current next : Option BlobAddr}
    {pair : PathNodePair} (h : Entry E s path name current pair next)
    (herror : pair.error ≠ none) : pair.addr = [] := by
  cases h with
  | found => exact absurd rfl herror
  | missing => rfl
  | lost => rfl
  | notDir => rfl
  | unreadable => rfl
  | unloadable => rfl

theorem Walk.Followed.addr_of_error {walk walk' : Walk} {parts : List GoString}
    (h : Walk.Followed E s walk parts walk')
    (hstart : ∀ pair ∈ walk.paths, pair.error ≠ none → pair.addr = []) :
    ∀ pair ∈ walk'.paths, pair.error ≠ none → pair.addr = [] := by
  induction h with
  | nil => exact hstart
  | concat hparts hpart ih =>
      unfold Walk.Stepped at hpart
      split at hpart
      next =>
        rw [hpart]
        exact ih
      next =>
        obtain ⟨entry, hpaths, -, hentry⟩ := hpart
        intro pair hpair herror
        rw [hpaths, List.mem_append, List.mem_singleton] at hpair
        rcases hpair with hpair | rfl
        · exact ih pair hpair herror
        · exact hentry.addr_of_error herror

theorem ResolvedFrom.entriesCached {start : BlobAddr} {path : GoString} {response : LookupResponse}
    (h : ResolvedFrom E s t start path response) : EntriesCached t response.paths := by
  obtain ⟨metadata, walk, -, hpaths, hfollowed⟩ := h.walked
  intro pair hpair
  by_cases herror : pair.error = none
  · exact .inr (h.cached pair hpair herror)
  · rw [hpaths] at hpair
    refine .inl (hfollowed.addr_of_error ?_ pair hpair herror)
    intro first hfirst hwrong
    rw [List.mem_singleton] at hfirst
    subst hfirst
    exact absurd rfl hwrong

theorem responseStep_cached (hdense : E.sparse = false) (hs : Sound E.toEncoding held s)
    {newRoot : BlobAddr} (hroot : Cached s newRoot) {paths : List PathNodePair}
    (hpaths : EntriesCached s paths) {request : LinkRequest}
    (hrel : SlashPath.isRooted (SlashPath.trimRight request.path) = false) :
    wp (responseStep E (some newRoot) paths request) (post
      (fun paths' t => Kept E.toEncoding held s t ∧ EntriesCached t paths')
      (fun _ => False)) s := by
  unfold responseStep
  simp only
  split
  next => exact ⟨hs.kept, hpaths⟩
  next =>
    have hrel' : SlashPath.isRooted (SlashPath.trimRight (SlashPath.trimRight request.path)) =
        false := by
      rw [SlashPath.trimRight_trimRight, hrel]
    have hstart : Cached s ((some newRoot).getD s.rootAddr) := hroot
    refine wp_post_bind (resolveFromLocal_cached hs hdense hrel' hstart) ?_ (fun _ h => h)
    rintro response t ⟨ht, -, hresolved⟩
    have hpaths' := hpaths.kept ht
    split
    next =>
      refine ⟨ht, ?_⟩
      intro pair hpair
      rcases List.mem_append.mp hpair with hpair | hpair
      · exact hpaths' pair hpair
      · rw [List.mem_singleton.mp hpair]
        exact .inl rfl
    next =>
      refine ⟨ht, ?_⟩
      intro pair hpair
      rcases appendUnseen_subset paths response.paths pair hpair with hpair | hpair
      · exact hpaths' pair hpair
      · exact hresolved.entriesCached pair hpair

/-- Phase 4 fails only where a callback does. -/
theorem buildResponse_lacks (hdense : E.sparse = false) {root : BlobAddr}
    {requests : List LinkRequest} {principal : PrincipalRef}
    (hgrant : H.Grant E.toEncoding offer root requests principal)
    (hs : Sound E.toEncoding held s) (hlive : s.rootAddr = root) (hold : Cached s root)
    {newRoot : BlobAddr} (hroot : Cached s newRoot)
    (hrel : ∀ request ∈ requests,
      SlashPath.isRooted (SlashPath.trimRight request.path) = false)
    (serialNumber : ℤ) (returnResults : Bool) :
    wp (buildResponse E H requests (some newRoot) principal serialNumber returnResults) (ends
      (fun response t => Kept E.toEncoding held s t ∧
        ∀ r, response = some r → EntriesCached t r.paths) (Lacks offer)) s := by
  cases returnResults with
  | false => exact ⟨hs.kept, nofun⟩
  | true =>
      have hloop : wp (loop (responseStep E (some newRoot)) [] requests) (post
          (fun paths t => Kept E.toEncoding held s t ∧ EntriesCached t paths)
          (fun _ => False)) s := by
        refine wp_post_loop_const ⟨hs.kept, nofun⟩ ?_
        rintro request hrequest paths t ⟨ht, hpaths⟩
        refine wp_post_mono (responseStep_cached hdense ht.sound (hroot.kept ht) hpaths
          (hrel request hrequest)) ?_ (fun _ h => h)
        rintro paths' u ⟨hu, hpaths'⟩
        exact ⟨ht.trans hu, hpaths'⟩
      rw [buildResponse]
      refine wp_ends_bind (S := Lacks offer) (wp_ends_of_ok hloop) ?_ (fun _ _ h => h)
      rintro paths t ⟨ht, hpaths⟩
      have hcallbacks : wp (runLookupCallbacks H.lookupCallbacks
          ⟨extractPaths requests, [], principal⟩ (some newRoot) ⟨paths, serialNumber⟩) (ends
          (fun (response : LookupResponse) u => Kept E.toEncoding held s u ∧
            EntriesCached u response.paths) (Lacks offer)) t := by
        unfold runLookupCallbacks
        refine wp_ends_loop (I := fun _ (response : LookupResponse) u =>
          Kept E.toEncoding held s u ∧ EntriesCached u response.paths) ⟨ht, hpaths⟩ ?_
        rintro done callback todo response u hall ⟨hu, hentries⟩
        have hmem : callback ∈ H.lookupCallbacks := by
          rw [← hall]
          simp
        refine wp_ends_mono (hgrant.lookup callback hmem held u response _ (some newRoot) hu.sound
          (hu.quiet.rootAddr.trans hlive) (hold.kept hu) (cachedIfSome_some (hroot.kept hu)) rfl)
          ?_ (fun _ _ h => h)
        rintro response' v ⟨hv, hsubset⟩
        refine ⟨hu.trans hv, fun pair hpair => ?_⟩
        rcases hsubset pair hpair with hnil | hpair
        · exact .inl hnil
        · exact hentries.kept hv pair hpair
      refine wp_ends_bind hcallbacks ?_ (fun _ _ h => h)
      rintro response u ⟨hu, hentries⟩
      refine ⟨hu, ?_⟩
      rintro _ ⟨⟩
      exact hentries

/-! ## The whole link -/

/-- Phases 1 to 4. -/
theorem prepare_lacks (hdense : E.sparse = false) {requests : List LinkRequest}
    {principal : PrincipalRef}
    (hgrant : H.Grant E.toEncoding offer s.rootAddr requests principal)
    (hs : Sound E.toEncoding held s) (hheld : HeldTree E.toEncoding s s.rootAddr)
    (hchecks : ∀ request ∈ requests, checkAssertions E request s = (.ok (), s))
    (hrel : ∀ request ∈ requests,
      SlashPath.isRooted (SlashPath.trimRight request.path) = false)
    (happlicable : Applicable E.toEncoding requests s.rootAddr)
    (hvalues : ValuesOffered E.toEncoding offer s requests) (returnResults : Bool) :
    wp (prepare E H requests returnResults principal) (ends
      (fun prepared t => Kept E.toEncoding held s t ∧ prepared.oldRoot = s.rootAddr ∧
        NewRoot E.toEncoding offer prepared.newRoot t ∧
        ∀ r, prepared.response = some r → EntriesCached t r.paths) (Lacks offer)) s := by
  have hcached := (hheld [] s.rootAddr rfl).cached
  unfold prepare
  rw [wp_get_bind]
  refine wp_ends_bind (candidateRoot_lacks hdense hgrant.silent hs hheld hchecks happlicable
    hvalues) ?_ (fun _ _ h => h)
  rintro ⟨oldRoot, newRoot⟩ t ⟨ht, rfl, hnew⟩
  have hcallbacks : wp (loop (fun (_ : Unit) callback =>
      callback (some s.rootAddr) newRoot requests principal) () H.linkCallbacks) (ends
      (fun _ u => Kept E.toEncoding held t u) (Lacks offer)) t := by
    refine wp_ends_loop (I := fun _ _ u => Kept E.toEncoding held t u) ht.sound.kept ?_
    rintro done callback todo _ u hall hu
    have hmem : callback ∈ H.linkCallbacks := by
      rw [← hall]
      simp
    have hnew' : CachedIfSome u newRoot := by
      obtain ⟨root, rfl, hthere, -⟩ := hnew
      exact cachedIfSome_some (hthere.kept hu)
    refine wp_ends_mono (hgrant.link callback hmem held u newRoot hu.sound
      (hu.quiet.rootAddr.trans ht.quiet.rootAddr) ((hcached.kept ht).kept hu) hnew') ?_
      (fun _ _ h => h)
    exact fun _ v hv => hu.trans hv
  refine wp_ends_bind hcallbacks ?_ (fun _ _ h => h)
  rintro _ u hu
  have hsu := ht.trans hu
  obtain ⟨root, rfl, hthere, hoffered⟩ := hnew.mono fun addr haddr => haddr.kept hu
  refine wp_ends_bind (buildResponse_lacks hdense hgrant hsu.sound hsu.quiet.rootAddr
    (hcached.kept hsu) hthere hrel _ returnResults) ?_ (fun _ _ h => h)
  rintro response v ⟨hv, hentries⟩
  exact ⟨hsu.trans hv, rfl, ⟨root, rfl, hthere.kept hv,
    hoffered.mono fun addr haddr => haddr.kept hv⟩, hentries⟩

/-- Phase 5. -/
theorem commit_lacks (hdense : E.sparse = false) (h : Inv E.toEncoding holders s)
    {newRoot : BlobAddr} (hcached : Cached s newRoot)
    (hoffered : Offered E.toEncoding offer s newRoot) :
    wp (commit E s.rootAddr (some newRoot)) (ends
      (fun _ t => ∀ addr, Cached s addr → Cached t addr) (Lacks offer)) s := by
  obtain ⟨count, hrefs, hcounted, hready⟩ := h.counted
  unfold commit
  refine wp_ends_bind (recursiveTake_ends hdense (linking_offered hdense).toLoading
    h.outside_nonneg h.sound hrefs hcounted hready hcached hoffered) ?_ (fun _ _ h => h.2)
  rintro _ t ⟨⟨ht, hst, count', hrefs', hcounted', hready'⟩, -⟩
  have houtside : ∀ addr, 0 ≤ Grits.outside t addr := by
    intro addr
    rw [hst.outside]
    exact h.outside_nonneg addr
  rw [← Multiset.singleton_add, add_comm, Multiset.singleton_add] at hcounted'
  have hrelease := wp_tryErr (S := fun _ => False) (R := fun r u => r = .ok () ∧ Managed t u)
    (recursiveRelease_spec hdense houtside ht hrefs' hcounted' hready')
    (fun _ _ h => ⟨rfl, h.2.1⟩) (fun _ _ h => h.elim)
  refine wp_ends_bind (S := fun _ _ => False) (wp_ends_of_ok hrelease) ?_ (fun _ _ h => h.elim)
  rintro _ u ⟨rfl, htu⟩
  intro addr haddr
  have hu : Cached u addr := (haddr.managed hst).managed htu
  exact hu

/-- A link of what is offered, with requests that can be applied, succeeds or lacks a
blob of the offer. -/
theorem multiLink_lacks (hdense : E.sparse = false) (h : Inv E.toEncoding holders s)
    {requests : List LinkRequest} {principal : PrincipalRef}
    (hgrant : H.Grant E.toEncoding offer s.rootAddr requests principal)
    (hchecks : ∀ request ∈ requests, checkAssertions E request s = (.ok (), s))
    (hrel : ∀ request ∈ requests,
      SlashPath.isRooted (SlashPath.trimRight request.path) = false)
    (happlicable : Applicable E.toEncoding requests s.rootAddr)
    (hvalues : ValuesOffered E.toEncoding offer s requests) (returnResults : Bool) :
    wp (multiLink E H requests returnResults principal) (ends
      (fun response t => ∀ r, response = some r → EntriesCached t r.paths) (Lacks offer)) s := by
  unfold multiLink
  refine wp_ends_bind (prepare_lacks hdense hgrant h.sound h.heldTree hchecks hrel happlicable
    hvalues returnResults) ?_ (fun _ _ h => h)
  rintro ⟨oldRoot, newRoot, response⟩ t ⟨ht, hold, ⟨root, hnew, hcached, hoffered⟩, hentries⟩
  have hroot : oldRoot = t.rootAddr := hold.trans ht.quiet.rootAddr.symm
  subst hroot
  subst hnew
  refine wp_ends_bind (commit_lacks hdense (h.kept ht) hcached hoffered) ?_ (fun _ _ h => h)
  intro _ u hu r hr pair hpair
  exact (hentries r hr pair hpair).imp_right (hu pair.addr)

end Grits
