import Grits.Client.LinkUpload
import Grits.Client.Piggyback
import Grits.NameStore.Lacking
import Grits.NameStore.Volume

/-!
# The link and upload loop ends

`_serverMultiLink` asks for one missing blob after another.  Where the client holds the
trees it links and every request has a directory to write in, each failure names a blob
of the client's cache that the server lacks, so the loop ends with success and uploads
each of these blobs once at most.
-/

namespace Grits

open Prog

variable {E : Env} {H : Hooks} {holders held : Multiset BlobAddr} {s t u : NameStore}

/-! ## The client's trees -/

/-- The blobs in the cache, each under its hash. -/
structure BlobCache.Proper (E : Encoding) (cache : BlobCache) : Prop where
  hashed : ∀ addr bytes, cache.lookup addr = some bytes → E.sum bytes = addr

/-- Every blob of the tree is in the cache: for each of its nodes, the metadata and the
content. -/
def BlobCache.HasTree (E : Encoding) (cache : BlobCache) (root : BlobAddr) : Prop :=
  ∀ path addr, E.walk (some root) path = some addr →
    (∃ metadata, E.MetadataAt addr metadata ∧
      (metadata.type = .file ∨ metadata.type = .directory) ∧ addr ∈ cache ∧
      metadata.contentHash ∈ cache) ∧
    (E.IsDir addr → ∃ children, E.DirAt addr children)

/-- The blobs a client can upload. -/
def BlobCache.blobs (cache : BlobCache) : Set BlobAddr := fun addr => addr ∈ cache

theorem BlobCache.HasTree.offered {E : Encoding} {cache : BlobCache} {root : BlobAddr}
    (h : cache.HasTree E root) : Offered E cache.blobs s root := by
  intro path addr hwalk
  obtain ⟨hblobs, hreadable⟩ := h path addr hwalk
  exact ⟨.inr hblobs, hreadable⟩

/-- Whether the server has the blob. -/
instance (s : NameStore) (addr : BlobAddr) : Decidable (Stored s addr) :=
  decidable_of_iff ((s.blobStore.lookup addr).isSome = true) Option.isSome_iff_exists

/-- The blobs of the cache that the server lacks. -/
def BlobCache.missingOn (cache : BlobCache) (s : NameStore) : Finset BlobAddr :=
  cache.keys.filter fun addr => ¬ Stored s addr

theorem BlobCache.mem_missingOn {cache : BlobCache} {addr : BlobAddr} :
    addr ∈ cache.missingOn s ↔ addr ∈ cache ∧ ¬ Stored s addr := by
  rw [BlobCache.missingOn, Finset.mem_filter, Finmap.mem_keys]

/-! ## One post -/

/-- Entries whose nodes are loaded are kept without a change. -/
theorem keepEntries_run (hdense : E.sparse = false) (pairs : List PathNodePair)
    (hs : Sound E.toEncoding held s) (hcached : EntriesCached s pairs) :
    keepEntries E pairs s = (.ok (), s) := by
  induction pairs generalizing s with
  | nil => rfl
  | cons pair rest ih =>
      have hrest : EntriesCached s rest := fun other hother =>
        hcached other (List.mem_cons_of_mem _ hother)
      rw [keepEntries]
      split
      next => exact ih hs hrest
      next hfound =>
        obtain ⟨node, hnode⟩ := (hcached pair List.mem_cons_self).resolve_left hfound
        obtain ⟨-, hsound, hquiet, -⟩ := holding_spec hs hdense hnode
        have hkeep := ih hsound fun other hother =>
          (hrest other hother).imp_right fun h => h.quiet hquiet
        obtain ⟨hget, hrun⟩ := heldEntry_run hdense hs hnode hkeep
        rw [bind_run (fatalIfBlobMissing_run hget)]
        exact hrun

/-- The reply to requests that are well formed, when `MultiLink` fails. -/
theorem handleLink_failed {requests : List LinkRequest} {principal : PrincipalRef} {e : GoErr}
    (haccepted : (requests.isEmpty || !requests.all fun request =>
      validRelativePath request.path) = false)
    (hrun : multiLink E H requests true principal s = (.error (.err e), t)) :
    handleLink E H requests principal s = (.ok (linkFailure e), t) := by
  rw [handleLink, haccepted, if_neg Bool.false_ne_true, bind_run (tryErr_run_error hrun)]
  rfl

/-- The reply to requests that are well formed, when `MultiLink` goes through. -/
theorem handleLink_linked {requests : List LinkRequest} {principal : PrincipalRef}
    {response : Option LookupResponse}
    (haccepted : (requests.isEmpty || !requests.all fun request =>
      validRelativePath request.path) = false)
    (hrun : multiLink E H requests true principal s = (.ok response, t)) :
    handleLink E H requests principal s =
      match tryErr (keepEntries E ((response.map (·.paths)).getD [])) t with
      | (.ok (.ok _), u) => (.ok (.linked response), u)
      | (.ok (.error _), u) => (.ok (.error 500), u)
      | (.error halt, u) => (.error halt, u) := by
  rw [handleLink, haccepted, if_neg Bool.false_ne_true, bind_run (tryErr_run hrun)]
  simp only
  rcases hresult : tryErr (keepEntries E ((response.map (·.paths)).getD [])) t with
    ⟨halt | (e | a), u⟩
  · rw [bind_run_error hresult, hresult]
  · rw [bind_run hresult, hresult]
    rfl
  · rw [bind_run hresult, hresult]
    rfl

/-- A link that fails takes no reference to a blob away. -/
theorem multiLink_keepsBlobs (hdense : E.sparse = false) (hH : H.ReadOnly E.toEncoding)
    (h : Inv E.toEncoding holders s) (hheld : Sound E.toEncoding held s)
    {requests : List LinkRequest} {returnResults : Bool} {principal : PrincipalRef} {e : GoErr}
    (hrun : multiLink E H requests returnResults principal s = (.error (.err e), t)) :
    Sound E.toEncoding held t := by
  have hspec : wp (multiLink E H requests returnResults principal)
      (fun r t => ∀ e, r = .error (.err e) → Sound E.toEncoding held t) s := by
    unfold multiLink
    refine wp_bind (wp_and (prepare_spec hdense hH h.sound requests returnResults principal)
      (prepare_spec hdense hH hheld requests returnResults principal)) ?_ ?_
    · rintro ⟨oldRoot, newRoot, response⟩ t ⟨⟨hst, hold, -, hcached, -⟩, hheld', -⟩
      have ht := inv_iff_accounts.mp (h.kept hst)
      have hroot : oldRoot = t.rootAddr := by rw [hst.quiet.rootAddr, ← hold]
      subst hroot
      cases newRoot with
      | none =>
          refine wp_bind (commit_none_spec hdense ht) ?_ ?_
          · rintro _ u ⟨⟩
          · rintro _ u ⟨⟩ e ⟨⟩
      | some newRoot =>
          obtain ⟨count, hrefs, hcounted, hready⟩ := ht.counted
          have htake := recursiveTake_spec hdense ht.outside_nonneg ht.sound hrefs hcounted hready
            (hcached newRoot rfl)
          have htake' := recursiveTake_spec hdense ht.outside_nonneg hheld'.sound hrefs hcounted
            hready (hcached newRoot rfl)
          have hcommit := ht.commit_of_take hdense (Q := Kept E.toEncoding held t) (wp_mono
            (wp_and htake htake') ?_)
          · refine wp_bind hcommit ?_ ?_
            · rintro _ u - e ⟨⟩
            · rintro halt u hpost e ⟨⟩
              exact Kept.sound hpost
          · rintro ((e | c | a | _) | _) u ⟨hu, hu'⟩
            · exact hu'
            · exact hu
            · exact hu
            · exact hu
            · exact hu
    · rintro halt t ⟨-, hpost⟩ e ⟨⟩
      exact Kept.sound hpost
  exact wp_of_run hspec hrun e rfl

/-- A post either goes through, or the reply names a missing blob of the offer; the
server then is as it was, but for nodes it has loaded. -/
theorem postLink_lacks (hdense : E.sparse = false) (hH : H.ReadOnly E.toEncoding)
    (h : Inv E.toEncoding holders s) {offer : Set BlobAddr} {requests : List LinkRequest}
    {principal : PrincipalRef} (hne : requests ≠ [])
    (hvalid : ∀ request ∈ requests, validRelativePath request.path = true)
    (hgrant : H.Grant E.toEncoding offer s.rootAddr requests principal)
    (hchecks : ∀ request ∈ requests, checkAssertions E request s = (.ok (), s))
    (happlicable : Applicable E.toEncoding requests s.rootAddr)
    (hvalues : ValuesOffered E.toEncoding offer s requests) :
    (∃ response t, postLink E H requests principal s = (.done response, t)) ∨
      ∃ blob t, postLink E H requests principal s = (.lacks blob, t) ∧ blob ∈ offer ∧
        ¬ Stored t blob ∧ Inv E.toEncoding holders t ∧ t.rootAddr = s.rootAddr ∧
        ∀ held, Sound E.toEncoding held s → Sound E.toEncoding held t := by
  have hrel : ∀ request ∈ requests,
      SlashPath.isRooted (SlashPath.trimRight request.path) = false := fun request hrequest =>
    isRooted_of_valid (hvalid request hrequest)
  have haccepted : (requests.isEmpty || !requests.all fun request =>
      validRelativePath request.path) = false := by
    rw [Bool.or_eq_false_iff, Bool.not_eq_false', List.all_eq_true, List.isEmpty_eq_false_iff]
    exact ⟨hne, hvalid⟩
  have hends := wp_and
    (multiLink_lacks hdense h hgrant hchecks hrel happlicable hvalues true)
    (multiLink_spec hdense hH h requests true principal)
  cases hrun : multiLink E H requests true principal s with
  | mk r t =>
      rw [wp, hrun] at hends
      obtain ⟨hends, hspec⟩ := hends
      rcases r with (e | c | a | _) | response
      · obtain ⟨blob, hblob, he, hmissing⟩ := hends
        have hkept : Kept E.toEncoding 0 s t := hspec
        refine .inr ⟨blob, t, ?_, hblob, hmissing, h.kept hkept, hkept.quiet.rootAddr,
          fun held hheld => multiLink_keepsBlobs hdense hH h hheld hrun⟩
        have hfailure : linkFailure e = .missingBlob blob := by
          rw [linkFailure, he]
        rw [postLink, handleLink_failed haccepted hrun, hfailure]
      · exact hends.elim
      · exact hends.elim
      · exact hends.elim
      · have hentries : EntriesCached t ((response.map (·.paths)).getD []) := by
          cases response with
          | none =>
              intro _ hmem
              cases hmem
          | some r => exact hends r rfl
        refine .inl ⟨response, t, ?_⟩
        have hreply : handleLink E H requests principal s = (.ok (.linked response), t) := by
          rw [handleLink_linked haccepted hrun,
            tryErr_run (keepEntries_run hdense _ hspec.1.sound hentries)]
        rw [postLink, hreply]

/-! ## One upload -/

/-- The upload of a blob of the cache that the server lacks. -/
theorem uploadMissingBlob_run (h : Inv E.toEncoding holders s) {cache : BlobCache}
    (hproper : cache.Proper E.toEncoding) {addr : BlobAddr} (haddr : addr ∈ cache)
    (hmissing : ¬ Stored s addr) :
    ∃ t, uploadMissingBlob E cache addr s = some t ∧ Inv E.toEncoding holders t ∧
      t.rootAddr = s.rootAddr ∧ (∀ blob, Stored t blob ↔ blob = addr ∨ Stored s blob) ∧
      ∀ held, Sound E.toEncoding held s → Sound E.toEncoding (addr ::ₘ held) t := by
  obtain ⟨bytes, hbytes⟩ := Finmap.mem_iff.mp haddr
  have hsum := hproper.hashed addr bytes hbytes
  have hnone : s.blobStore.lookup addr = none := by
    rw [← Option.not_isSome_iff_eq_none]
    exact fun hsome => hmissing (Option.isSome_iff_exists.mp hsome)
  let file : LocalCachedFile := { data := bytes, refCount := 1, expiresAt := none }
  let t : NameStore := { s with blobStore := s.blobStore.insert addr file }
  have hadd : addDataBlock E bytes s = (.ok addr, t) := by
    rw [addDataBlock, bind_run (get_run s), hsum, hnone]
    rfl
  have hupload : handleBlobUpload E addr bytes s = (.ok true, t) := by
    rw [handleBlobUpload, bind_run (get_run s), hnone]
    simp only
    rw [bind_run hadd, if_neg (not_not.mpr rfl)]
    rfl
  have hserves : Serves E.toEncoding (s.blobStore.insert addr file) s := by
    have hspec := wp_of_run (addDataBlock_spec (E := E) h.sound bytes) hadd
    have hsound : Sound E.toEncoding 0 t := hspec.2.1.mono (Multiset.zero_le _)
    refine ⟨hsound.hashed, fun blob => ?_⟩
    have hcount := hsound.counted blob
    rw [Multiset.count_zero, add_zero] at hcount
    exact hcount
  refine ⟨t, ?_, h.blobs hserves, rfl, fun blob => ?_, fun held hheld => ?_⟩
  rotate_left 2
  · exact hsum ▸ (wp_of_run (addDataBlock_spec (E := E) hheld bytes) hadd).2.1
  · rw [uploadMissingBlob, hbytes]
    simp only [hupload]
  · by_cases hblob : blob = addr
    · subst hblob
      simp only [true_or, iff_true]
      exact ⟨file, Finmap.lookup_insert _⟩
    · have hlookup : t.blobStore.lookup blob = s.blobStore.lookup blob :=
        Finmap.lookup_insert_of_ne _ hblob
      simp only [hblob, false_or, Stored, hlookup]

/-! ## The loop -/

/-- The states of the server in which the loop posts its requests. -/
abbrev Posting (E : Env) (H : Hooks) (cache : BlobCache) (requests : List LinkRequest)
    (principal : PrincipalRef) : NameStore → NameStore → Prop :=
  Resupply.Visited (postLink E H (postedRequests requests) principal) (uploadMissingBlob E cache)

/-- No blob of the cache is collected by a post of the loop. -/
def NothingCollected (E : Env) (H : Hooks) (cache : BlobCache) (requests : List LinkRequest)
    (principal : PrincipalRef) (s : NameStore) : Prop :=
  ∀ t, Posting E H cache requests principal s t → ∀ addr ∈ cache, Stored t addr →
    Stored (postLink E H (postedRequests requests) principal t).2 addr

/-- The loop ends with success; it uploads each blob at most once, and only blobs that
the server lacked. -/
theorem serverMultiLink_done (hdense : E.sparse = false) (hH : H.ReadOnly E.toEncoding)
    (hs : Reachable E holders s) {cache : BlobCache} (hproper : cache.Proper E.toEncoding)
    {requests : List LinkRequest} {principal : PrincipalRef} (hne : requests ≠ [])
    (htrees : ∀ request ∈ requests,
      request.newAddr = [] ∨ cache.HasTree E.toEncoding request.newAddr)
    (hvalid : ∀ request ∈ postedRequests requests, validRelativePath request.path = true)
    (happlicable : Applicable E.toEncoding (postedRequests requests) s.rootAddr)
    (hgrant : H.Grant E.toEncoding cache.blobs s.rootAddr (postedRequests requests) principal)
    (hchecks : ∀ request ∈ postedRequests requests,
      checkAssertions E request s = (.ok (), s))
    (hcollected : NothingCollected E H cache requests principal s) {fuel : ℕ}
    (hfuel : (cache.missingOn s).card < fuel) :
    ∃ response uploads t,
      serverMultiLink E H cache requests principal fuel s =
        ⟨some (.done response), uploads, t⟩ ∧
      uploads.Nodup ∧ ∀ addr ∈ uploads, addr ∈ cache ∧ ¬ Stored s addr := by
  have hinv := hs.inv hdense
  have hsupplies : Resupply.Supplies (postLink E H (postedRequests requests) principal)
      (uploadMissingBlob E cache)
      (fun t => Posting E H cache requests principal s t ∧ Inv E.toEncoding holders t ∧
        t.rootAddr = s.rootAddr) cache.missingOn := by
    refine ⟨?_⟩
    rintro t ⟨hposting, ht, hroot⟩
    have hvalues : ValuesOffered E.toEncoding cache.blobs t (postedRequests requests) := by
      intro request hrequest
      obtain ⟨original, horiginal, rfl⟩ := List.mem_map.mp hrequest
      exact (htrees original horiginal).imp_right fun htree => htree.offered
    have hchecks' : ∀ request ∈ postedRequests requests,
        checkAssertions E request t = (.ok (), t) := fun request hrequest =>
      checkAssertions_agrees hdense hinv ht hroot (hchecks request hrequest)
    have hne' : postedRequests requests ≠ [] := by
      rw [postedRequests, Ne, List.map_eq_nil_iff]
      exact hne
    rcases postLink_lacks hdense hH ht hne' hvalid (hroot ▸ hgrant) hchecks'
      (hroot ▸ happlicable) hvalues with hdone | ⟨blob, u, hpost, hblob, hmissing, hu, hroot', -⟩
    · exact .inl hdone
    · obtain ⟨v, hupload, hv, hroot'', hstored, -⟩ :=
        uploadMissingBlob_run hu hproper hblob hmissing
      have hkept := hcollected t hposting
      rw [hpost] at hkept
      refine .inr ⟨blob, u, v, hpost, ?_, hupload, ⟨?_, hv, ?_⟩, ?_⟩
      · exact BlobCache.mem_missingOn.mpr ⟨hblob, fun hthere => hmissing (hkept blob hblob hthere)⟩
      · refine hposting.next ?_
        rw [Resupply.round, hpost]
        exact hupload
      · rw [hroot'', hroot', hroot]
      · intro addr haddr
        obtain ⟨hcache, hlacking⟩ := BlobCache.mem_missingOn.mp haddr
        rw [hstored, not_or] at hlacking
        rw [Finset.mem_erase, BlobCache.mem_missingOn]
        exact ⟨hlacking.1, hcache, fun hthere => hlacking.2 (hkept addr hcache hthere)⟩
  obtain ⟨response, uploads, t, hrun, hnodup, huploads⟩ :=
    hsupplies.run_done (s := s) ⟨.start, hinv, rfl⟩ (List.forall_mem_nil _) hfuel
  refine ⟨response, uploads, t, hrun, hnodup, fun addr haddr => ?_⟩
  exact BlobCache.mem_missingOn.mp (huploads addr haddr)

/-! ### A server without a file -/

theorem ProperBlobs.erase {E : Encoding} {blobs : Finmap fun _ : BlobAddr => LocalCachedFile}
    (h : ProperBlobs E blobs) (addr : BlobAddr) : ProperBlobs E (blobs.erase addr) := by
  intro blob file hfile
  by_cases hblob : blob = addr
  · rw [hblob, Finmap.lookup_erase] at hfile
    cases hfile
  · rw [Finmap.lookup_erase_ne hblob] at hfile
    exact h blob file hfile

namespace Table

/-- The two blobs of the file. -/
def fileCache : BlobCache :=
  ((shortFile 'f' 'F').map fun blob =>
    (⟨blob.addr, blob.data⟩ : Σ _ : BlobAddr, Bytes)).toFinmap

abbrev uploadEnv : Env := shortEnv shortTable proper_shortTable

/-- The empty volume on a server that lacks the file. -/
def lackingVolume : NameStore :=
  shortEmpty proper_shortTable (((blobStore shortTable).erase ['Q', 'm', 'f']).erase
    ['Q', 'm', 'F'])

/-- The empty volume on a server that has all blobs. -/
def suppliedServer : NameStore := shortEmpty proper_shortTable (blobStore shortTable)

/-- Both servers start, and the one that lacks the file has an empty directory. -/
theorem uploadServers_run :
    (emptyNameStore uploadEnv (((blobStore shortTable).erase ['Q', 'm', 'f']).erase
      ['Q', 'm', 'F'])).1 = .ok () ∧
    (emptyNameStore uploadEnv (blobStore shortTable)).1 = .ok () ∧
    lackingVolume.rootAddr = shortTable[1].addr := by decide +kernel

theorem reachable_lackingVolume : Reachable uploadEnv 0 lackingVolume :=
  reachable_shortEmpty proper_shortTable
    (((properBlobs proper_shortTable).erase ['Q', 'm', 'f']).erase ['Q', 'm', 'F'])
    uploadServers_run.1

theorem reachable_suppliedServer : Reachable uploadEnv 0 suppliedServer :=
  reachable_shortEmpty proper_shortTable (properBlobs proper_shortTable) uploadServers_run.2.1

theorem proper_fileCache : fileCache.Proper uploadEnv.toEncoding := by
  refine ⟨fun addr bytes hbytes => ?_⟩
  rw [fileCache, Finmap.dlookup_list_toFinmap] at hbytes
  obtain ⟨blob, hblob, heq⟩ := List.mem_map.mp (List.of_mem_dlookup (Option.mem_def.mpr hbytes))
  cases heq
  refine sum_of_mem proper_shortTable (List.mem_append_left _ (List.mem_append_right _ ?_))
  exact hblob

theorem hasTree_file : fileCache.HasTree uploadEnv.toEncoding ['Q', 'm', 'F'] := by
  have hfile : ¬ uploadEnv.IsDir ['Q', 'm', 'F'] :=
    not_isDir_of_file proper_shortTable shortTable[3] (List.getElem_mem _) rfl rfl rfl
  intro path addr hwalk
  rw [Encoding.walk_of_not_isDir hfile hwalk]
  refine ⟨⟨_, metadataAt_of_mem proper_shortTable shortTable[3] (List.getElem_mem _) rfl rfl,
    .inl rfl, ?_, ?_⟩, fun hdir => absurd hdir hfile⟩
  · decide +kernel
  · decide +kernel

theorem grant_none (E : Encoding) (offer : Set BlobAddr) (root : BlobAddr)
    (requests : List LinkRequest) (principal : PrincipalRef) :
    Hooks.none.Grant E offer root requests principal where
  silent := Hooks.silent_of_none rfl
  link := nofun
  lookup := nofun

/-- The link of the file. -/
def fileLink : List LinkRequest := [⟨['a'], ['Q', 'm', 'F'], [], 0⟩]

theorem postedRequests_fileLink : postedRequests fileLink = fileLink := by decide

theorem eq_of_mem_fileLink {request : LinkRequest} (h : request ∈ fileLink) :
    request = ⟨['a'], ['Q', 'm', 'F'], [], 0⟩ := List.mem_singleton.mp h

theorem applicable_fileLink {E : Encoding} {root : BlobAddr} (hdir : E.IsDir root) :
    Applicable E fileLink root :=
  ⟨rfl, ⟨root, rfl, hdir⟩, fun _ _ => trivial⟩

theorem checked_fileLink (E : Env) (s : NameStore) :
    ∀ request ∈ fileLink, checkAssertions E request s = (.ok (), s) := by
  intro request hrequest
  rw [eq_of_mem_fileLink hrequest]
  rfl

theorem isDir_lackingVolume : uploadEnv.IsDir lackingVolume.rootAddr := by
  rw [uploadServers_run.2.2]
  exact isDir_of_directory proper_shortTable shortTable[1] (List.getElem_mem _) rfl rfl rfl

/-- A post and the upload it leads to. -/
def fileRound (s : NameStore) : Option NameStore :=
  Resupply.round (postLink uploadEnv Hooks.none fileLink .backend)
    (uploadMissingBlob uploadEnv fileCache) s

/-- The server after the upload of the metadata. -/
def describedVolume : NameStore := (fileRound lackingVolume).getD lackingVolume

/-- The server after the upload of the text. -/
def suppliedVolume : NameStore := (fileRound describedVolume).getD describedVolume

example : (fileRound lackingVolume).isSome = true ∧ (fileRound describedVolume).isSome = true := by
  decide +kernel

theorem posting_lackingVolume (ht : Posting uploadEnv Hooks.none fileCache fileLink .backend
    lackingVolume t) : t = lackingVolume ∨ t = describedVolume ∨ t = suppliedVolume := by
  have hlast : (fileRound suppliedVolume).isSome = false := by decide +kernel
  induction ht with
  | start => exact .inl rfl
  | @next s t _ hround ih =>
      rw [postedRequests_fileLink] at hround
      change fileRound s = some t at hround
      rcases ih with rfl | rfl | rfl
      · right; left
        rw [describedVolume, hround]
        rfl
      · right; right
        rw [suppliedVolume, hround]
        rfl
      · rw [hround] at hlast
        cases hlast

theorem nothingCollected_lackingVolume :
    NothingCollected uploadEnv Hooks.none fileCache fileLink .backend lackingVolume := by
  have hkeeps : ∀ t, t = lackingVolume ∨ t = describedVolume ∨ t = suppliedVolume →
      ∀ addr ∈ fileCache.keys, Stored t addr →
        Stored (postLink uploadEnv Hooks.none fileLink .backend t).2 addr := by
    rintro t (rfl | rfl | rfl)
    · decide +kernel
    · decide +kernel
    · decide +kernel
  intro t ht addr haddr
  rw [postedRequests_fileLink]
  exact hkeeps t (posting_lackingVolume ht) addr (Finmap.mem_keys.mpr haddr)

end Table

/-- Two uploads, and the file is linked. -/
theorem serverMultiLink_done_file : ∃ response uploads t,
    serverMultiLink Table.uploadEnv Hooks.none Table.fileCache Table.fileLink .backend 3
        Table.lackingVolume = ⟨some (.done response), uploads, t⟩ ∧
    uploads.Nodup ∧ ∀ addr ∈ uploads, addr ∈ Table.fileCache ∧
      ¬ Stored Table.lackingVolume addr := by
  have hvalid : ∀ request ∈ Table.fileLink, validRelativePath request.path = true := by decide
  have hmissing : (Table.fileCache.missingOn Table.lackingVolume).card < 3 := by decide +kernel
  have happlicable := Table.applicable_fileLink Table.isDir_lackingVolume
  have hchecked := Table.checked_fileLink Table.uploadEnv Table.lackingVolume
  rw [← Table.postedRequests_fileLink] at hvalid happlicable hchecked
  refine serverMultiLink_done rfl (Hooks.none_readOnly _) Table.reachable_lackingVolume
    Table.proper_fileCache (List.cons_ne_nil _ _) ?_ hvalid happlicable
    (Table.grant_none _ _ _ _ _) hchecked Table.nothingCollected_lackingVolume hmissing
  intro request hrequest
  rw [Table.eq_of_mem_fileLink hrequest]
  exact .inr Table.hasTree_file

/-- Below a directory that is not there the link is refused, whatever the client holds. -/
theorem serverMultiLink_refused_below_missing :
    Reachable Table.uploadEnv 0 Table.suppliedServer ∧
      Table.fileCache.Proper Table.uploadEnv.toEncoding ∧
      Table.fileCache.HasTree Table.uploadEnv.toEncoding ['Q', 'm', 'F'] ∧
      ∀ fuel, (serverMultiLink Table.uploadEnv Hooks.none Table.fileCache
        [⟨['x', '/', 'y'], ['Q', 'm', 'F'], [], 0⟩] .backend (fuel + 1)
          Table.suppliedServer).ending = some (.refused (.status 404)) := by
  refine ⟨Table.reachable_suppliedServer, Table.proper_fileCache, Table.hasTree_file, ?_⟩
  have hposted : postedRequests [⟨['x', '/', 'y'], ['Q', 'm', 'F'], [], 0⟩] =
      [⟨['x', '/', 'y'], ['Q', 'm', 'F'], [], 0⟩] := by decide
  have hresult : (multiLink Table.uploadEnv Hooks.none
      [⟨['x', '/', 'y'], ['Q', 'm', 'F'], [], 0⟩] true .backend Table.suppliedServer).1 =
        .error (.err .notExist) := by decide +kernel
  have hreply := handleLink_failed (by decide) (run_eq hresult)
  intro fuel
  rw [serverMultiLink, hposted, Resupply.run, postLink, hreply]
  rfl

end Grits
