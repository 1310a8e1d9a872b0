import Grits.Client.UploadLoop
import Grits.NameStore.LiveRoot

/-!
# What one link of a client does to the tree

`_serverMultiLink` posts a link until it goes through or fails.  However it ends, the
tree on the server is the one before it, or that tree with the request applied to it
once, and then the assertions of the request held.
-/

namespace Grits

open Prog

variable {E : Env} {H : Hooks} {holders held : Multiset BlobAddr} {s t u : NameStore}
  {root : BlobAddr}

/-- A sound store with this root. -/
def Standing (E : Encoding) (root : BlobAddr) (s : NameStore) : Prop :=
  ∃ holders, Inv E holders s ∧ s.rootAddr = root

/-- `request` takes the tree `old` to the tree `new`; its path was accepted, and its
assertions held. -/
structure Writes (E : Encoding) (request : LinkRequest) (old new : BlobAddr) : Prop where
  valid : validRelativePath request.path = true
  asserted : Asserted E request (E.walk (some old) (SlashPath.components request.path))
  linked : Linked E request (some old) (some new)

/-! ## The nodes of a reply -/

/-- A node that is held is in the cache. -/
theorem Inv.cached_of_mem_holders {E : Encoding} (h : Inv E holders s) {addr : BlobAddr}
    (haddr : addr ∈ holders) : Cached s addr := by
  cases hnode : s.fileCache.lookup addr with
  | some node => exact ⟨node, hnode⟩
  | none =>
      have houtside := h.outside addr
      have hpos := Multiset.count_pos.mpr haddr
      rw [Grits.outside, nodeCount_of_lookup_eq_none hnode, tracked] at houtside
      split at houtside <;> omega

/-- The store is sound after a call, with the holders it had unless the process has
ended. -/
def StandsAfter {α : Type} (E : Encoding) (holders : Multiset BlobAddr) (root : BlobAddr)
    (r : Except Halt α) (t : NameStore) : Prop :=
  Standing E root t ∧ (Returned r → Inv E holders t)

section StandsAfter

variable {α β : Type} {call : Op α}

theorem Inv.standsAfter {E : Encoding} (h : Inv E holders t) (hroot : t.rootAddr = root)
    (r : Except Halt α) : StandsAfter E holders root r t :=
  ⟨⟨holders, h, hroot⟩, fun _ => h⟩

theorem StandsAfter.error {E : Encoding} {halt : Halt}
    (h : StandsAfter E holders root (.error halt : Except Halt α) t) :
    StandsAfter E holders root (.error halt : Except Halt β) t := by
  refine ⟨h.1, fun hreturned => h.2 ?_⟩
  cases halt <;> exact hreturned

theorem fatalIfBlobMissing_run_error {halt : Halt} (hcall : call s = (.error halt, t)) :
    ∃ halt', fatalIfBlobMissing call s = (.error halt', t) := by
  rw [fatalIfBlobMissing, catching_run_error hcall]
  cases halt with
  | err e =>
      simp only
      cases isBlobMissing e <;> exact ⟨_, rfl⟩
  | crash c => exact ⟨_, rfl⟩
  | dangling a => exact ⟨_, rfl⟩
  | outOfFuel => exact ⟨_, rfl⟩

theorem tryErr_run_halt {halt : Halt} (hcall : call s = (.error halt, t))
    (hhalt : ∀ e, halt ≠ .err e) : tryErr call s = (.error halt, t) := by
  rw [tryErr, catching_run_error (bind_run_error hcall)]
  cases halt with
  | err e => exact absurd rfl (hhalt e)
  | crash c => rfl
  | dangling a => rfl
  | outOfFuel => rfl

/-- A node that is held during a call is let go of after it. -/
theorem wp_releasing_stands (hdense : E.sparse = false) {addr : BlobAddr}
    (h : wp call (StandsAfter E.toEncoding (addr ::ₘ holders) root) s) :
    wp (releasing E (some addr) call) (StandsAfter E.toEncoding holders root) s := by
  rw [wp] at h ⊢
  rcases hcall : call s with ⟨r, t⟩
  rw [hcall] at h
  obtain ⟨hstanding, hinv⟩ := h
  by_cases hreturned : Returned r
  · obtain ⟨-, -, hroot⟩ := hstanding
    have hspec := (inv_iff_accounts.mp (hinv hreturned)).releaseNode_spec hdense
    rw [wp] at hspec
    rcases hrun : releaseNode E addr t with ⟨halt | ⟨⟩, u⟩
    · rw [hrun] at hspec
      cases halt <;> exact hspec.elim
    · rw [hrun] at hspec
      have hu := inv_iff_accounts.mpr hspec.1
      have hroot' : u.rootAddr = root := hspec.2.rootAddr.trans hroot
      rcases r with (e | c | a | _) | a
      · rw [releasing_run_error hcall hrun]
        exact hu.standsAfter hroot' _
      · exact hreturned.elim
      · exact hreturned.elim
      · exact hreturned.elim
      · rw [releasing_run hcall hrun]
        exact hu.standsAfter hroot' _
  · cases r with
    | ok a => exact absurd trivial hreturned
    | error halt =>
        have htry : tryErr call s = (.error halt, t) := by
          refine tryErr_run_halt hcall ?_
          rintro e rfl
          exact hreturned trivial
        -- the end of the process lets go of nothing
        rw [releasing, bind_run_error htry]
        exact ⟨hstanding, fun h => absurd h hreturned⟩

end StandsAfter

/-- Keeping the nodes of a reply leaves the tree alone. -/
theorem keepEntries_stands (hdense : E.sparse = false) (pairs : List PathNodePair)
    (h : Inv E.toEncoding holders s) :
    wp (keepEntries E pairs) (StandsAfter E.toEncoding holders s.rootAddr) s := by
  induction pairs generalizing s holders with
  | nil => exact h.standsAfter rfl _
  | cons pair rest ih =>
      rw [keepEntries]
      split
      next => exact ih h
      next =>
        have hspec := (inv_iff_accounts.mp h).getFileNode_spec hdense pair.addr
        rw [wp] at hspec
        rcases hget : getFileNode E pair.addr s with ⟨halt | ⟨⟩, t⟩
        · rw [hget] at hspec
          have hkept : Kept E.toEncoding 0 s t := by
            cases halt with
            | err e => exact hspec
            | crash c => exact hspec.elim
            | dangling a => exact hspec.elim
            | outOfFuel => exact hspec.elim
          obtain ⟨halt', hrun⟩ := fatalIfBlobMissing_run_error hget
          rw [wp, bind_run_error hrun]
          exact (h.kept hkept).standsAfter hkept.quiet.rootAddr _
        · rw [hget] at hspec
          obtain ⟨ht, hquiet⟩ := hspec
          have htInv := inv_iff_accounts.mpr ht
          have hroot : t.rootAddr = s.rootAddr := hquiet.rootAddr
          obtain ⟨node, hnode⟩ := htInv.cached_of_mem_holders (Multiset.mem_cons_self _ _)
          rw [wp_bind_run (fatalIfBlobMissing_run hget)]
          refine wp_releasing_stands hdense ?_
          have hbody := ih htInv
          rw [hroot] at hbody
          rw [wp_bind_run (getNode_run hnode)]
          split
          · have hexported := exportedBlob_run hnode (htInv.sound.nodes _ node hnode).blob
            rw [wp_bind_run (fatalIfBlobMissing_run hexported)]
            exact hbody
          · exact hbody

/-! ## One post -/

/-- A link whose values are nodes leaves a root. -/
theorem Linked.new_ne_none {E : Encoding} {request : LinkRequest} {old new : Option BlobAddr}
    (h : Linked E request old new) (hvalue : request.newAddr ≠ []) : new ≠ none := by
  have hupdated := h.updated
  cases hsegments : request.segments with
  | nil =>
      rw [hsegments, PathTree.Updated, LinkRequest.value_of_ne hvalue] at hupdated
      rw [hupdated]
      exact Option.some_ne_none _
  | cons name rest =>
      rw [hsegments] at hupdated
      exact hupdated.new_ne_none

theorem linkFailure_ne_linked (e : GoErr) (response : Option LookupResponse) :
    linkFailure e ≠ .linked response := by
  unfold linkFailure
  split
  · exact nofun
  · repeat' split
    all_goals exact nofun

/-- A `MultiLink` of one request fails and leaves the tree alone, or it has written. -/
theorem multiLink_writes (hdense : E.sparse = false) (hH : H.ReadOnly E.toEncoding)
    (h : Inv E.toEncoding holders s) {request : LinkRequest} (hvalue : request.newAddr ≠ [])
    (hvalid : validRelativePath request.path = true) (principal : PrincipalRef) :
    (∃ e t, multiLink E H [request] true principal s = (.error (.err e), t) ∧
      Inv E.toEncoding holders t ∧ t.rootAddr = s.rootAddr) ∨
    ∃ response t, multiLink E H [request] true principal s = (.ok response, t) ∧
      Inv E.toEncoding holders t ∧ Writes E.toEncoding request s.rootAddr t.rootAddr := by
  have hspec := multiLink_spec hdense hH h [request] true principal
  rw [wp] at hspec
  rcases hrun : multiLink E H [request] true principal s with ⟨halt | response, t⟩
  · rw [hrun] at hspec
    have hnone : ¬ LinkedAll E.toEncoding [request] (some s.rootAddr) none := by
      rintro ⟨middle, hlinked, hmiddle⟩
      rw [LinkedAll] at hmiddle
      exact hlinked.new_ne_none hvalue hmiddle.symm
    cases halt with
    | err e =>
        have hkept : Kept E.toEncoding 0 s t := hspec
        exact .inl ⟨e, t, rfl, h.kept hkept, hkept.quiet.rootAddr⟩
    | crash c => exact absurd hspec.2 hnone
    | dangling a => exact absurd hspec.2 hnone
    | outOfFuel => exact absurd hspec.2 hnone
  · rw [hrun] at hspec
    obtain ⟨ht, ⟨middle, hlinked, hmiddle⟩, -⟩ := hspec
    rw [LinkedAll] at hmiddle
    subst hmiddle
    rcases multiLink_checked hdense h hrun with ⟨e, he⟩ | hall
    · cases he
    · have hasserted := (hall request (List.mem_singleton_self _)).2
      exact .inr ⟨response, t, rfl, ht, hvalid, hasserted, hlinked⟩

/-- A post that goes through has written; one that is refused may have written too, if
the reply could not be made, but not one whose assertions failed. -/
theorem postLink_tree (hdense : E.sparse = false) (hH : H.ReadOnly E.toEncoding)
    (h : Inv E.toEncoding holders s) (request : LinkRequest) (hvalue : request.newAddr ≠ [])
    (principal : PrincipalRef) :
    ∃ attempt t, postLink E H [request] principal s = (attempt, t) ∧
      ((Inv E.toEncoding holders t ∧ t.rootAddr = s.rootAddr ∧ ∀ response,
          attempt ≠ .done response) ∨
        ∃ root, Standing E.toEncoding root t ∧ Writes E.toEncoding request s.rootAddr root ∧
          (∀ blob, attempt ≠ .lacks blob) ∧ attempt ≠ .refused .assertion) := by
  by_cases hvalid : validRelativePath request.path = true
  swap
  · -- the handler looks no further
    have hreply : handleLink E H [request] principal s = (.ok (.error 400), s) := by
      rw [handleLink, if_pos (by simp [hvalid])]
      rfl
    refine ⟨.refused (.status 400), s, ?_, .inl ⟨h, rfl, fun _ h => by cases h⟩⟩
    rw [postLink, hreply]
    rfl
  have haccepted : ([request].isEmpty || !([request].all fun request =>
      validRelativePath request.path)) = false := by
    simp [hvalid]
  rcases multiLink_writes hdense hH h hvalue hvalid principal with
    ⟨e, t, hrun, ht, hroot⟩ | ⟨response, t, hrun, ht, hwrites⟩
  · have hreply := handleLink_failed haccepted hrun
    rw [postLink, hreply]
    cases hfailure : linkFailure e with
    | linked response => exact absurd hfailure (linkFailure_ne_linked e response)
    | missingBlob addr => exact ⟨_, t, rfl, .inl ⟨ht, hroot, fun _ h => by cases h⟩⟩
    | error status => exact ⟨_, t, rfl, .inl ⟨ht, hroot, fun _ h => by cases h⟩⟩
  · have hkeep := keepEntries_stands hdense ((response.map (·.paths)).getD []) ht
    rw [wp] at hkeep
    rcases hentries : keepEntries E ((response.map (·.paths)).getD []) t with ⟨r, u⟩
    rw [hentries] at hkeep
    obtain ⟨hstanding, -⟩ := hkeep
    rw [postLink, handleLink_linked haccepted hrun]
    rcases r with halt | a
    · by_cases hhalt : ∃ e, halt = .err e
      · obtain ⟨e, rfl⟩ := hhalt
        rw [tryErr_run_error hentries]
        exact ⟨_, u, rfl, .inr ⟨_, hstanding, hwrites, by rintro _ ⟨⟩, by rintro ⟨⟩⟩⟩
      · rw [tryErr_run_halt hentries fun e he => hhalt ⟨e, he⟩]
        exact ⟨_, u, rfl, .inr ⟨_, hstanding, hwrites, by rintro _ ⟨⟩, by rintro ⟨⟩⟩⟩
    · rw [tryErr_run hentries]
      exact ⟨_, u, rfl, .inr ⟨_, hstanding, hwrites, by rintro _ ⟨⟩, by rintro ⟨⟩⟩⟩

/-! ## Any requests -/

/-- A valid path of the root is one of the two that are guarded. -/
theorem root_of_valid {path : GoString} (hvalid : validRelativePath path = true)
    (h : linkName path = []) : path = [] ∨ path = ['.'] := by
  have htrim : SlashPath.trimRight path = path := by
    rw [SlashPath.trimRight, List.rdropWhile_eq_self_iff]
    intro hne hlast
    rw [beq_iff_eq] at hlast
    rw [validRelativePath, Bool.or_eq_true, beq_iff_eq] at hvalid
    have hend := (Bool.and_eq_true _ _ ▸ hvalid.resolve_left hne).1
    rw [Bool.and_eq_true] at hend
    have hend := hend.2
    rw [List.getLast?_eq_some_getLast hne, hlast] at hend
    simp at hend
  rw [linkName, htrim] at h
  split at h
  next hdot => exact .inr hdot
  next => exact .inl h

/-- Requests with valid paths that pass the guards leave a root. -/
theorem LinkedAll.new_ne_none {E : Encoding} {requests : List LinkRequest} {old : BlobAddr}
    {new : Option BlobAddr} (h : LinkedAll E requests (some old) new)
    (hvalid : ∀ request ∈ requests, validRelativePath request.path = true)
    (hguard : ∀ request ∈ requests, ¬ request.unlinksRoot) : new ≠ none := by
  rcases List.eq_nil_or_concat requests with rfl | ⟨before, last, rfl⟩
  · rw [LinkedAll] at h
    rw [h]
    exact Option.some_ne_none old
  · rw [List.concat_eq_append] at h hvalid hguard
    obtain ⟨middle, hlast⟩ := h.snoc
    by_cases hname : linkName last.path = []
    · refine hlast.new_ne_none fun hnil => hguard last (by simp) ?_
      exact ⟨root_of_valid (hvalid last (by simp)) hname, hnil⟩
    · obtain ⟨addr, haddr, -⟩ := hlast.isDir hname
      rw [haddr]
      exact Option.some_ne_none addr

/-- However `handleLink` ends, the tree is the one before it, or that tree with the requests
applied to it. -/
theorem handleLink_tree (hdense : E.sparse = false) (hH : H.ReadOnly E.toEncoding)
    (h : Inv E.toEncoding holders s) (requests : List LinkRequest) (principal : PrincipalRef) :
    ∃ root, Standing E.toEncoding root (handleLink E H requests principal s).2 ∧
      (root = s.rootAddr ∨ LinkedAll E.toEncoding requests (some s.rootAddr) (some root)) := by
  by_cases hinvalid : (requests.isEmpty || !requests.all fun request =>
      validRelativePath request.path) = true
  · refine ⟨s.rootAddr, ?_, .inl rfl⟩
    rw [handleLink, if_pos hinvalid]
    exact ⟨holders, h, rfl⟩
  have haccepted := Bool.eq_false_iff.mpr hinvalid
  have hvalid : ∀ request ∈ requests, validRelativePath request.path = true := by
    rw [Bool.or_eq_false_iff, Bool.not_eq_false', List.all_eq_true] at haccepted
    exact haccepted.2
  have hspec := multiLink_spec hdense hH h requests true principal
  rw [wp] at hspec
  rcases hrun : multiLink E H requests true principal s with ⟨halt | response, t⟩
  · rw [hrun] at hspec
    have hnone : ∀ halt', (∀ e, halt' ≠ .err e) → halt = halt' →
        ¬ LinkedAll E.toEncoding requests (some s.rootAddr) none := by
      rintro halt' hhalt rfl hlinked
      rcases multiLink_checked hdense h hrun with ⟨e, he⟩ | hall
      · cases he
        exact hhalt e rfl
      · exact hlinked.new_ne_none hvalid (fun request hrequest => (hall request hrequest).1) rfl
    cases halt with
    | err e =>
        have hkept : Kept E.toEncoding 0 s t := hspec
        refine ⟨s.rootAddr, ?_, .inl rfl⟩
        rw [handleLink_failed haccepted hrun]
        exact ⟨holders, h.kept hkept, hkept.quiet.rootAddr⟩
    | crash c => exact absurd hspec.2 (hnone (.crash c) (fun _ h => by cases h) rfl)
    | dangling a => exact absurd hspec.2 (hnone (.dangling a) (fun _ h => by cases h) rfl)
    | outOfFuel => exact absurd hspec.2 (hnone .outOfFuel (fun _ h => by cases h) rfl)
  · rw [hrun] at hspec
    obtain ⟨ht, hlinked, -⟩ := hspec
    have hkeep := keepEntries_stands hdense ((response.map (·.paths)).getD []) ht
    rw [wp] at hkeep
    rcases hentries : keepEntries E ((response.map (·.paths)).getD []) t with ⟨r, u⟩
    rw [hentries] at hkeep
    refine ⟨t.rootAddr, ?_, .inr hlinked⟩
    rw [handleLink_linked haccepted hrun]
    rcases r with halt | a
    · by_cases hhalt : ∃ e, halt = .err e
      · obtain ⟨e, rfl⟩ := hhalt
        rw [tryErr_run_error hentries]
        exact hkeep.1
      · rw [tryErr_run_halt hentries fun e he => hhalt ⟨e, he⟩]
        exact hkeep.1
    · rw [tryErr_run hentries]
      exact hkeep.1

/-! ## One upload -/

theorem Inv.onlyBlobs {E : Encoding} (h : Inv E holders s) (ht : Sound E 0 t)
    (honly : OnlyBlobs s t) : Inv E holders t ∧ t.rootAddr = s.rootAddr := by
  obtain ⟨blobs, ticks, rfl⟩ := honly
  exact ⟨⟨ht, h.counted, h.outside⟩, rfl⟩

/-- An upload touches nothing but the blob store, and takes no reference away. -/
theorem handleBlobUpload_spec (hs : Sound E.toEncoding held s) (addr : BlobAddr) (body : Bytes) :
    wp (handleBlobUpload E addr body)
      (post (fun _ t => Sound E.toEncoding held t ∧ OnlyBlobs s t) (fun _ => False)) s := by
  rw [handleBlobUpload, wp_get_bind]
  cases hfile : s.blobStore.lookup addr with
  | some file =>
      simp only
      have hread := wp_of_run (readFile_spec hs addr) (readFile_run hfile)
      rw [wp_bind_run (readFile_run hfile)]
      refine wp_post_bind (releaseBlob_spec hread.1) ?_ (fun _ h => h)
      rintro _ t ⟨ht, hst⟩
      exact ⟨ht, hread.2.1.trans hst⟩
  | none =>
      simp only
      refine wp_post_bind (addDataBlock_spec hs body) ?_ (fun _ h => h)
      rintro _ t ⟨rfl, ht, hst⟩
      split
      · refine wp_post_bind (releaseBlob_spec ht) ?_ (fun _ h => h)
        rintro _ u ⟨hu, htu⟩
        exact ⟨hu, hst.trans htu⟩
      · exact ⟨ht.mono (Multiset.le_cons_self _ _), hst⟩

theorem uploadMissingBlob_spec (hs : Sound E.toEncoding held s) {cache : BlobCache}
    {addr : BlobAddr} (hrun : uploadMissingBlob E cache addr s = some t) :
    Sound E.toEncoding held t ∧ OnlyBlobs s t := by
  unfold uploadMissingBlob at hrun
  split at hrun
  next bytes hbytes =>
    have hspec := handleBlobUpload_spec hs addr bytes
    rw [wp] at hspec
    split at hrun
    next hupload =>
      cases hrun
      rw [hupload] at hspec
      exact hspec
    next => cases hrun
  next =>
    split at hrun
    · cases hrun
      exact ⟨hs, .refl s⟩
    · cases hrun

/-! ## The loop -/

/-- However the loop ends, the tree is the one before it or has been written once; the
loop has written if it ends with success, and not if the assertions failed. -/
theorem serverMultiLink_tree (hdense : E.sparse = false) (hH : H.ReadOnly E.toEncoding)
    (h : Standing E.toEncoding root s) (cache : BlobCache) (request : LinkRequest)
    (hvalue : request.newAddr ≠ []) (principal : PrincipalRef) (fuel : ℕ) :
    ∃ ending asked t root', serverMultiLink E H cache [request] principal fuel s =
        ⟨ending, asked, t⟩ ∧ Standing E.toEncoding root' t ∧
      ((root' = root ∧ ∀ response, ending ≠ some (.done response)) ∨
        (Writes E.toEncoding { request with path := normalizePath request.path } root root' ∧
          ending ≠ some (.refused .assertion))) := by
  rw [serverMultiLink, postedRequests, List.map_singleton]
  generalize ([] : List BlobAddr) = asked
  induction fuel generalizing s asked with
  | zero => exact ⟨none, asked, s, root, rfl, h, .inl ⟨rfl, fun _ h => by cases h⟩⟩
  | succ fuel ih =>
      obtain ⟨holders, hinv, hroot⟩ := h
      obtain ⟨attempt, t, hpost, hcases⟩ := postLink_tree hdense hH hinv
        { request with path := normalizePath request.path } hvalue principal
      rw [Resupply.run, hpost]
      rcases hcases with ⟨ht, hroot', hdone⟩ | ⟨root', ht, hwrites, hlacks, hassertion⟩
      · have hstanding : Standing E.toEncoding root t := ⟨holders, ht, hroot'.trans hroot⟩
        cases attempt with
        | done response => exact absurd rfl (hdone response)
        | refused reason => exact ⟨_, _, t, root, rfl, hstanding, .inl ⟨rfl, fun _ h => by cases h⟩⟩
        | lacks blob =>
            simp only
            split
            · exact ⟨_, _, t, root, rfl, hstanding, .inl ⟨rfl, fun _ h => by cases h⟩⟩
            · cases hupload : uploadMissingBlob E cache blob t with
              | none => exact ⟨_, _, t, root, rfl, hstanding, .inl ⟨rfl, fun _ h => by cases h⟩⟩
              | some u =>
                  obtain ⟨hsound, honly⟩ := uploadMissingBlob_spec ht.sound hupload
                  obtain ⟨hu, hroot''⟩ := ht.onlyBlobs hsound honly
                  exact ih ⟨holders, hu, hroot''.trans (hroot'.trans hroot)⟩ _
      · rw [hroot] at hwrites
        cases attempt with
        | done response => exact ⟨_, _, t, root', rfl, ht, .inr ⟨hwrites, by rintro ⟨⟩⟩⟩
        | lacks blob => exact absurd rfl (hlacks blob)
        | refused reason =>
            refine ⟨_, _, t, root', rfl, ht, .inr ⟨hwrites, ?_⟩⟩
            rintro ⟨⟩
            exact hassertion rfl

/-! ## The loop succeeds -/

/-- The loop ends with success where the client holds the trees that it links: a blob
that was uploaded is kept, so the server does not ask for it again. -/
theorem serverMultiLink_succeeds (hdense : E.sparse = false) (hH : H.ReadOnly E.toEncoding)
    (h : Inv E.toEncoding holders s) {cache : BlobCache} (hproper : cache.Proper E.toEncoding)
    (requests : List LinkRequest) (principal : PrincipalRef) (hne : requests ≠ [])
    (htrees : ∀ request ∈ requests,
      request.newAddr = [] ∨ cache.HasTree E.toEncoding request.newAddr)
    (hvalid : ∀ request ∈ postedRequests requests, validRelativePath request.path = true)
    (happlicable : Applicable E.toEncoding (postedRequests requests) s.rootAddr)
    (hgrant : H.Grant E.toEncoding cache.blobs s.rootAddr (postedRequests requests) principal)
    (hchecks : ∀ request ∈ postedRequests requests,
      checkAssertions E request s = (.ok (), s)) {fuel : ℕ} (hfuel : cache.keys.card < fuel) :
    ∃ response asked t, serverMultiLink E H cache requests principal fuel s =
      ⟨some (.done response), asked, t⟩ := by
  have hne' : postedRequests requests ≠ [] := by
    rwa [postedRequests, Ne, List.map_eq_nil_iff]
  have hloop : ∀ (fuel : ℕ) (asked : List BlobAddr) (t : NameStore), Inv E.toEncoding holders t →
      t.rootAddr = s.rootAddr → Sound E.toEncoding asked t → asked.Nodup →
      (∀ blob ∈ asked, blob ∈ cache) → cache.keys.card < fuel + asked.length →
      ∃ response asked' u, Resupply.run (postLink E H (postedRequests requests) principal)
        (uploadMissingBlob E cache) fuel asked t = ⟨some (.done response), asked', u⟩ := by
    intro fuel
    induction fuel with
    | zero =>
        intro asked t _ _ _ hnodup hasked hlength
        have hsub : asked.toFinset ⊆ cache.keys := by
          intro blob hblob
          exact Finmap.mem_keys.mpr (hasked blob (List.mem_toFinset.mp hblob))
        have hcard := Finset.card_le_card hsub
        rw [List.toFinset_card_of_nodup hnodup] at hcard
        omega
    | succ fuel ih =>
        intro asked t ht hroot hheld hnodup hasked hlength
        have hvalues : ValuesOffered E.toEncoding cache.blobs t (postedRequests requests) := by
          intro request hrequest
          obtain ⟨original, horiginal, rfl⟩ := List.mem_map.mp hrequest
          exact (htrees original horiginal).imp_right fun htree => htree.offered
        have hchecks' : ∀ request ∈ postedRequests requests,
            checkAssertions E request t = (.ok (), t) := fun request hrequest =>
          checkAssertions_agrees hdense h ht hroot (hchecks request hrequest)
        rw [Resupply.run]
        rcases postLink_lacks hdense hH ht hne' hvalid (hroot ▸ hgrant) hchecks'
          (hroot ▸ happlicable) hvalues with
          ⟨response, u, hpost⟩ | ⟨blob, u, hpost, hblob, hmissing, hu, hroot', hkeeps⟩
        · exact ⟨response, asked, u, by rw [hpost]⟩
        · have hheld' := hkeeps _ hheld
          have hnew : blob ∉ asked := by
            intro hold
            have hcount : 0 < (asked : Multiset BlobAddr).count blob :=
              Multiset.count_pos.mpr hold
            obtain ⟨file, hfile, -⟩ := hheld'.exists_blob
              (show 0 < cacheRefs u blob + (asked : Multiset BlobAddr).count blob by omega)
            exact hmissing ⟨file, hfile⟩
          obtain ⟨v, hupload, hv, hroot'', -, hkeeps'⟩ :=
            uploadMissingBlob_run hu hproper hblob hmissing
          have hasked' : Sound E.toEncoding ((asked ++ [blob] : List BlobAddr) : Multiset BlobAddr)
              v := by
            have hperm := Multiset.coe_eq_coe.mpr (List.perm_append_singleton blob asked)
            rw [hperm]
            exact hkeeps' _ hheld'
          rw [hpost]
          simp only [if_neg hnew, hupload]
          refine ih (asked ++ [blob]) v hv (hroot''.trans (hroot'.trans hroot)) hasked' ?_ ?_ ?_
          · rw [List.nodup_append]
            refine ⟨hnodup, List.nodup_singleton _, ?_⟩
            intro other hother last hlast heq
            rw [List.mem_singleton] at hlast
            subst hlast heq
            exact hnew hother
          · intro other hother
            rcases List.mem_append.mp hother with hold | hlast
            · exact hasked other hold
            · rw [List.mem_singleton.mp hlast]
              exact hblob
          · rw [List.length_append, List.length_singleton]
            omega
  exact hloop fuel [] s h rfl h.sound List.nodup_nil (by simp) (by simpa using hfuel)

end Grits
