import Grits.Auth.Enforcement

/-!
# The auth callbacks only read

In every sound store whose root is loaded, whatever the trees they are asked
about, the callbacks return, and change nothing that is counted or committed.
None of their calls of `FatalIfBlobMissing` ends the process: each is about a
node that the resolver has just put into the cache.
-/

namespace Grits

open Prog SlashPath

variable {E : Env} {held : Multiset BlobAddr} {s t : NameStore} {m : AuthModule}

/-! ## Errors that do not end the process -/

section Mild

variable {α : Type} {P : α → NameStore → Prop} {Q : NameStore → Prop}

/-- The call returns a value with `P`, or with `Q` an error that is not about a
missing blob. -/
def postMild (P : α → NameStore → Prop) (Q : NameStore → Prop) :
    Except Halt α → NameStore → Prop
  | .ok a, t => P a t
  | .error (.err e), t => isBlobMissing e = none ∧ Q t
  | .error _, _ => False

theorem wp_fatalIfBlobMissing {call : Op α} (h : wp call (postMild P Q) s) :
    wp (fatalIfBlobMissing call) (post P Q) s := by
  refine wp_catching h (fun _ _ h => h) ?_
  intro halt t hpost
  cases halt with
  | err e =>
      obtain ⟨hmild, hQ⟩ := hpost
      simp only [hmild]
      exact hQ
  | crash c => exact hpost.elim
  | dangling a => exact hpost.elim
  | outOfFuel => exact hpost.elim

theorem wp_wrapErr {call : Op α} (text : GoString) (h : wp call (post P Q) s) :
    wp (wrapErr text call) (post P Q) s :=
  wp_catching_err h (fun _ _ h => h) (fun _ _ h => h)

/-- A call that always returns a value is mild. -/
theorem wp_mild_of_ok {call : Op α} (h : wp call (post P (fun _ => False)) s) :
    wp call (postMild P Q) s := by
  refine wp_mono h ?_
  rintro (halt | a) t hpost
  · cases halt <;> exact hpost.elim
  · exact hpost

end Mild

/-! ## Reading nodes -/

theorem parseAccessConfig_spec {u : NameStore} (hsu : Kept E.toEncoding held s u)
    (dirPath : GoString) (data : Bytes) :
    wp (parseAccessConfig m dirPath data)
      (post (fun _ t => Kept E.toEncoding held s t) (Kept E.toEncoding held s)) u := by
  unfold parseAccessConfig
  split
  next => exact hsu
  next => exact hsu

section

variable (hs : Sound E.toEncoding held s) (hdense : E.sparse = false)

include hs

theorem getFileNode_cached {addr : BlobAddr} (hcached : Cached s addr) :
    wp (getFileNode E addr) (post (fun _ t => Sound E.toEncoding held t ∧
      Quiet (Pi.single addr 1) s t) (fun _ => False)) s := by
  unfold getFileNode
  rw [wp_bind_run (loadFileNode_cached hcached)]
  exact takeNode_spec hs hcached

theorem nodeContent_spec {addr : BlobAddr} (text : GoString) (hcached : Cached s addr) :
    wp (do
      wrapErr text (fatalIfBlobMissing (exportedBlob addr))
      let node ← getNode addr
      readAll node.metadata.contentHash : Op Bytes)
      (post (fun _ t => Kept E.toEncoding held s t) (Kept E.toEncoding held s)) s := by
  obtain ⟨node, hnode⟩ := id hcached
  obtain ⟨file, hfile⟩ := hs.exists_content hnode
  have hexport := wrapErr_run text (fatalIfBlobMissing_run (exportedBlob_cached hs hcached))
  rw [wp_bind_run hexport, wp_getNode_bind hnode, wp, readAll_run hfile]
  exact hs.kept

include hdense

/-- Taking a cached node, reading its content and releasing it. -/
theorem readAndRelease_spec {addr : BlobAddr} (text : GoString)
    (hcached : Cached s addr) (ht : Sound E.toEncoding held t) (hst : Quiet (Pi.single addr 1) s t) :
    wp (readAndRelease E text addr)
      (post (fun _ u => Kept E.toEncoding held s u) (Kept E.toEncoding held s)) t :=
  releasing_spec hdense hs.kept ⟨hcached, hst⟩ (nodeContent_spec ht text (hcached.quiet hst))

/-! ## Reading `access.json` -/

theorem readAccessConfigFromRoot_spec {root : BlobAddr} (hroot : Cached s root)
    {dirPath : GoString} (hrel : isRooted dirPath = false) :
    wp (readAccessConfigFromRoot m E root dirPath)
      (post (fun _ t => Kept E.toEncoding held s t) (Kept E.toEncoding held s)) s := by
  unfold readAccessConfigFromRoot
  have hstart : Cached s ((some root).getD s.rootAddr) := hroot
  have hresolve := resolveFromLocal_cached hs hdense (isRooted_accessPath hrel) hstart
  refine wp_post_bind (wp_wrapErr _ (wp_fatalIfBlobMissing (Q := Kept E.toEncoding held s)
    (wp_mild_of_ok hresolve))) ?_ (fun _ h => h)
  rintro response t ⟨ht, -, hentries⟩
  cases hleaf : response.leaf with
  | none => exact ht
  | some leaf =>
      simp only
      split
      next => exact ht
      next herror =>
        rw [not_not] at herror
        have hmem : leaf ∈ response.paths := List.mem_of_getLast? hleaf
        have hcached := hentries.cached leaf hmem herror
        have hget := getFileNode_cached ht.sound hcached
        refine wp_post_bind (wp_wrapErr _ (wp_fatalIfBlobMissing
          (Q := Kept E.toEncoding held s) (wp_mild_of_ok hget))) ?_ (fun _ h => h)
        rintro _ u ⟨hu, htu⟩
        refine wp_post_bind (readAndRelease_spec ht.sound hdense _ hcached hu htu) ?_
          (fun _ h => ht.trans h)
        intro data v hv
        exact parseAccessConfig_spec (ht.trans hv) dirPath data

/-- `Lookup` for the backend, who passes by the callbacks. -/
theorem lookup_backend_spec (hlive : Cached s s.rootAddr) {path : GoString}
    (hrel : isRooted (trimRight path) = false) :
    wp (lookup E [] [path] [] .backend) (post
      (fun response t => Kept E.toEncoding held s t ∧
        ∀ pair ∈ response.paths, pair.error = none → Cached t pair.addr)
      (fun _ => False)) s := by
  have hstep : wp (lookupStep E none [] path) (post
      (fun paths t => Kept E.toEncoding held s t ∧
        ∀ pair ∈ paths, pair.error = none → Cached t pair.addr) (fun _ => False)) s := by
    have hstart : Cached s (Option.getD none s.rootAddr) := hlive
    refine wp_post_bind (resolveFromLocal_cached hs hdense ?_ hstart) ?_ (fun _ h => h)
    · rwa [trimRight_trimRight]
    · rintro response t ⟨ht, -, hentries⟩
      exact ⟨ht, fun pair hpair => hentries.cached pair
        ((appendUnseen_subset [] _ pair hpair).resolve_left List.not_mem_nil)⟩
  have hentries : wp (do
      let entries ← Prog.loop (lookupStep E none) [] [path]
      runLookupCallbacks [] ⟨[path], [], .backend⟩ none ⟨entries, s.serialNumber⟩ :
        Op LookupResponse) (post
      (fun response t => Kept E.toEncoding held s t ∧
        ∀ pair ∈ response.paths, pair.error = none → Cached t pair.addr)
      (fun _ => False)) s := by
    rw [loop_cons]
    refine wp_post_bind (wp_post_bind hstep ?_ (fun _ h => h)) (fun _ _ h => h) (fun _ h => h)
    intro paths t ht
    exact ht
  unfold lookup
  rw [wp_get_bind]
  change wp (releasing E none _) _ s
  unfold releasing
  refine wp_post_bind (wp_tryErr (R := fun r t => ∃ response, r = .ok response ∧
      Kept E.toEncoding held s t ∧ ∀ pair ∈ response.paths, pair.error = none →
        Cached t pair.addr) (S := fun _ => False) hentries
    (fun response _ h => ⟨response, rfl, h⟩) (fun _ _ h => h.elim)) ?_ (fun _ h => h)
  rintro _ t ⟨response, rfl, h⟩
  exact h

theorem lookupNode_backend_spec (hlive : Cached s s.rootAddr) {path : GoString}
    (hrel : isRooted (trimRight path) = false) :
    wp (lookupNode E [] path .backend) (postMild
      (fun addr t => ∃ u, Kept E.toEncoding held s u ∧ Cached u addr ∧
        Sound E.toEncoding held t ∧ Quiet (Pi.single addr 1) u t)
      (Kept E.toEncoding held s)) s := by
  rw [← trimRight_trimRight] at hrel
  unfold lookupNode
  refine wp_bind (lookup_backend_spec hs hdense hlive hrel) ?_ ?_
  swap
  · intro halt t hpost
    cases halt <;> exact hpost.elim
  rintro response t ⟨ht, hcached⟩
  cases hleaf : response.leaf with
  | none => exact ⟨rfl, ht⟩
  | some leaf =>
      simp only
      split
      next => exact ⟨rfl, ht⟩
      next => exact ⟨rfl, ht⟩
      next => exact ⟨rfl, ht⟩
      next herror =>
        split
        next => exact ⟨rfl, ht⟩
        next =>
          have hmem : leaf ∈ response.paths := List.mem_of_getLast? hleaf
          have haddr := hcached leaf hmem herror
          refine wp_bind (getFileNode_cached ht.sound haddr) ?_ ?_
          · rintro _ u ⟨hu, htu⟩
            exact ⟨t, ht, haddr, hu, htu⟩
          · intro halt u hpost
            cases halt <;> exact hpost.elim

-- from here on `lookupNode` is known by its specification
attribute [local irreducible] lookupNode

theorem readAccessConfig_spec (hlive : Cached s s.rootAddr) {dirPath : GoString}
    (hrel : isRooted dirPath = false) :
    wp (readAccessConfig m E dirPath)
      (post (fun _ t => Kept E.toEncoding held s t) (Kept E.toEncoding held s)) s := by
  have hread : wp (readVolumeFile E (accessPath dirPath))
      (post (fun _ t => Kept E.toEncoding held s t) (Kept E.toEncoding held s)) s := by
    unfold readVolumeFile
    have hnode := wp_fatalIfBlobMissing
      (lookupNode_backend_spec hs hdense hlive (isRooted_accessPath hrel))
    refine wp_post_bind (wp_wrapErr _ hnode) ?_ (fun _ h => h)
    rintro node t ⟨u, hsu, hcached, ht, hut⟩
    exact wp_post_mono (readAndRelease_spec hsu.sound hdense _ hcached ht hut)
      (fun _ _ h => hsu.trans h) (fun _ h => hsu.trans h)
  have htried : wp (tryErr (readVolumeFile E (accessPath dirPath)))
      (post (fun _ t => Kept E.toEncoding held s t) (fun _ => False)) s :=
    wp_tryErr hread (fun _ _ h => h) (fun _ _ h => h)
  unfold readAccessConfig
  refine wp_post_bind htried ?_ (fun _ h => h.elim)
  rintro (e | data) t ht
  · simp only
    split
    next => exact ht
    next => exact ht
  · exact parseAccessConfig_spec ht dirPath data

theorem matchingGrants_spec (hlive : Cached s s.rootAddr) {root : Option BlobAddr}
    (hroot : CachedIfSome s root) (principal : Principal) {dirPath : GoString}
    (hrel : isRooted dirPath = false) :
    wp (matchingGrants m E root principal dirPath)
      (post (fun _ t => Kept E.toEncoding held s t) (fun _ => False)) s := by
  have hread : wp (readAccessConfigAtRoot m E root dirPath)
      (post (fun _ t => Kept E.toEncoding held s t) (Kept E.toEncoding held s)) s := by
    cases root with
    | none => exact readAccessConfig_spec hs hdense hlive hrel
    | some root => exact readAccessConfigFromRoot_spec hs hdense (hroot root rfl) hrel
  have htried : wp (tryErr (readAccessConfigAtRoot m E root dirPath))
      (post (fun _ t => Kept E.toEncoding held s t) (fun _ => False)) s :=
    wp_tryErr hread (fun _ _ h => h) (fun _ _ h => h)
  unfold matchingGrants
  refine wp_post_bind htried ?_ (fun _ h => h)
  rintro (e | _ | cfg) t ht
  · exact ht
  · exact ht
  · exact ht

end

/-! ## Permissions -/

theorem collectGrants_spec (hdense : E.sparse = false) {root : Option BlobAddr}
    (principal : Principal) {segments dir : List GoString}
    (hsegments : ∀ seg ∈ segments, '/' ∉ seg) (hdir : Names dir) (buckets : Buckets)
    (hs : Sound E.toEncoding held s) (hlive : Cached s s.rootAddr)
    (hroot : CachedIfSome s root) :
    wp (collectGrants m E root principal segments (join dir) buckets)
      (post (fun _ t => Kept E.toEncoding held s t) (fun _ => False)) s := by
  induction segments generalizing dir buckets s with
  | nil => exact hs.kept
  | cons seg rest ih =>
      have hrest : ∀ seg ∈ rest, '/' ∉ seg := fun other hother =>
        hsegments other (List.mem_cons_of_mem _ hother)
      rw [collectGrants]
      by_cases hseg : seg = []
      · rw [if_pos hseg]
        exact ih hrest hdir buckets hs hlive hroot
      · rw [if_neg hseg]
        have hnames : Names (dir ++ [seg]) := hdir.concat hseg (hsegments seg List.mem_cons_self)
        simp only [join_extend hdir]
        refine wp_post_bind (matchingGrants_spec hs hdense hlive hroot principal
          (isRooted_join hnames)) ?_ (fun _ h => h)
        intro grants t ht
        exact wp_post_mono (ih hrest hnames _ ht.sound (hlive.root_quiet ht.quiet)
          (hroot.kept ht)) (fun _ _ h => ht.trans h) (fun _ h => h)

theorem hasPermissionAtRoot_spec (hs : Sound E.toEncoding held s) (hdense : E.sparse = false)
    (hlive : Cached s s.rootAddr) {root : Option BlobAddr} (hroot : CachedIfSome s root)
    (path : GoString) (principal : PrincipalRef) (required : Permission) :
    wp (hasPermissionAtRoot m E root path principal required)
      (post (fun _ t => Kept E.toEncoding held s t) (fun _ => False)) s := by
  cases principal with
  | backend => exact hs.kept
  | of principal =>
      have hsegments : ∀ seg ∈ split (trimRight path), '/' ∉ seg :=
        fun _ => slash_notMem_of_mem_split
      have hcollect := collectGrants_spec (m := m) hdense principal hsegments names_nil
        ⟨[], [], []⟩ hs hlive hroot
      refine wp_post_bind (P := fun _ t => Kept E.toEncoding held s t) (Q := fun _ => False) ?_
        (fun _ _ h => h) (fun _ h => h)
      refine wp_post_bind hcollect ?_ (fun _ h => h)
      intro buckets t ht
      refine wp_post_bind (matchingGrants_spec ht.sound hdense (hlive.root_quiet ht.quiet)
        (hroot.kept ht) principal rfl) ?_ (fun _ h => h)
      intro grants u hu
      exact ht.trans hu

/-! ## The callbacks -/

theorem makeLookupCallback_readOnly (m : AuthModule) (hdense : E.sparse = false) :
    (makeLookupCallback m E).ReadOnly E.toEncoding := by
  intro held s response request root hs hlive hroot
  refine wp_post_bind (P := fun _ t => Kept E.toEncoding held s t)
    (Q := Kept E.toEncoding held s) ?_ (fun _ _ h => h) (fun _ h => h)
  refine wp_post_loop_const hs.kept ?_
  intro pair _ result t ht
  unfold pruneStep
  refine wp_post_bind (hasPermissionAtRoot_spec ht.sound hdense (hlive.root_quiet ht.quiet)
    (CachedIfSome.kept hroot ht) _ _ _) ?_ (fun _ h => h.elim)
  intro permitted u hu
  cases permitted with
  | true => exact ht.trans hu
  | false => exact ht.trans hu

theorem existsAtRoot_spec (hs : Sound E.toEncoding held s) (hdense : E.sparse = false)
    {root : Option BlobAddr} (hroot : CachedIfSome s root) (path : GoString) :
    wp (existsAtRoot E path root)
      (post (fun _ t => Kept E.toEncoding held s t) (fun _ => False)) s := by
  cases root with
  | none => exact hs.kept
  | some root =>
      refine wp_post_bind (wp_tryErr (R := fun _ t => Kept E.toEncoding held s t)
        (S := fun _ => False) (resolveFromLocal_spec hs hdense path hroot) (fun _ _ h => h)
        (fun _ _ h => h)) ?_ (fun _ h => h)
      rintro (e | response) t ht
      · exact ht
      · exact ht

theorem checkLink_spec (hs : Sound E.toEncoding held s) (hdense : E.sparse = false)
    (hlive : Cached s s.rootAddr) {oldRoot : Option BlobAddr} (hroot : CachedIfSome s oldRoot)
    (principal : PrincipalRef) (request : LinkRequest) :
    wp (checkLink m E oldRoot principal request)
      (post (fun _ t => Kept E.toEncoding held s t) (Kept E.toEncoding held s)) s := by
  unfold checkLink
  refine wp_post_bind (hasPermissionAtRoot_spec hs hdense hlive hroot _ _ _) ?_
    (fun _ h => h.elim)
  intro writes t ht
  cases writes with
  | true => exact ht
  | false =>
      refine wp_post_bind (hasPermissionAtRoot_spec ht.sound hdense (hlive.root_quiet ht.quiet)
        (hroot.kept ht) _ _ _) ?_ (fun _ h => h.elim)
      intro inserts u hu
      have hsu := ht.trans hu
      cases inserts with
      | false => exact hsu
      | true =>
          refine wp_post_bind (existsAtRoot_spec hu.sound hdense (hroot.kept hsu) _) ?_
            (fun _ h => h.elim)
          intro found v hv
          cases found with
          | true => exact hsu.trans hv
          | false => exact hsu.trans hv

theorem makeLinkCallback_readOnly (m : AuthModule) (hdense : E.sparse = false) :
    (makeLinkCallback m E).ReadOnly E.toEncoding := by
  intro held s oldRoot newRoot requests principal hs hlive hroot _
  refine wp_post_loop_const hs.kept ?_
  intro request _ _ t ht
  exact wp_post_mono (checkLink_spec ht.sound hdense (hlive.root_quiet ht.quiet)
    (hroot.kept ht) principal request) (fun _ _ h => ht.trans h) (fun _ h => ht.trans h)

end Grits
