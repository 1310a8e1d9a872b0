import Grits.NameStore.MultiLink
import Grits.NameStore.HeldTree

/-!
# Phases 1 to 4 of a link

Everything `MultiLink` does before it commits is quiet, and the new root it
works out is the old one with the requests applied one after another
(`LinkedAll`).
-/

namespace Grits

open Prog SlashPath

variable {E : Env} {H : Hooks} {held : Multiset BlobAddr} {s t : NameStore}

/-! ## What a request asks for -/

/-- The value a request links: none if it unlinks. -/
def LinkRequest.value (request : LinkRequest) : Option BlobAddr :=
  if request.newAddr = [] then none else some request.newAddr

theorem LinkRequest.value_of_ne {request : LinkRequest} (h : request.newAddr ≠ []) :
    request.value = some request.newAddr := if_neg h

/-- The names from the root down to the entry a request writes. -/
def LinkRequest.segments (request : LinkRequest) : List GoString :=
  if linkName request.path = [] then [] else split (linkName request.path)

/-- One request takes the tree `old` to the tree `new`. -/
structure Linked (E : Encoding) (request : LinkRequest) (old new : Option BlobAddr) : Prop where
  relative : isRooted (trimRight request.path) = false
  readable : ∃ addr children, old = some addr ∧ E.Reads addr children
  updated : PathTree.Updated E.entries E.Reads request.segments request.value old new
  rebuilt : PathTree.Rebuilt E.entries E.MadeDirectory request.segments old new

/-- The requests take the tree `old` to the tree `new`, one after another. -/
def LinkedAll (E : Encoding) : List LinkRequest → Option BlobAddr → Option BlobAddr → Prop
  | [], old, new => new = old
  | request :: requests, old, new =>
      ∃ middle, Linked E request old middle ∧ LinkedAll E requests middle new

theorem LinkedAll.concat {E : Encoding} {requests : List LinkRequest} {request : LinkRequest}
    {old middle new : Option BlobAddr} (h : LinkedAll E requests old middle)
    (hlast : Linked E request middle new) : LinkedAll E (requests ++ [request]) old new := by
  induction requests generalizing old with
  | nil =>
      rw [LinkedAll] at h
      subst h
      exact ⟨new, hlast, rfl⟩
  | cons first rest ih =>
      obtain ⟨next, hfirst, hrest⟩ := h
      exact ⟨next, hfirst, ih hrest⟩

theorem LinkedAll.relative {E : Encoding} {requests : List LinkRequest} {old new : Option BlobAddr}
    (h : LinkedAll E requests old new) :
    ∀ request ∈ requests, isRooted (trimRight request.path) = false := by
  induction requests generalizing old with
  | nil =>
      intro request hrequest
      cases hrequest
  | cons first rest ih =>
      obtain ⟨middle, hfirst, hrest⟩ := h
      intro request hrequest
      rcases List.mem_cons.mp hrequest with rfl | hrequest
      · exact hfirst.relative
      · exact ih hrest request hrequest

/-- The requests as updates of a tree. -/
def updatesOf (requests : List LinkRequest) : List (List GoString × Option BlobAddr) :=
  requests.map fun request => (request.segments, request.value)

theorem LinkedAll.updatedAll {E : Encoding} {requests : List LinkRequest}
    {old new : Option BlobAddr} (h : LinkedAll E requests old new) :
    PathTree.UpdatedAll E.entries E.Reads (updatesOf requests) old new := by
  induction requests generalizing old with
  | nil => exact h
  | cons request requests ih =>
      obtain ⟨middle, hfirst, hrest⟩ := h
      exact ⟨middle, hfirst.updated, ih hrest⟩

/-! ## One level of a link -/

theorem lookup_putChild (children : Children) (name : GoString) (value : Option BlobAddr) :
    (fun other => (putChild children name value).lookup other) =
      Function.update (fun other => children.lookup other) name value := by
  funext other
  by_cases h : other = name
  · subst h
    rw [Function.update_self]
    cases value with
    | none => exact Finmap.lookup_erase _ _
    | some addr => exact Finmap.lookup_insert _
  · rw [Function.update_of_ne h]
    cases value with
    | none => exact Finmap.lookup_erase_ne h
    | some addr => exact Finmap.lookup_insert_of_ne _ h

theorem lookup_putChild_cases {children : Children} {name other : GoString}
    {value : Option BlobAddr} {addr : BlobAddr}
    (h : (putChild children name value).lookup other = some addr) :
    value = some addr ∨ children.lookup other = some addr := by
  have hlookup := congrFun (lookup_putChild children name value) other
  rw [hlookup] at h
  by_cases hother : other = name
  · subst hother
    rw [Function.update_self] at h
    exact .inl h
  · rw [Function.update_of_ne hother] at h
    exact .inr h

/-- The node is cached, if there is one. -/
def CachedIfSome (s : NameStore) (node : Option BlobAddr) : Prop :=
  ∀ addr, node = some addr → Cached s addr

theorem CachedIfSome.kept {E : Encoding} {node : Option BlobAddr} (h : CachedIfSome s node)
    (hkept : Kept E held s t) : CachedIfSome t node :=
  fun addr haddr => (h addr haddr).kept hkept

theorem cachedIfSome_none : CachedIfSome s none := by
  rintro addr ⟨⟩

theorem cachedIfSome_some {addr : BlobAddr} (h : Cached s addr) : CachedIfSome s (some addr) := by
  rintro _ ⟨⟩
  exact h

theorem notifyWatchers_spec (hs : Sound E.toEncoding held s) (path : GoString)
    (oldValue newValue : Option BlobAddr) :
    wp (notifyWatchers H path oldValue newValue) (post
      (fun _ t => Kept E.toEncoding held s t) (Kept E.toEncoding held s)) s := by
  have hkept : Kept E.toEncoding held s { s with
      notifications := s.notifications ++ [⟨path, oldValue, newValue⟩] } :=
    ⟨{ hs with }, { Quiet.refl s with }⟩
  unfold notifyWatchers
  rw [wp_get_bind]
  simp only [wp_modify_bind]
  split
  next => exact hkept
  next => exact hkept

theorem linkChildren_spec (hs : Sound E.toEncoding held s) {oldParent : Option BlobAddr}
    (hparent : CachedIfSome s oldParent) :
    wp (linkChildren E oldParent) (post
      (fun children t => Kept E.toEncoding held s t ∧
        ∃ addr, oldParent = some addr ∧ ChildrenRead t addr children)
      (Kept E.toEncoding held s)) s := by
  cases oldParent with
  | none => exact hs.kept
  | some addr =>
      refine wp_post_bind (nodeChildren_spec hs (hparent addr rfl)) ?_ (fun _ h => h)
      rintro (_ | children) t ⟨ht, hresult⟩
      · exact ht
      · exact ⟨ht, addr, rfl, hresult⟩

theorem loadOldChild_spec (hs : Sound E.toEncoding held s) (hdense : E.sparse = false)
    (oldChildren : Children) (part : GoString) (isLast : Bool) :
    wp (loadOldChild E oldChildren part isLast) (post
      (fun child t => Kept E.toEncoding held s t ∧ child = oldChildren.lookup part ∧
        CachedIfSome t child)
      (Kept E.toEncoding held s)) s := by
  unfold loadOldChild
  cases hchild : oldChildren.lookup part with
  | none =>
      simp only
      split
      · exact ⟨hs.kept, rfl, cachedIfSome_none⟩
      · exact hs.kept
  | some childAddr =>
      refine wp_post_bind (loadFileNode_spec hs hdense childAddr) ?_ (fun _ h => h)
      rintro _ t ⟨ht, hcached⟩
      exact ⟨ht, rfl, cachedIfSome_some hcached⟩

theorem loadNewValue_spec (hs : Sound E.toEncoding held s) (hdense : E.sparse = false)
    (metadataAddr : BlobAddr) :
    wp (loadNewValue E metadataAddr) (post
      (fun value t => Kept E.toEncoding held s t ∧
        value = (if metadataAddr = [] then none else some metadataAddr) ∧ CachedIfSome t value)
      (Kept E.toEncoding held s)) s := by
  unfold loadNewValue
  split
  next => exact ⟨hs.kept, rfl, cachedIfSome_none⟩
  next =>
    refine wp_post_bind (loadFileNode_spec hs hdense metadataAddr) ?_ (fun _ h => h)
    rintro _ t ⟨ht, hcached⟩
    exact ⟨ht, rfl, cachedIfSome_some hcached⟩

/-- Rebuilding a directory with one child replaced. -/
theorem rebuild_spec (hs : Sound E.toEncoding held s) {addr : BlobAddr} {children : Children}
    (hread : ChildrenRead s addr children) {newChild : Option BlobAddr}
    (hchild : CachedIfSome s newChild) {name : GoString} {path : List GoString}
    {value : Option BlobAddr}
    (hbelow : PathTree.Updated E.entries E.Reads path value (children.lookup name) newChild)
    (hrebuilt : PathTree.Rebuilt E.entries E.MadeDirectory path (children.lookup name) newChild) :
    wp (do let result ← createTreeNode E (putChild children name newChild); pure (some result))
      (post (fun new t => Kept E.toEncoding held s t ∧ CachedIfSome t new ∧
        PathTree.Updated E.entries E.Reads (name :: path) value (some addr) new ∧
        PathTree.Rebuilt E.entries E.MadeDirectory (name :: path) (some addr) new)
      (fun _ => False)) s := by
  obtain ⟨metadata, hmetadata, htype, hreadable⟩ := hread.readable hs
  have hcids : ∀ other child, (putChild children name newChild).lookup other = some child →
      child = [] ∨ IsCid child := by
    intro other child hlookup
    rcases lookup_putChild_cases hlookup with hnew | hold
    · exact .inr ((hchild child hnew).isCid hs)
    · exact hreadable.isCid_or_nil hold
  refine wp_post_bind (createTreeNode_spec hs hcids) ?_ (fun _ h => h)
  rintro result t ⟨ht, hcached, hnew⟩
  have hreadsNew := hnew.reads
  rw [lookup_putChild] at hreadsNew
  -- where the old directory is well formed, so is the new one
  have hentriesNew : ∀ f, E.entries addr = some f →
      f = (fun other => children.lookup other) ∧
        E.entries result = some (Function.update f name newChild) := by
    intro f hentries
    obtain ⟨exact', ⟨metadata', hmetadata', -, hcontent⟩, rfl⟩ :=
      Encoding.exists_dirAt_of_entries hentries
    have hm : metadata' = metadata := hmetadata'.unique hmetadata
    subst hm
    have hwf := hcontent.wellFormed
    rw [← hreadable.eq_of_contentAt hcontent] at hwf ⊢
    have hwfNew : (putChild children name newChild).WellFormed := by
      intro other child hlookup
      rcases lookup_putChild_cases hlookup with hnew | hold
      · exact (hchild child hnew).isCid hs
      · exact hwf other child hold
    refine ⟨rfl, ?_⟩
    rw [(hnew.dirAt hwfNew).entries, lookup_putChild]
  refine ⟨ht, cachedIfSome_some hcached, ?_, ?_⟩
  · exact ⟨addr, result, _, newChild, rfl, rfl, hread.reads hs, hreadsNew,
      fun hentries => (hentriesNew _ hentries).2, hbelow⟩
  · refine ⟨addr, result, rfl, rfl, hnew.plain, fun f hentries => ?_⟩
    obtain ⟨rfl, hkids⟩ := hentriesNew f hentries
    exact ⟨newChild, hkids, hrebuilt⟩

/-! ## A whole request -/

/-- `recursiveLink` of a name that ends in a component. -/
theorem recursiveLink_spec (hdense : E.sparse = false) (metadataAddr : BlobAddr)
    (rest : List GoString) (prevPath part : GoString) (oldParent : Option BlobAddr)
    (hlast : (part :: rest).getLast? ≠ some []) (hs : Sound E.toEncoding held s)
    (hparent : CachedIfSome s oldParent) :
    wp (recursiveLink E H metadataAddr rest prevPath part oldParent) (post
      (fun new t => Kept E.toEncoding held s t ∧ CachedIfSome t new ∧
        PathTree.Updated E.entries E.Reads (part :: rest)
          (if metadataAddr = [] then none else some metadataAddr) oldParent new ∧
        PathTree.Rebuilt E.entries E.MadeDirectory (part :: rest) oldParent new)
      (Kept E.toEncoding held s)) s := by
  induction rest generalizing s prevPath part oldParent with
  | nil =>
      rw [recursiveLink]
      refine wp_post_bind (linkChildren_spec hs hparent) ?_ (fun _ h => h)
      rintro children t ⟨ht, addr, rfl, hread⟩
      refine wp_post_bind (loadOldChild_spec ht.sound hdense children part true) ?_
        (fun _ h => ht.trans h)
      rintro oldChild u ⟨hu, hold, -⟩
      refine wp_post_bind (loadNewValue_spec hu.sound hdense metadataAddr) ?_
        (fun _ h => ht.trans (hu.trans h))
      rintro newValue v ⟨hv, hvalue, hcached⟩
      have htv := hu.trans hv
      refine wp_post_bind (notifyWatchers_spec hv.sound _ oldChild newValue) ?_
        (fun _ h => ht.trans (htv.trans h))
      rintro _ w hw
      have htw := htv.trans hw
      have hpart : part ≠ [] := by simpa using hlast
      rw [if_neg hpart]
      have hbelow : PathTree.Updated E.entries E.Reads []
          (if metadataAddr = [] then none else some metadataAddr)
          (children.lookup part) newValue := hvalue
      refine wp_post_mono (rebuild_spec hw.sound (hread.quiet htw.quiet) (hcached.kept hw)
        hbelow trivial) ?_ (fun _ h => h.elim)
      rintro new x ⟨hx, hnew, hupdated⟩
      exact ⟨ht.trans (htw.trans hx), hnew, hupdated⟩
  | cons next rest ih =>
      rw [recursiveLink]
      refine wp_post_bind (linkChildren_spec hs hparent) ?_ (fun _ h => h)
      rintro children t ⟨ht, addr, rfl, hread⟩
      refine wp_post_bind (loadOldChild_spec ht.sound hdense children part false) ?_
        (fun _ h => ht.trans h)
      rintro oldChild u ⟨hu, rfl, hchild⟩
      have hlast' : (next :: rest).getLast? ≠ some [] := by
        rwa [List.getLast?_cons_cons] at hlast
      refine wp_post_bind (ih _ next _ hlast' hu.sound hchild) ?_
        (fun _ h => ht.trans (hu.trans h))
      rintro newValue v ⟨hv, hcached, hbelow, hrebuilt⟩
      have htv := hu.trans hv
      refine wp_post_mono (rebuild_spec hv.sound (hread.quiet htv.quiet) hcached hbelow
        hrebuilt) ?_ (fun _ h => h.elim)
      rintro new x ⟨hx, hnew, hupdated⟩
      exact ⟨ht.trans (htv.trans hx), hnew, hupdated⟩

/-- `recursiveLink` of the empty name: the root itself is replaced. -/
theorem recursiveLink_root_spec (hdense : E.sparse = false) (metadataAddr : BlobAddr)
    {oldParent : Option BlobAddr} (hs : Sound E.toEncoding held s)
    (hparent : CachedIfSome s oldParent) :
    wp (recursiveLink E H metadataAddr [] [] [] oldParent) (post
      (fun new t => Kept E.toEncoding held s t ∧ CachedIfSome t new ∧
        new = (if metadataAddr = [] then none else some metadataAddr) ∧
        ∃ addr children, oldParent = some addr ∧ E.Reads addr children)
      (Kept E.toEncoding held s)) s := by
  rw [recursiveLink]
  refine wp_post_bind (linkChildren_spec hs hparent) ?_ (fun _ h => h)
  rintro children t ⟨ht, addr, rfl, hread⟩
  refine wp_post_bind (loadOldChild_spec ht.sound hdense children [] true) ?_
    (fun _ h => ht.trans h)
  rintro oldChild u ⟨hu, -, -⟩
  refine wp_post_bind (loadNewValue_spec hu.sound hdense metadataAddr) ?_
    (fun _ h => ht.trans (hu.trans h))
  rintro newValue v ⟨hv, hvalue, hcached⟩
  have htv := hu.trans hv
  refine wp_post_bind (notifyWatchers_spec hv.sound _ oldChild newValue) ?_
    (fun _ h => ht.trans (htv.trans h))
  rintro _ w hw
  exact ⟨ht.trans (htv.trans hw), hcached.kept hw, hvalue, addr, _, rfl, hread.reads ht.sound⟩

theorem getLast?_split_linkName {path : GoString} (h : linkName path ≠ []) :
    (split (linkName path)).getLast? ≠ some [] := by
  refine getLast?_split_ne_nil h ?_
  unfold linkName at h ⊢
  split at h
  next => exact absurd rfl h
  next hdot =>
    rw [if_neg hdot]
    exact getLast?_trimRight_ne_slash path

theorem updated_readable {E : Encoding} {name : GoString} {path : List GoString}
    {value old new : Option BlobAddr}
    (h : PathTree.Updated E.entries E.Reads (name :: path) value old new) :
    ∃ addr children, old = some addr ∧ E.Reads addr children := by
  obtain ⟨addr, -, children, -, hold, -, hreads, -⟩ := h
  exact ⟨addr, children, hold, hreads⟩

theorem applyRequest_spec (hdense : E.sparse = false) (hs : Sound E.toEncoding held s)
    {root : Option BlobAddr} (hroot : CachedIfSome s root) (request : LinkRequest) :
    wp (applyRequest E H root request) (post
      (fun new t => Kept E.toEncoding held s t ∧ CachedIfSome t new ∧
        Linked E.toEncoding request root new)
      (Kept E.toEncoding held s)) s := by
  unfold applyRequest
  cases hrooted : isRooted (trimRight request.path) with
  | true => exact hs.kept
  | false =>
      rw [if_neg (by simp)]
      by_cases hname : linkName request.path = []
      · rw [hname, split_nil]
        refine wp_post_mono (recursiveLink_root_spec hdense request.newAddr hs hroot) ?_
          (fun _ h => h)
        rintro new t ⟨ht, hcached, hvalue, hreadable⟩
        have hsegments : request.segments = [] := if_pos hname
        refine ⟨ht, hcached, hrooted, hreadable, ?_, ?_⟩
        · rw [hsegments]
          exact hvalue
        · rw [hsegments]
          trivial
      · have hlast := getLast?_split_linkName hname
        obtain ⟨part, rest, hsplit⟩ :=
          List.exists_cons_of_ne_nil (split_ne_nil (linkName request.path))
        rw [hsplit] at hlast ⊢
        refine wp_post_mono
          (recursiveLink_spec hdense request.newAddr rest [] part root hlast hs hroot) ?_
          (fun _ h => h)
        rintro new t ⟨ht, hcached, hupdated, hrebuilt⟩
        have hsegments : request.segments = part :: rest := by
          rw [LinkRequest.segments, if_neg hname, hsplit]
        refine ⟨ht, hcached, hrooted, updated_readable hupdated, ?_, ?_⟩
        · rw [hsegments]
          exact hupdated
        · rw [hsegments]
          exact hrebuilt

/-! ## The phases -/

theorem assertedNode_spec (hdense : E.sparse = false) (hs : Sound E.toEncoding held s)
    (path : GoString) :
    wp (assertedNode E path) (post
      (fun node t => Kept E.toEncoding held s t ∧ CachedIfSome t node)
      (Kept E.toEncoding held s)) s := by
  unfold assertedNode
  refine wp_post_bind (resolveFromLocal_spec hs hdense path (by rintro addr ⟨⟩)) ?_
    (fun _ h => h)
  intro response t ht
  split
  next => exact ht
  next leaf _ =>
    split
    next =>
      split
      · exact ⟨ht, cachedIfSome_none⟩
      · exact ht
    next => exact ht
    next =>
      refine wp_post_bind (loadFileNode_spec ht.sound hdense leaf.addr) ?_
        (fun _ h => ht.trans h)
      rintro _ u ⟨hu, hcached⟩
      exact ⟨ht.trans hu, cachedIfSome_some hcached⟩

theorem describeNode_spec {node : Option BlobAddr} (hnode : CachedIfSome s node) :
    wp (describeNode node) (post (fun _ t => t = s) (fun _ => False)) s := by
  cases node with
  | none => rfl
  | some addr =>
      obtain ⟨file, hfile⟩ := hnode addr rfl
      rw [describeNode, wp_getNode_bind hfile]
      rfl

theorem checkAssertions_spec (hdense : E.sparse = false) (hs : Sound E.toEncoding held s)
    (request : LinkRequest) :
    wp (checkAssertions E request) (post (fun _ t => Kept E.toEncoding held s t)
      (Kept E.toEncoding held s)) s := by
  unfold checkAssertions
  split
  next => exact hs.kept
  next =>
    split
    next => exact hs.kept
    next =>
      refine wp_post_bind (assertedNode_spec hdense hs request.path) ?_ (fun _ h => h)
      rintro node t ⟨ht, hcached⟩
      refine wp_post_bind (describeNode_spec hcached) ?_ (fun _ h => h.elim)
      rintro described _ rfl
      split
      · exact ht
      · exact ht

theorem candidateRoot_spec (hdense : E.sparse = false) (hs : Sound E.toEncoding held s)
    (requests : List LinkRequest) :
    wp (candidateRoot E H requests) (post
      (fun roots t => Kept E.toEncoding held s t ∧ roots.1 = s.rootAddr ∧ Cached t s.rootAddr ∧
        CachedIfSome t roots.2 ∧ LinkedAll E.toEncoding requests (some s.rootAddr) roots.2)
      (Kept E.toEncoding held s)) s := by
  unfold candidateRoot
  refine wp_post_bind (P := fun _ t => Kept E.toEncoding held s t)
    (Q := Kept E.toEncoding held s) ?_ ?_ (fun _ h => h)
  · refine wp_post_loop_const hs.kept ?_
    intro request _ _ t ht
    exact wp_post_mono (checkAssertions_spec hdense ht.sound request)
      (fun _ _ h => ht.trans h) (fun _ h => ht.trans h)
  · intro _ t ht
    rw [wp_get_bind, ht.quiet.rootAddr]
    refine wp_post_bind (loadFileNode_spec ht.sound hdense s.rootAddr) ?_
      (fun _ h => ht.trans h)
    rintro _ u ⟨htu, hcached⟩
    have hu := ht.trans htu
    refine wp_post_bind (P := fun new v => Kept E.toEncoding held s v ∧ Kept E.toEncoding held u v ∧
      CachedIfSome v new ∧ LinkedAll E.toEncoding requests (some s.rootAddr) new)
      (Q := Kept E.toEncoding held s) ?_ ?_ (fun _ h => h)
    · refine wp_post_loop (I := fun done new v => Kept E.toEncoding held s v ∧
        Kept E.toEncoding held u v ∧ CachedIfSome v new ∧
        LinkedAll E.toEncoding done (some s.rootAddr) new)
        ⟨hu, hu.sound.kept, cachedIfSome_some hcached, rfl⟩ ?_
      rintro done request todo root v - ⟨hv, huv, hroot, hlinked⟩
      refine wp_post_mono (applyRequest_spec hdense hv.sound hroot request) ?_
        (fun _ h => hv.trans h)
      rintro new w ⟨hw, hcached', hlast⟩
      exact ⟨hv.trans hw, huv.trans hw, hcached', hlinked.concat hlast⟩
    · rintro new v ⟨hv, huv, hcached', hlinked⟩
      exact ⟨hv, rfl, hcached.kept huv, hcached', hlinked⟩

/-- A link callback that only reads, in a store whose root is loaded. -/
def LinkCallback.ReadOnly (E : Encoding) (callback : LinkCallback) : Prop :=
  ∀ (held : Multiset BlobAddr) (s : NameStore) (oldRoot newRoot : Option BlobAddr)
    (requests : List LinkRequest) (principal : PrincipalRef), Sound E held s →
    Cached s s.rootAddr → CachedIfSome s oldRoot → CachedIfSome s newRoot →
    wp (callback oldRoot newRoot requests principal)
      (post (fun _ t => Kept E held s t) (Kept E held s)) s

/-- Hooks whose callbacks only read. -/
structure Hooks.ReadOnly (E : Encoding) (H : Hooks) : Prop where
  lookupCallbacks : ∀ callback ∈ H.lookupCallbacks, callback.ReadOnly E
  linkCallbacks : ∀ callback ∈ H.linkCallbacks, callback.ReadOnly E

theorem responseStep_spec (hdense : E.sparse = false) (hs : Sound E.toEncoding held s)
    {newRoot : Option BlobAddr} (hroot : CachedIfSome s newRoot) (paths : List PathNodePair)
    (request : LinkRequest) :
    wp (responseStep E newRoot paths request) (post
      (fun _ t => Kept E.toEncoding held s t) (Kept E.toEncoding held s)) s := by
  unfold responseStep
  simp only
  split
  next => exact hs.kept
  next =>
    refine wp_post_bind (resolveFromLocal_spec hs hdense _ hroot) ?_ (fun _ h => h)
    intro response t ht
    split
    · exact ht
    · exact ht

theorem buildResponse_spec (hdense : E.sparse = false) (hH : H.ReadOnly E.toEncoding)
    (hs : Sound E.toEncoding held s) (hlive : Cached s s.rootAddr) {newRoot : Option BlobAddr}
    (hroot : CachedIfSome s newRoot) (requests : List LinkRequest) (principal : PrincipalRef)
    (serialNumber : ℤ) (returnResults : Bool) :
    wp (buildResponse E H requests newRoot principal serialNumber returnResults) (post
      (fun _ t => Kept E.toEncoding held s t) (Kept E.toEncoding held s)) s := by
  cases returnResults with
  | false => exact hs.kept
  | true =>
      rw [buildResponse]
      refine wp_post_bind (P := fun _ t => Kept E.toEncoding held s t)
        (Q := Kept E.toEncoding held s) ?_ ?_ (fun _ h => h)
      · refine wp_post_loop_const hs.kept ?_
        intro request _ paths t ht
        exact wp_post_mono (responseStep_spec hdense ht.sound (hroot.kept ht) paths request)
          (fun _ _ h => ht.trans h) (fun _ h => ht.trans h)
      · intro paths t ht
        refine wp_post_bind (runLookupCallbacks_spec ht.sound (hlive.root_quiet ht.quiet)
          hH.lookupCallbacks _ (hroot.kept ht) _) ?_ (fun _ h => ht.trans h)
        intro response u hu
        exact ht.trans hu

/-- What is known once everything but the references is done. -/
structure PreparedFrom (E : Encoding) (requests : List LinkRequest) (s : NameStore)
    (prepared : Prepared) (t : NameStore) : Prop where
  oldRoot : prepared.oldRoot = s.rootAddr
  oldCached : Cached t s.rootAddr
  newCached : CachedIfSome t prepared.newRoot
  linked : LinkedAll E requests (some s.rootAddr) prepared.newRoot

theorem prepare_spec (hdense : E.sparse = false) (hH : H.ReadOnly E.toEncoding)
    (hs : Sound E.toEncoding held s) (requests : List LinkRequest) (returnResults : Bool)
    (principal : PrincipalRef) :
    wp (prepare E H requests returnResults principal) (post
      (fun prepared t => Kept E.toEncoding held s t ∧
        PreparedFrom E.toEncoding requests s prepared t)
      (Kept E.toEncoding held s)) s := by
  unfold prepare
  rw [wp_get_bind]
  refine wp_post_bind (candidateRoot_spec hdense hs requests) ?_ (fun _ h => h)
  rintro ⟨oldRoot, newRoot⟩ t ⟨ht, rfl, hold, hnew, hlinked⟩
  have hlive : Cached t t.rootAddr := by
    rw [ht.quiet.rootAddr]
    exact hold
  refine wp_post_bind (P := fun _ u => Kept E.toEncoding held t u)
    (Q := Kept E.toEncoding held t) ?_ ?_ (fun _ h => ht.trans h)
  · refine wp_post_loop_const ht.sound.kept ?_
    intro callback hmem _ u hu
    exact wp_post_mono (hH.linkCallbacks callback hmem held u _ _ requests principal hu.sound
        (hlive.root_quiet hu.quiet) (cachedIfSome_some (hold.kept hu)) (hnew.kept hu))
      (fun _ _ h => hu.trans h) (fun _ h => hu.trans h)
  · intro _ u hu
    refine wp_post_bind (buildResponse_spec hdense hH hu.sound (hlive.root_quiet hu.quiet)
      (hnew.kept hu) requests principal _ returnResults) ?_ (fun _ h => ht.trans (hu.trans h))
    intro response v hv
    have htv := hu.trans hv
    exact ⟨ht.trans htv, rfl, hold.kept htv, hnew.kept htv, hlinked⟩

end Grits
