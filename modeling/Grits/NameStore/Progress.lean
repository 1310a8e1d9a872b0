import Grits.NameStore.Invariant

/-!
# Links that cannot fail

Where every blob of a tree is stored, loading its nodes and taking the tree
succeed: a link of such a tree under a name of the root directory goes through.
-/

namespace Grits

open Prog RefCount

variable {E : Env} {H : Hooks} {held holders : Multiset BlobAddr} {s t u : NameStore}

/-! ## Available trees -/

/-- Every node of the tree is available. -/
def Loadable (E : Encoding) (s : NameStore) (root : BlobAddr) : Prop :=
  ∀ path addr, E.walk (some root) path = some addr → Available E s addr

theorem Loadable.grows {E : Encoding} {root : BlobAddr} (h : Loadable E s root)
    (hgrows : Grows s t) : Loadable E t root :=
  fun path addr hwalk => (h path addr hwalk).grows hgrows

theorem Loadable.child {E : Encoding} {root child : BlobAddr} {children : Children}
    {name : GoString} (h : Loadable E s root) (hdir : E.DirAt root children)
    (hchild : children.lookup name = some child) : Loadable E s child := by
  intro path addr haddr
  refine h (name :: path) addr ?_
  rw [Encoding.walk, PathTree.walk_cons, hdir.child, hchild]
  exact haddr

/-- The children read from a loadable directory are loadable. -/
theorem Loadable.entry {E : Encoding} {root child : BlobAddr} {children : Option Children}
    {name : GoString} (h : Loadable E s root) (hs : Sound E held s)
    (hresult : ChildrenResult E root children s)
    (hchild : (children.getD ∅).lookup name = some child) : Loadable E s child := by
  cases children with
  | none => simp at hchild
  | some children =>
      obtain ⟨metadata, hmetadata, htype, hreadable⟩ := ChildrenRead.readable hresult hs
      obtain ⟨exact', hdir⟩ := (h [] root rfl).readable ⟨metadata, hmetadata, htype⟩
      obtain ⟨metadata', hmetadata', -, hcontent⟩ := id hdir
      have hm : metadata' = metadata := hmetadata'.unique hmetadata
      subst hm
      rw [hreadable.eq_of_contentAt hcontent] at hchild
      exact h.child hdir hchild

theorem Ready.available {E : Encoding} {addr : BlobAddr} (h : Ready E s addr) :
    Available E s addr where
  loadable := .inl h.cached
  readable := by
    intro hdir
    rcases h with ⟨children, -, hat⟩ | ⟨-, hfile⟩
    · exact ⟨children, hat⟩
    · exact absurd hdir hfile

theorem HeldTree.loadable {E : Encoding} {root : BlobAddr} (h : HeldTree E s root) :
    Loadable E s root := fun path addr hwalk => (h path addr hwalk).available

theorem nodeChildren_ok_spec (hs : Sound E.toEncoding held s) {addr : BlobAddr}
    (hcached : Cached s addr) (hdir : E.IsDir addr → ∃ children, E.DirAt addr children) :
    wp (nodeChildren E addr) (post
      (fun children t => (Kept E.toEncoding held s t ∧
        ChildrenResult E.toEncoding addr children t) ∧ Grows s t)
      (fun _ => False)) s :=
  wp_post_of_run (nodeChildren_spec hs hcached) (nodeChildren_ok hs hcached hdir)

/-! ## New directories -/

theorem addDataBlock_stored (data : Bytes) (s : NameStore) :
    wp (addDataBlock E data) (fun r t => r = .ok (E.sum data) ∧ t.ticks = s.ticks ∧
      ∀ blob, Stored s blob → Stored t blob) s :=
  ⟨rfl, rfl, (grows_insertBlob s (E.sum data) _).stored⟩

theorem stored_erase {blob addr : BlobAddr} (hne : blob ≠ addr) (h : Stored s blob) (ticks : ℕ) :
    Stored { s with blobStore := s.blobStore.erase addr, ticks := ticks } blob := by
  obtain ⟨file, hfile⟩ := h
  exact ⟨file, (Finmap.lookup_erase_ne hne).trans hfile⟩

/-- Releasing a blob can only remove that blob. -/
theorem releaseBlob_stored (addr : BlobAddr) (s : NameStore) :
    wp (releaseBlob E addr) (fun _ t => ∀ blob, blob ≠ addr → Stored s blob → Stored t blob) s := by
  unfold releaseBlob
  rw [wp_get_bind]
  split
  next => exact fun _ _ h => h
  next file _ =>
    simp only
    have hgrows := (grows_insertBlob s addr { file with refCount := file.refCount - 1 }).stored
    split
    next => exact fun _ _ h => h
    next =>
      split
      next => exact fun blob _ h => hgrows blob h
      next =>
        rw [wp_consult_bind]
        split
        next => exact fun blob hblob h => stored_erase hblob h _
        next => exact fun blob _ h => hgrows blob h

theorem createTreeNode_stored (children : Children) (s : NameStore) :
    wp (createTreeNode E children) (fun r t => ∀ addr, r = .ok addr →
      addr = E.sum (E.marshalMetadata (directoryMetadata E children (E.clock s.ticks))) ∧
      ∀ blob, blob ≠ E.sum (E.marshalDir children) → blob ≠ addr → Stored s blob →
        Stored t blob) s := by
  unfold createTreeNode
  refine wp_bind (addDataBlock_stored (E.marshalDir children) s) ?_ (fun _ _ _ _ => nofun)
  rintro _ t ⟨⟨⟩, hticks, ht⟩
  rw [wp_consult_bind, hticks]
  generalize hnow : E.clock s.ticks = now
  refine wp_bind (addDataBlock_stored (E.marshalMetadata (directoryMetadata E children now)) _) ?_
    (fun _ _ _ _ => nofun)
  rintro _ u ⟨⟨⟩, -, hu⟩
  rw [wp_get_bind]
  have hstored : ∀ blob, Stored s blob → Stored u blob := fun blob h => hu blob (ht blob h)
  split
  next existing _ =>
    refine wp_bind (releaseBlob_stored _ _) ?_ (fun _ _ _ _ => nofun)
    intro _ v hv
    refine wp_bind (releaseBlob_stored _ v) ?_ (fun _ _ _ _ => nofun)
    intro _ w hw
    have hall : ∀ blob, blob ≠ E.sum (E.marshalDir children) →
        blob ≠ E.sum (E.marshalMetadata (directoryMetadata E children now)) →
        Stored s blob → Stored w blob :=
      fun blob hcontent haddr h => hw blob haddr (hv blob hcontent (hstored blob h))
    split
    next =>
      rintro addr ⟨⟩
      exact ⟨rfl, hall⟩
    next =>
      rintro addr ⟨⟩
  next =>
    rintro addr ⟨⟩
    exact ⟨rfl, fun blob _ _ h => hstored blob h⟩

/-- Creating a directory loses no blob and no node. -/
theorem createTreeNode_ok_spec (hs : Sound E.toEncoding held s) {children : Children}
    (h : ∀ name addr, children.lookup name = some addr → addr = [] ∨ IsCid addr) :
    wp (createTreeNode E children) (post
      (fun addr t => (Kept E.toEncoding held s t ∧ Cached t addr ∧
        NewDir E.toEncoding addr children) ∧ Grows s t) (fun _ => False)) s := by
  have hspec := wp_and (createTreeNode_spec hs h) (createTreeNode_stored (E := E) children s)
  refine wp_mono hspec ?_
  rintro (e | addr) t ⟨hpost, hstored⟩
  · cases e <;> exact hpost
  obtain ⟨hkept, ⟨node, hnode⟩, -⟩ := id hpost
  obtain ⟨haddr, hother⟩ := hstored addr rfl
  -- the two blobs of the new directory belong to a cached node
  have hmetadata := (hkept.sound.nodes addr node hnode).metadata
  rw [haddr] at hmetadata
  have hcontent := hmetadata.unique (metadataAt_directoryMetadata E children (E.clock s.ticks))
  have hblobs := hkept.sound.stored hnode
  rw [hcontent] at hblobs
  refine ⟨hpost, ?_, fun other hother => hother.kept hkept⟩
  intro blob hblob
  by_cases hblobContent : blob = E.sum (E.marshalDir children)
  · rw [hblobContent]
    exact hblobs.2
  · by_cases hblobAddr : blob = addr
    · rw [hblobAddr]
      exact hblobs.1
    · exact hother blob hblobContent hblobAddr hblob

/-! ## Following the nodes that a link loads -/

/-- Following the nodes that are loaded and made: a new directory has `L` where its
children have. -/
structure Linking (E : Env) (R : NameStore → NameStore → Prop) (L : NameStore → BlobAddr → Prop)
    (Q : GoErr → NameStore → Prop) : Prop extends Loading E R L Q where
  isMap : ∀ {s addr}, L s addr → E.IsDir addr → ∃ children, E.DirAt addr children
  create : ∀ {held s children}, Sound E.toEncoding held s → children.WellFormed →
    wp (createTreeNode E children) (post
      (fun addr t => (Kept E.toEncoding held s t ∧ Cached t addr ∧
        NewDir E.toEncoding addr children) ∧ R s t) (fun _ => False)) s
  newDir : ∀ {s addr children}, Cached s addr → E.DirAt addr children →
    (∀ name child, children.lookup name = some child → L s child) → L s addr

theorem Available.of_dirAt {E : Encoding} {addr : BlobAddr} {children : Children}
    (hcached : Cached s addr) (hdir : E.DirAt addr children) : Available E s addr :=
  ⟨.inl hcached, fun _ => ⟨children, hdir⟩⟩

/-- Loadable trees are loaded without an error, and nothing is lost. -/
theorem linking_loadable (hdense : E.sparse = false) :
    Linking E Grows (Loadable E.toEncoding) (fun _ _ => False) where
  refl := .refl
  trans := .trans
  load := by
    intro held s addr hs hload
    exact wp_ends_of_ok (loadFileNode_ok_spec hs hdense (hload [] addr rfl))
  read := by
    intro held s addr hs hcached hload
    exact wp_ends_of_ok (nodeChildren_ok_spec hs hcached (hload [] addr rfl).readable)
  same := by
    intro s t hblobs hcached
    refine ⟨?_, hcached⟩
    rintro blob ⟨file, hfile⟩
    exact ⟨file, by rw [hblobs, hfile]⟩
  stays := .grows
  child := fun hs hload hresult hchild => hload.entry hs hresult hchild
  undone := fun h _ => h
  isMap := fun hload => (hload [] _ rfl).readable
  create := by
    intro held s children hs hwf
    exact createTreeNode_ok_spec hs fun name addr h => .inr (hwf name addr h)
  newDir := by
    intro s addr children hcached hdir hchildren path node hwalk
    cases path with
    | nil =>
        cases hwalk
        exact .of_dirAt hcached hdir
    | cons name path =>
        rw [Encoding.walk, PathTree.walk_cons, hdir.child] at hwalk
        cases hchild : children.lookup name with
        | none =>
            rw [hchild] at hwalk
            simp at hwalk
        | some child =>
            rw [hchild] at hwalk
            exact hchildren name child hchild path node hwalk

/-- A loadable tree can be taken. -/
theorem recursiveTake_ok (hdense : E.sparse = false) (h : Inv E.toEncoding holders s)
    {addr : BlobAddr} (hcached : Cached s addr) (hload : Loadable E.toEncoding s addr) :
    wp (recursiveTake E (some addr))
      (post (fun _ t => TookRoot E.toEncoding addr s t) (fun _ => False)) s := by
  obtain ⟨count, hrefs, hcounted, hready⟩ := h.counted
  rw [← ends_const]
  exact wp_ends_mono (recursiveTake_ends hdense (linking_loadable hdense).toLoading
    h.outside_nonneg h.sound hrefs hcounted hready hcached hload) (fun _ _ h => h.1)
    (fun _ _ h => h.2)

/-! ## Linking below directories that exist -/

/-- No watcher answers a notification with an error. -/
def Hooks.Silent (H : Hooks) : Prop :=
  ∀ watcher ∈ H.watchers, ∀ log notification, watcher log notification = none

theorem Hooks.silent_of_none (hwatch : H.watchers = []) : H.Silent := by
  intro watcher hwatcher
  rw [hwatch] at hwatcher
  cases hwatcher

section Links

variable {R : NameStore → NameStore → Prop} {L : NameStore → BlobAddr → Prop}
  {Q : GoErr → NameStore → Prop}

theorem notifyWatchers_ok_spec (hL : Loading E R L Q) (hs : Sound E.toEncoding held s)
    (hwatch : H.Silent) (path : GoString) (oldValue newValue : Option BlobAddr) :
    wp (notifyWatchers H path oldValue newValue) (post
      (fun _ t => Kept E.toEncoding held s t ∧ R s t) (fun _ => False)) s := by
  have hsilent : ∀ log notification,
      H.watchers.filterMap (fun watcher => watcher log notification) = [] :=
    fun log notification => List.filterMap_eq_nil_iff.mpr fun watcher hwatcher =>
      hwatch watcher hwatcher log notification
  unfold notifyWatchers
  rw [wp_get_bind]
  simp only [wp_modify_bind, hsilent, List.getLast?_nil]
  exact ⟨⟨{ hs with }, { Quiet.refl s with }⟩, hL.same rfl fun _ h => h⟩

/-- The children of a directory that is known to be a map. -/
theorem linkChildren_ends (hL : Linking E R L Q) (hs : Sound E.toEncoding held s) {a : BlobAddr}
    (hcached : Cached s a) (ha : L s a) (hdir : E.IsDir a) :
    wp (linkChildren E (some a)) (ends
      (fun children t => (Kept E.toEncoding held s t ∧ R s t) ∧ ChildrenRead t a children ∧
        E.DirAt a children) Q) s := by
  unfold linkChildren
  refine wp_ends_bind (hL.read hs hcached ha) ?_ (fun _ _ h => h.2)
  rintro (_ | children) t ⟨⟨ht, hresult⟩, hst⟩
  · exact absurd hdir hresult.1
  · obtain ⟨metadata, hmetadata, htype, hreadable⟩ := ChildrenRead.readable hresult ht.sound
    obtain ⟨exact', hat⟩ := hL.isMap ha hdir
    obtain ⟨metadata', hmetadata', -, hcontent⟩ := id hat
    have hm : metadata' = metadata := hmetadata'.unique hmetadata
    subst hm
    rw [hreadable.eq_of_contentAt hcontent]
    exact ⟨⟨ht, hst⟩, by rwa [← hreadable.eq_of_contentAt hcontent], hat⟩

theorem loadOldChild_ends (hL : Linking E R L Q) (hs : Sound E.toEncoding held s) {a : BlobAddr}
    {children : Children} (hread : ChildrenRead s a children) (ha : L s a) (part : GoString)
    (isLast : Bool) (hlast : isLast = true ∨ ∃ child, children.lookup part = some child) :
    wp (loadOldChild E children part isLast) (ends
      (fun child t => (Kept E.toEncoding held s t ∧ R s t) ∧ child = children.lookup part ∧
        CachedIfSome t child ∧ ∀ old, child = some old → L t old) Q) s := by
  unfold loadOldChild
  cases hchild : children.lookup part with
  | none =>
      rcases hlast with rfl | ⟨child, hchild'⟩
      · exact ⟨⟨hs.kept, hL.refl s⟩, rfl, cachedIfSome_none, nofun⟩
      · rw [hchild] at hchild'
        cases hchild'
  | some child =>
      have hchild' : ((some children).getD ∅).lookup part = some child := hchild
      have hread' : ChildrenResult E.toEncoding a (some children) s := hread
      have hload : L s child := hL.child hs ha hread' hchild'
      refine wp_ends_bind (hL.load hs hload) ?_ (fun _ _ h => h.2)
      rintro _ t ⟨⟨ht, hcached⟩, hst⟩
      refine ⟨⟨ht, hst⟩, rfl, cachedIfSome_some hcached, ?_⟩
      rintro old ⟨⟩
      exact hL.stays hload hst

theorem loadNewValue_ends (hL : Linking E R L Q) (hs : Sound E.toEncoding held s)
    {addr : BlobAddr} (haddr : addr = [] ∨ L s addr) :
    wp (loadNewValue E addr) (ends (fun value t => (Kept E.toEncoding held s t ∧ R s t) ∧
      value = (if addr = [] then none else some addr) ∧ CachedIfSome t value ∧
      ∀ child, value = some child → L t child) Q) s := by
  unfold loadNewValue
  split
  next => exact ⟨⟨hs.kept, hL.refl s⟩, rfl, cachedIfSome_none, nofun⟩
  next hne =>
    have hload := haddr.resolve_left hne
    refine wp_ends_bind (hL.load hs hload) ?_ (fun _ _ h => h.2)
    rintro _ t ⟨⟨ht, hcached⟩, hst⟩
    refine ⟨⟨ht, hst⟩, rfl, cachedIfSome_some hcached, ?_⟩
    rintro child ⟨⟩
    exact hL.stays hload hst

/-- Replacing one child of a directory. -/
theorem rebuild_ends (hL : Linking E R L Q) (hs : Sound E.toEncoding held s) {a : BlobAddr}
    {children : Children} (hread : ChildrenRead s a children) (hdir : E.DirAt a children)
    (ha : L s a) {newChild : Option BlobAddr} (hcached : CachedIfSome s newChild)
    (hnew : ∀ child, newChild = some child → L s child) (name : GoString) :
    wp (do let result ← createTreeNode E (putChild children name newChild); pure (some result))
      (ends (fun new t => (Kept E.toEncoding held s t ∧ R s t) ∧ ∃ newRoot,
        new = some newRoot ∧ Cached t newRoot ∧ L t newRoot) Q) s := by
  have hwf : (putChild children name newChild).WellFormed := by
    intro other child hlookup
    rcases lookup_putChild_cases hlookup with hvalue | hother
    · exact (hcached child hvalue).isCid hs
    · obtain ⟨metadata, -, -, hcontent⟩ := hdir
      exact hcontent.wellFormed other child hother
  refine wp_ends_of_ok (wp_post_bind (hL.create hs hwf) ?_ (fun _ h => h))
  rintro newRoot t ⟨⟨ht, hcachedNew, hnewDir⟩, hst⟩
  refine ⟨⟨ht, hst⟩, newRoot, rfl, hcachedNew, ?_⟩
  refine hL.newDir hcachedNew (hnewDir.dirAt hwf) ?_
  intro other child hlookup
  refine hL.stays ?_ hst
  rcases lookup_putChild_cases hlookup with hvalue | hother
  · exact hnew child hvalue
  · have hother' : ((some children).getD ∅).lookup other = some child := hother
    have hread' : ChildrenResult E.toEncoding a (some children) s := hread
    exact hL.child hs ha hread' hother'

/-- The step of `recursiveLink` at the last name: the value is loaded, and the
watchers are told. -/
theorem loadAndNotify_ends (hL : Linking E R L Q) (hwatch : H.Silent)
    (hs : Sound E.toEncoding held s) {addr : BlobAddr} (haddr : addr = [] ∨ L s addr)
    (path : GoString) (oldChild : Option BlobAddr) {β : Type} {f : Option BlobAddr → Op β}
    {P : β → NameStore → Prop}
    (hf : ∀ value t, (Kept E.toEncoding held s t ∧ R s t) →
      value = (if addr = [] then none else some addr) → CachedIfSome t value →
      (∀ child, value = some child → L t child) → wp (f value) (ends P Q) t) :
    wp (do
      let newValue ← loadNewValue E addr
      notifyWatchers H path oldChild newValue
      f newValue) (ends P Q) s := by
  refine wp_ends_bind (loadNewValue_ends hL hs haddr) ?_ (fun _ _ h => h)
  rintro value t ⟨⟨ht, hst⟩, hvalue, hcached, hload⟩
  refine wp_ends_bind (S := fun _ _ => False)
    (wp_ends_of_ok (notifyWatchers_ok_spec hL.toLoading ht.sound hwatch _ _ _)) ?_
    (fun _ _ h => h.elim)
  rintro _ u ⟨hu, htu⟩
  exact hf value u ⟨ht.trans hu, hL.trans hst htu⟩ hvalue (hcached.kept hu)
    fun child hchild => hL.stays (hload child hchild) htu

/-- Linking a value, or nothing, below directories that exist. -/
theorem recursiveLink_ends (hL : Linking E R L Q) (hwatch : H.Silent)
    (hs : Sound E.toEncoding held s) {addr : BlobAddr} (haddr : addr = [] ∨ L s addr)
    (rest : List GoString) (prevPath part : GoString) {a parent : BlobAddr}
    (hcached : Cached s a) (ha : L s a) (hlast : (part :: rest).getLast? ≠ some [])
    (hparent : E.walk (some a) (part :: rest).dropLast = some parent) (hdir : E.IsDir parent) :
    wp (recursiveLink E H addr rest prevPath part (some a)) (ends
      (fun new t => (Kept E.toEncoding held s t ∧ R s t) ∧ ∃ newRoot, new = some newRoot ∧
        Cached t newRoot ∧ L t newRoot) Q) s := by
  induction rest generalizing s prevPath part a with
  | nil =>
      cases hparent
      have hpart : part ≠ [] := by simpa using hlast
      rw [recursiveLink]
      refine wp_ends_bind (linkChildren_ends hL hs hcached ha hdir) ?_ (fun _ _ h => h)
      rintro children t ⟨⟨ht, hst⟩, hread, hat⟩
      refine wp_ends_bind (loadOldChild_ends hL ht.sound hread (hL.stays ha hst) part true
        (.inl rfl)) ?_ (fun _ _ h => h)
      rintro oldChild u ⟨⟨hu, htu⟩, -⟩
      have hsu := hL.trans hst htu
      simp only [if_neg hpart]
      refine loadAndNotify_ends hL hwatch hu.sound (haddr.imp_right (hL.stays · hsu)) _ _ ?_
      rintro value v ⟨hv, huv⟩ - hcachedValue hvalue
      have hsv := hL.trans hsu huv
      refine wp_ends_mono (rebuild_ends hL hv.sound (hread.quiet (hu.trans hv).quiet) hat
        (hL.stays ha hsv) hcachedValue hvalue part) ?_ (fun _ _ h => h)
      rintro new w ⟨⟨hw, hvw⟩, hnew⟩
      exact ⟨⟨ht.trans (hu.trans (hv.trans hw)), hL.trans hsv hvw⟩, hnew⟩
  | cons next rest ih =>
      -- the directory has a child of this name, since the walk to the parent goes on
      rw [List.dropLast_cons_cons, Encoding.walk, PathTree.walk_cons] at hparent
      have hisDir : E.IsDir a := by
        by_contra hfile
        rw [PathTree.child, Option.bind_some, Encoding.entries_eq_none hfile] at hparent
        simp at hparent
      rw [recursiveLink]
      refine wp_ends_bind (linkChildren_ends hL hs hcached ha hisDir) ?_ (fun _ _ h => h)
      rintro children t ⟨⟨ht, hst⟩, hread, hat⟩
      rw [hat.child] at hparent
      cases hchild : children.lookup part with
      | none =>
          rw [hchild] at hparent
          simp at hparent
      | some child =>
          refine wp_ends_bind (loadOldChild_ends hL ht.sound hread (hL.stays ha hst) part false
            (.inr ⟨child, hchild⟩)) ?_ (fun _ _ h => h)
          rintro oldChild u ⟨⟨hu, htu⟩, rfl, hcachedChild, hold⟩
          have hsu := hL.trans hst htu
          rw [hchild] at hparent hcachedChild hold ⊢
          have hlast' : (next :: rest).getLast? ≠ some [] := by
            rwa [List.getLast?_cons_cons] at hlast
          refine wp_ends_bind (ih hu.sound (haddr.imp_right (hL.stays · hsu)) _ next
            (hcachedChild child rfl) (hold child rfl) hlast' hparent) ?_ (fun _ _ h => h)
          rintro new v ⟨⟨hv, huv⟩, newChild, rfl, hcachedNew, hnewChild⟩
          have hsv := hL.trans hsu huv
          refine wp_ends_mono (rebuild_ends hL hv.sound (hread.quiet (hu.trans hv).quiet) hat
            (hL.stays ha hsv) (cachedIfSome_some hcachedNew)
            (by rintro _ ⟨⟩; exact hnewChild) part) ?_ (fun _ _ h => h)
          rintro new w ⟨⟨hw, hvw⟩, hnew⟩
          exact ⟨⟨ht.trans (hu.trans (hv.trans hw)), hL.trans hsv hvw⟩, hnew⟩

/-- Linking a value at the root itself. -/
theorem recursiveLink_root_ends (hL : Linking E R L Q) (hwatch : H.Silent)
    (hs : Sound E.toEncoding held s) {addr a : BlobAddr} (hne : addr ≠ []) (haddr : L s addr)
    (hcached : Cached s a) (ha : L s a) (hdir : E.IsDir a) :
    wp (recursiveLink E H addr [] [] [] (some a)) (ends
      (fun new t => (Kept E.toEncoding held s t ∧ R s t) ∧ ∃ newRoot, new = some newRoot ∧
        Cached t newRoot ∧ L t newRoot) Q) s := by
  rw [recursiveLink]
  refine wp_ends_bind (linkChildren_ends hL hs hcached ha hdir) ?_ (fun _ _ h => h)
  rintro children t ⟨⟨ht, hst⟩, hread, -⟩
  refine wp_ends_bind (loadOldChild_ends hL ht.sound hread (hL.stays ha hst) [] true
    (.inl rfl)) ?_ (fun _ _ h => h)
  rintro oldChild u ⟨⟨hu, htu⟩, -⟩
  have hsu := hL.trans hst htu
  simp only [if_true]
  refine loadAndNotify_ends hL hwatch hu.sound (.inr (hL.stays haddr hsu)) _ _ ?_
  rintro value v ⟨hv, huv⟩ rfl hcachedValue hvalue
  rw [if_neg hne] at hcachedValue hvalue ⊢
  exact ⟨⟨ht.trans (hu.trans hv), hL.trans hsu huv⟩, addr, rfl, hcachedValue addr rfl,
    hvalue addr rfl⟩

/-- The directory above the place that a request writes is there. -/
def Targets (E : Encoding) (request : LinkRequest) (root : BlobAddr) : Prop :=
  if request.segments = [] then request.newAddr ≠ [] ∧ E.IsDir root
  else ∃ parent, E.walk (some root) request.segments.dropLast = some parent ∧ E.IsDir parent

theorem applyRequest_ends (hL : Linking E R L Q) (hwatch : H.Silent)
    (hs : Sound E.toEncoding held s) {root : BlobAddr} (hcached : Cached s root) (hroot : L s root)
    {request : LinkRequest} (hrel : SlashPath.isRooted (SlashPath.trimRight request.path) = false)
    (htarget : Targets E.toEncoding request root)
    (hvalue : request.newAddr = [] ∨ L s request.newAddr) :
    wp (applyRequest E H (some root) request) (ends
      (fun new t => (Kept E.toEncoding held s t ∧ R s t) ∧ ∃ newRoot, new = some newRoot ∧
        Cached t newRoot ∧ L t newRoot) Q) s := by
  unfold applyRequest
  rw [if_neg (by simp [hrel])]
  by_cases hname : linkName request.path = []
  · have hsegments : request.segments = [] := by rw [LinkRequest.segments, if_pos hname]
    rw [Targets, if_pos hsegments] at htarget
    rw [hname, SlashPath.split_nil]
    exact recursiveLink_root_ends hL hwatch hs htarget.1 (hvalue.resolve_left htarget.1) hcached
      hroot htarget.2
  · have hlast := getLast?_split_linkName hname
    have hsegments : request.segments = SlashPath.split (linkName request.path) := by
      rw [LinkRequest.segments, if_neg hname]
    rw [Targets, hsegments, if_neg (SlashPath.split_ne_nil _)] at htarget
    obtain ⟨parent, hparent, hdir⟩ := htarget
    obtain ⟨part, rest, hsplit⟩ :=
      List.exists_cons_of_ne_nil (SlashPath.split_ne_nil (linkName request.path))
    rw [hsplit] at hlast hparent ⊢
    exact recursiveLink_ends hL hwatch hs hvalue rest [] part hcached hroot hlast hparent hdir

end Links

/-- A link of one request succeeds, if its assertions hold, the directory it
writes into is there, all that it links is stored, and nobody objects. -/
theorem multiLink_ok (hdense : E.sparse = false) (hwatch : H.watchers = [])
    (h : Inv E.toEncoding holders s) {request : LinkRequest} {principal : PrincipalRef}
    (hallow : ∀ callback ∈ H.linkCallbacks, ∀ t newRoot, Kept E.toEncoding 0 s t →
      callback (some s.rootAddr) newRoot [request] principal t = (.ok (), t))
    (hcheck : checkAssertions E request s = (.ok (), s))
    (hrel : SlashPath.isRooted (SlashPath.trimRight request.path) = false)
    (htarget : Targets E.toEncoding request s.rootAddr)
    (hvalue : request.newAddr = [] ∨ Loadable E.toEncoding s request.newAddr) :
    ∃ response t, multiLink E H [request] false principal s = (.ok response, t) := by
  have hcandidate : wp (candidateRoot E H [request]) (post
      (fun roots t => Kept E.toEncoding 0 s t ∧ roots.1 = s.rootAddr ∧ ∃ newRoot,
        roots.2 = some newRoot ∧ Cached t newRoot ∧ Loadable E.toEncoding t newRoot)
      (fun _ => False)) s := by
    unfold candidateRoot
    have hchecks : loop (fun _ request => checkAssertions E request) () [request] s =
        (.ok (), s) := by
      rw [loop_cons, bind_run hcheck]
      rfl
    rw [wp_bind_run hchecks, wp_bind_run (get_run s),
      wp_bind_run (loadFileNode_cached h.root_ready.cached), loop_cons]
    simp only [loop_nil]
    refine wp_post_bind (P := fun new t => Kept E.toEncoding 0 s t ∧ ∃ newRoot,
        new = some newRoot ∧ Cached t newRoot ∧ Loadable E.toEncoding t newRoot)
      (Q := fun _ => False) ?_ ?_ (fun _ h => h)
    · have happly := applyRequest_ends (linking_loadable hdense) (Hooks.silent_of_none hwatch) h.sound
        h.root_ready.cached h.heldTree.loadable hrel htarget hvalue
      rw [ends_const (Q := fun _ => False)] at happly
      refine wp_post_bind happly ?_ (fun _ h => h)
      rintro new t ⟨⟨ht, -⟩, hnew⟩
      exact ⟨ht, hnew⟩
    · rintro _ t ⟨ht, newRoot, rfl, hcached, hload⟩
      exact ⟨ht, rfl, newRoot, rfl, hcached, hload⟩
  have hall : wp (multiLink E H [request] false principal)
      (post (fun _ _ => True) (fun _ => False)) s := by
    unfold multiLink
    refine wp_post_bind (P := fun prepared t => Kept E.toEncoding 0 s t ∧
        prepared.oldRoot = s.rootAddr ∧ ∃ newRoot, prepared.newRoot = some newRoot ∧
        Cached t newRoot ∧ Loadable E.toEncoding t newRoot) (Q := fun _ => False) ?_ ?_
      (fun _ h => h)
    · unfold prepare
      rw [wp_get_bind]
      refine wp_post_bind hcandidate ?_ (fun _ h => h)
      rintro ⟨oldRoot, newRoot⟩ t ⟨ht, rfl, hnew⟩
      have hcallbacks : loop (fun (_ : Unit) callback =>
          callback (some s.rootAddr) newRoot [request] principal) () H.linkCallbacks t =
          (.ok (), t) := by
        generalize H.linkCallbacks = callbacks at hallow
        induction callbacks with
        | nil => rfl
        | cons callback rest ih =>
            rw [loop_cons, bind_run (hallow callback List.mem_cons_self t newRoot ht)]
            exact ih fun other hother => hallow other (List.mem_cons_of_mem _ hother)
      rw [wp_bind_run hcallbacks]
      exact ⟨ht, rfl, hnew⟩
    · rintro ⟨oldRoot, -, response⟩ t ⟨hst, hold, newRoot, rfl, hcached, hload⟩
      have ht := h.kept hst
      have hroot : oldRoot = t.rootAddr := by rw [hst.quiet.rootAddr, ← hold]
      subst hroot
      exact wp_post_bind (commit_of_take hdense ht (recursiveTake_ok hdense ht hcached hload))
        (fun _ _ _ => trivial) (fun _ h => h)
  obtain ⟨response, t, hrun, -⟩ := exists_run_of_wp hall
  exact ⟨response, t, hrun⟩

end Grits
