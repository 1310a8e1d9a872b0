import Grits.NameStore.LinkSpec
import Grits.NameStore.ReleaseSpec

/-!
# The invariant of a dense name store

`Inv E holders s`: the counts of the reference manager are those of the tree at
the root, every counted node is loaded, and a node object is referenced by the
reference manager if it is counted and by the `holders` outside, by nobody else.
Every call keeps it.
-/

namespace Grits

open Prog RefCount

variable {E : Env} {H : Hooks} {holders : Multiset BlobAddr} {s t : NameStore}

/-- The invariant between calls. -/
structure Inv (E : Encoding) (holders : Multiset BlobAddr) (s : NameStore) : Prop where
  sound : Sound E 0 s
  counted : ∃ count, Represents s.refCount count ∧ Counted E.references count {s.rootAddr} ∧
    AllReady E s count
  outside : ∀ addr, outside s addr = holders.count addr

/-- The invariant of a store whose reference manager counts the trees `extra` too. -/
structure Accounts (E : Encoding) (extra holders : Multiset BlobAddr) (s : NameStore) : Prop where
  sound : Sound E 0 s
  counted : ∃ count, Represents s.refCount count ∧
    Counted E.references count (s.rootAddr ::ₘ extra) ∧ AllReady E s count
  outside : ∀ addr, outside s addr = holders.count addr

/-- Without other trees the store has the invariant. -/
theorem inv_iff_accounts {E : Encoding} : Inv E holders s ↔ Accounts E 0 holders s := by
  constructor
  · intro h
    exact ⟨h.sound, h.counted, h.outside⟩
  · intro h
    exact ⟨h.sound, h.counted, h.outside⟩

section Accounts

variable {extra : Multiset BlobAddr}

theorem Accounts.outside_nonneg {E : Encoding} (h : Accounts E extra holders s) (addr : BlobAddr) :
    0 ≤ Grits.outside s addr := by
  rw [h.outside]
  exact Int.natCast_nonneg _

theorem Accounts.kept {E : Encoding} (h : Accounts E extra holders s) (hkept : Kept E 0 s t) :
    Accounts E extra holders t where
  sound := hkept.sound
  counted := by
    obtain ⟨count, hrefs, hcounted, hready⟩ := h.counted
    refine ⟨count, ?_, ?_, hready.managed hkept.quiet.managed⟩
    · rwa [hkept.quiet.refCount]
    · rwa [hkept.quiet.rootAddr]
  outside := by
    intro addr
    rw [hkept.quiet.managed.outside, h.outside]

/-- The root is counted. -/
theorem Accounts.root_ready {E : Encoding} (h : Accounts E extra holders s) :
    Ready E s s.rootAddr := by
  obtain ⟨count, -, hcounted, hready⟩ := h.counted
  exact hready _ (hcounted.pos_of_mem_held (Multiset.mem_cons_self _ _)).ne'

end Accounts

theorem Inv.outside_nonneg {E : Encoding} (h : Inv E holders s) (addr : BlobAddr) :
    0 ≤ Grits.outside s addr := (inv_iff_accounts.mp h).outside_nonneg addr

theorem Inv.kept {E : Encoding} (h : Inv E holders s) (hkept : Kept E 0 s t) :
    Inv E holders t := inv_iff_accounts.mpr ((inv_iff_accounts.mp h).kept hkept)

/-- The root is counted. -/
theorem Inv.root_ready {E : Encoding} (h : Inv E holders s) : Ready E s s.rootAddr :=
  (inv_iff_accounts.mp h).root_ready

theorem reaches_of_walk {E : Encoding} {root addr : BlobAddr} {path : List GoString}
    (h : E.walk (some root) path = some addr) : Reaches E.references root addr := by
  induction path using List.reverseRecOn generalizing addr with
  | nil =>
      cases h
      exact .refl
  | append_singleton path name ih =>
      rw [Encoding.walk, PathTree.walk_concat] at h
      cases hparent : E.walk (some root) path with
      | none =>
          rw [Encoding.walk] at hparent
          rw [hparent] at h
          cases h
      | some parent =>
          have hreach := ih hparent
          rw [Encoding.walk] at hparent
          rw [hparent] at h
          refine hreach.tail ?_
          rw [PathTree.child, Option.bind_some] at h
          cases hentries : E.entries parent with
          | none =>
              rw [hentries] at h
              cases h
          | some children =>
              obtain ⟨map, hdir, rfl⟩ := Encoding.exists_dirAt_of_entries hentries
              rw [hentries] at h
              exact Encoding.mem_references.mpr ⟨map, name, hdir, h⟩

/-- The whole tree at the root is loaded. -/
theorem Accounts.heldTree {E : Encoding} {extra : Multiset BlobAddr}
    (h : Accounts E extra holders s) : HeldTree E s s.rootAddr := by
  obtain ⟨count, -, hcounted, hready⟩ := h.counted
  intro path addr hwalk
  refine hready addr (hcounted.ne_zero_of_reaches ?_ (reaches_of_walk hwalk))
  exact (hcounted.pos_of_mem_held (Multiset.mem_cons_self _ _)).ne'

theorem Inv.heldTree {E : Encoding} (h : Inv E holders s) : HeldTree E s s.rootAddr :=
  (inv_iff_accounts.mp h).heldTree

/-! ## Committing -/

/-- The tree at `newRoot` is counted besides the tree at the root. -/
def TookRoot (E : Encoding) (newRoot : BlobAddr) (s t : NameStore) : Prop :=
  Sound E 0 t ∧ Managed s t ∧ ∃ count, Represents t.refCount count ∧
    Counted E.references count (newRoot ::ₘ {s.rootAddr}) ∧ AllReady E t count

/-- Every loaded node of `s` is loaded in `t`. -/
def KeepsReady (E : Encoding) (s t : NameStore) : Prop := ∀ addr, Ready E s addr → Ready E t addr

theorem Managed.keepsReady {E : Encoding} (h : Managed s t) : KeepsReady E s t :=
  fun _ hready => hready.managed h

/-- How a commit of `newRoot` leaves a store that had `I`. -/
structure Committed (E : Encoding) (newRoot : BlobAddr) (I : NameStore → Prop) (s t : NameStore) :
    Prop where
  inv : I t
  rootAddr : t.rootAddr = newRoot
  serialNumber : t.serialNumber = s.serialNumber + 1
  ready : KeepsReady E s t

/-- Once the new tree is taken, the old one is released and the new root set. -/
theorem Accounts.commit_of_take {extra : Multiset BlobAddr} (hdense : E.sparse = false)
    (h : Accounts E.toEncoding extra holders s) {newRoot : BlobAddr} {Q : NameStore → Prop}
    (htake : wp (recursiveTake E (some newRoot)) (post (fun _ t => Sound E.toEncoding 0 t ∧
      Managed s t ∧ ∃ count, Represents t.refCount count ∧
        Counted E.references count (newRoot ::ₘ s.rootAddr ::ₘ extra) ∧
        AllReady E.toEncoding t count) Q) s) :
    wp (commit E s.rootAddr (some newRoot)) (post
      (fun _ t => Committed E.toEncoding newRoot (Accounts E.toEncoding extra holders) s t) Q) s := by
  unfold commit
  refine wp_post_bind htake ?_ (fun _ h => h)
  rintro _ t ⟨ht, hst, count', hrefs', hcounted', hready'⟩
  have houtside : ∀ addr, 0 ≤ Grits.outside t addr := by
    intro addr
    rw [hst.outside]
    exact h.outside_nonneg addr
  -- the two references are to the new root and to the old one
  rw [Multiset.cons_swap] at hcounted'
  have hrelease := wp_tryErr (S := Q) (R := fun r u => r = .ok () ∧
      Sound E.toEncoding 0 u ∧ Managed t u ∧ ∃ count'', Represents u.refCount count'' ∧
      Counted E.references count'' (newRoot ::ₘ extra) ∧ AllReady E.toEncoding u count'')
    (recursiveRelease_spec hdense houtside ht hrefs' hcounted' hready')
    (fun _ _ h => ⟨rfl, h⟩) (fun _ _ h => h.elim)
  refine wp_post_bind hrelease ?_ (fun _ h => h)
  rintro _ u ⟨rfl, hu, htu, count'', hrefs'', hcounted'', hready''⟩
  have hsu := hst.trans htu
  refine ⟨⟨{ hu with }, ⟨count'', hrefs'', hcounted'', ?_⟩, ?_⟩, rfl, ?_, ?_⟩
  · exact hready''
  · intro addr
    exact (hsu.outside addr).trans (h.outside addr)
  · change u.serialNumber + 1 = _
    rw [hsu.serialNumber]
  · exact hsu.keepsReady

theorem Accounts.commit_spec {extra : Multiset BlobAddr} (hdense : E.sparse = false)
    (h : Accounts E.toEncoding extra holders s) {newRoot : BlobAddr} (hcached : Cached s newRoot) :
    wp (commit E s.rootAddr (some newRoot)) (post
      (fun _ t => Committed E.toEncoding newRoot (Accounts E.toEncoding extra holders) s t)
      (Kept E.toEncoding 0 s)) s := by
  obtain ⟨count, hrefs, hcounted, hready⟩ := h.counted
  exact h.commit_of_take hdense
    (recursiveTake_spec hdense h.outside_nonneg h.sound hrefs hcounted hready hcached)

/-- Once the new tree is taken, the old one is released and the new root set. -/
theorem commit_of_take (hdense : E.sparse = false) (h : Inv E.toEncoding holders s)
    {newRoot : BlobAddr} {Q : NameStore → Prop}
    (htake : wp (recursiveTake E (some newRoot))
      (post (fun _ t => TookRoot E.toEncoding newRoot s t) Q) s) :
    wp (commit E s.rootAddr (some newRoot)) (post
      (fun _ t => Inv E.toEncoding holders t ∧ t.rootAddr = newRoot ∧
        t.serialNumber = s.serialNumber + 1) Q) s := by
  refine wp_post_mono ((inv_iff_accounts.mp h).commit_of_take hdense htake) ?_ (fun _ h => h)
  intro _ t ht
  exact ⟨inv_iff_accounts.mpr ht.inv, ht.rootAddr, ht.serialNumber⟩

/-- With no new root the old one is released all the same, and then the nil root
is dereferenced. -/
theorem commit_none_spec {extra : Multiset BlobAddr} (hdense : E.sparse = false)
    (h : Accounts E.toEncoding extra holders s) :
    wp (commit E s.rootAddr none) (fun r _ => r = .error (.crash .nilRoot)) s := by
  obtain ⟨count, hrefs, hcounted, hready⟩ := h.counted
  have hrelease := wp_tryErr (S := fun _ => False) (R := fun r _ => r = .ok ())
    (recursiveRelease_spec hdense h.outside_nonneg h.sound hrefs hcounted hready)
    (fun _ _ _ => rfl) (fun _ _ h => h.elim)
  change wp (tryErr (recursiveRelease E (some s.rootAddr)) >>= _) _ s
  refine wp_bind hrelease ?_ ?_
  · rintro _ t rfl
    rfl
  · intro e t hpost
    cases e <;> exact hpost.elim

/-- How a link can end, in a store that has `I`. -/
def LinkEnds (E : Encoding) (I : NameStore → Prop) (requests : List LinkRequest)
    (s : NameStore) : Except Halt (Option LookupResponse) → NameStore → Prop
  | .ok _, t => (∃ newRoot, Committed E newRoot I s t) ∧
      LinkedAll E requests (some s.rootAddr) (some t.rootAddr)
  | .error (.err _), t => Kept E 0 s t
  | .error halt, _ => halt = .crash .nilRoot ∧ LinkedAll E requests (some s.rootAddr) none

/-- How a link can end. -/
def LinkOutcome (E : Encoding) (holders : Multiset BlobAddr) (requests : List LinkRequest)
    (s : NameStore) : Except Halt (Option LookupResponse) → NameStore → Prop
  | .ok _, t => Inv E holders t ∧ LinkedAll E requests (some s.rootAddr) (some t.rootAddr) ∧
      t.serialNumber = s.serialNumber + 1
  | .error (.err _), t => Kept E 0 s t
  | .error halt, _ => halt = .crash .nilRoot ∧ LinkedAll E requests (some s.rootAddr) none

theorem Accounts.multiLink_spec {extra : Multiset BlobAddr} (hdense : E.sparse = false)
    (hH : H.ReadOnly E.toEncoding) (h : Accounts E.toEncoding extra holders s)
    (requests : List LinkRequest) (returnResults : Bool) (principal : PrincipalRef) :
    wp (multiLink E H requests returnResults principal)
      (LinkEnds E.toEncoding (Accounts E.toEncoding extra holders) requests s) s := by
  unfold multiLink
  refine wp_bind (prepare_spec hdense hH h.sound requests returnResults principal) ?_ ?_
  swap
  · intro e t hpost
    cases e with
    | err e => exact hpost
    | crash c => exact hpost.elim
    | dangling a => exact hpost.elim
    | outOfFuel => exact hpost.elim
  rintro ⟨oldRoot, newRoot, response⟩ t ⟨hst, hold, -, hcached, hlinked⟩
  have ht := h.kept hst
  have hroot : oldRoot = t.rootAddr := by rw [hst.quiet.rootAddr, ← hold]
  subst hroot
  cases newRoot with
  | none =>
      refine wp_bind (commit_none_spec hdense ht) ?_ ?_
      · rintro _ u ⟨⟩
      · rintro _ u ⟨⟩
        exact ⟨rfl, hlinked⟩
  | some newRoot =>
      refine wp_bind (ht.commit_spec hdense (hcached newRoot rfl)) ?_ ?_
      · rintro _ u ⟨hu, rfl, hserial, hready⟩
        rw [hst.quiet.serialNumber] at hserial
        have hsu : KeepsReady E.toEncoding s u := fun addr haddr =>
          hready addr (haddr.managed hst.quiet.managed)
        exact ⟨⟨_, hu, rfl, hserial, hsu⟩, hlinked⟩
      · intro e u hpost
        cases e with
        | err e => exact hst.trans hpost
        | crash c => exact hpost.elim
        | dangling a => exact hpost.elim
        | outOfFuel => exact hpost.elim

theorem multiLink_spec (hdense : E.sparse = false) (hH : H.ReadOnly E.toEncoding)
    (h : Inv E.toEncoding holders s) (requests : List LinkRequest) (returnResults : Bool)
    (principal : PrincipalRef) :
    wp (multiLink E H requests returnResults principal)
      (LinkOutcome E.toEncoding holders requests s) s := by
  refine wp_mono ((inv_iff_accounts.mp h).multiLink_spec hdense hH requests returnResults
    principal) ?_
  rintro (halt | response) t hends
  · cases halt <;> exact hends
  · obtain ⟨⟨newRoot, hcommitted⟩, hlinked⟩ := hends
    exact ⟨inv_iff_accounts.mpr hcommitted.inv, hlinked, hcommitted.serialNumber⟩

/-! ## Holders of nodes -/

/-- A node that is held once more. -/
theorem Accounts.takeNode_spec {extra : Multiset BlobAddr} {addr : BlobAddr}
    (h : Accounts E.toEncoding extra holders s) (hcached : Cached s addr) :
    wp (takeNode addr) (post (fun _ t => Accounts E.toEncoding extra (addr ::ₘ holders) t ∧
      Quiet (Pi.single addr 1) s t) (fun _ => False)) s := by
  refine wp_post_mono (Grits.takeNode_spec h.sound hcached) ?_ (fun _ h => h)
  rintro _ u ⟨hu, htu⟩
  obtain ⟨count, hrefs, hcounted, hready⟩ := h.counted
  refine ⟨⟨hu, ⟨count, ?_, ?_, fun other hother => (hready other hother).quiet htu⟩, ?_⟩, htu⟩
  · rwa [htu.refCount]
  · rwa [htu.rootAddr]
  · intro other
    have houtside := h.outside other
    rw [Grits.outside] at houtside ⊢
    rw [htu.nodeCount, tracked, htu.refCount, ← tracked, Multiset.count_cons]
    by_cases hother : other = addr
    · subst hother
      rw [Pi.single_eq_same, if_pos rfl]
      push_cast
      omega
    · rw [Pi.single_eq_of_ne hother, if_neg hother]
      push_cast
      omega

/-- What holding a node does not change. -/
theorem Accounts.getFileNode_spec {extra : Multiset BlobAddr} (hdense : E.sparse = false)
    (h : Accounts E.toEncoding extra holders s) (addr : BlobAddr) :
    wp (getFileNode E addr) (post (fun _ t => Accounts E.toEncoding extra (addr ::ₘ holders) t ∧
      Quiet (Pi.single addr 1) s t) (Kept E.toEncoding 0 s)) s := by
  refine wp_post_bind (loadFileNode_spec h.sound hdense addr) ?_ (fun _ h => h)
  rintro _ t ⟨hst, hcached⟩
  refine wp_post_mono ((h.kept hst).takeNode_spec hcached) ?_ (fun _ h => h.elim)
  rintro _ u ⟨hu, htu⟩
  refine ⟨hu, ?_⟩
  have hsu := hst.quiet.trans htu
  rwa [zero_add] at hsu

theorem getFileNode_spec (hdense : E.sparse = false) (h : Inv E.toEncoding holders s)
    (addr : BlobAddr) :
    wp (getFileNode E addr) (post
      (fun _ t => Inv E.toEncoding (addr ::ₘ holders) t) (Kept E.toEncoding 0 s)) s :=
  wp_post_mono ((inv_iff_accounts.mp h).getFileNode_spec hdense addr)
    (fun _ _ ht => inv_iff_accounts.mpr ht.1) (fun _ h => h)

/-- A node that is held is counted. -/
theorem Accounts.nodeCount_pos {E : Encoding} {extra : Multiset BlobAddr} {addr : BlobAddr}
    (h : Accounts E extra (addr ::ₘ holders) s) : 0 < nodeCount s addr := by
  have houtside := h.outside addr
  rw [Grits.outside, tracked, Multiset.count_cons_self] at houtside
  split at houtside <;> push_cast at houtside <;> omega

theorem Accounts.releaseNode_spec {extra : Multiset BlobAddr} (hdense : E.sparse = false)
    {addr : BlobAddr} (h : Accounts E.toEncoding extra (addr ::ₘ holders) s) :
    wp (releaseNode E addr) (post (fun _ t => Accounts E.toEncoding extra holders t ∧
      Quiet (Pi.single addr (-1)) s t) (fun _ => False)) s := by
  refine wp_post_mono (Grits.releaseNode_spec h.sound hdense h.nodeCount_pos) ?_ (fun _ h => h)
  rintro _ t ⟨ht, hst⟩
  obtain ⟨count, hrefs, hcounted, hready⟩ := h.counted
  refine ⟨⟨ht, ⟨count, ?_, ?_, fun other hother => (hready other hother).quiet hst⟩, ?_⟩, hst⟩
  · rwa [hst.refCount]
  · rwa [hst.rootAddr]
  · intro other
    have houtside := h.outside other
    rw [Grits.outside] at houtside ⊢
    rw [hst.nodeCount, tracked, hst.refCount, ← tracked]
    rw [Multiset.count_cons] at houtside
    by_cases hother : other = addr
    · subst hother
      rw [if_pos rfl] at houtside
      rw [Pi.single_eq_same]
      push_cast at houtside
      omega
    · rw [if_neg hother] at houtside
      rw [Pi.single_eq_of_ne hother]
      push_cast at houtside
      omega

theorem releaseHolder_spec (hdense : E.sparse = false) {addr : BlobAddr}
    (h : Inv E.toEncoding (addr ::ₘ holders) s) :
    wp (releaseNode E addr) (post
      (fun _ t => Inv E.toEncoding holders t) (fun _ => False)) s :=
  wp_post_mono ((inv_iff_accounts.mp h).releaseNode_spec hdense)
    (fun _ _ ht => inv_iff_accounts.mpr ht.1) (fun _ h => h)

/-! ## Cleaning up -/

/-- Releasing a blob does not look at the file cache. -/
theorem releaseBlob_frame (addr : BlobAddr) (cache : Finmap fun _ : BlobAddr => FileNode)
    (s : NameStore) :
    releaseBlob E addr { s with fileCache := cache } =
      ((releaseBlob E addr s).1, { (releaseBlob E addr s).2 with fileCache := cache }) := by
  unfold releaseBlob
  rw [bind_run (get_run _), bind_run (get_run s)]
  cases hfile : s.blobStore.lookup addr with
  | none => rfl
  | some file =>
      simp only
      split
      next => rfl
      next =>
        split
        next => rfl
        next =>
          rw [bind_run (consult_run _ _), bind_run (consult_run _ s)]
          simp only
          split
          · rfl
          · rfl

/-- The specification of `releaseBlob` for references that another file cache
would account for. -/
theorem releaseBlob_elsewhere {held : Multiset BlobAddr} {addr : BlobAddr}
    (cache : Finmap fun _ : BlobAddr => FileNode)
    (hs : Sound E.toEncoding (addr ::ₘ held) { s with fileCache := cache }) :
    wp (releaseBlob E addr) (post
      (fun _ t => Sound E.toEncoding held { t with fileCache := cache } ∧ OnlyBlobs s t)
      (fun _ => False)) s := by
  have hspec := releaseBlob_spec hs
  have hframe := releaseBlob_frame (E := E) addr s.fileCache { s with fileCache := cache }
  rw [wp] at hspec ⊢
  rcases hrun : releaseBlob E addr { s with fileCache := cache } with ⟨r, t⟩
  rw [hrun] at hspec hframe
  change releaseBlob E addr s = _ at hframe
  rw [hframe]
  refine hspec.imp ?_ (fun h => h)
  rintro _ ⟨ht, blobs, ticks, rfl⟩
  exact ⟨ht, blobs, ticks, rfl⟩

/-- The blobs of a node taken out of the cache are left to release. -/
theorem Sound.eraseNode {E : Encoding} {held : Multiset BlobAddr} (h : Sound E held s)
    {addr : BlobAddr} {node : FileNode} (hnode : s.fileCache.lookup addr = some node) :
    Sound E (addr ::ₘ node.metadata.contentHash ::ₘ held)
      { s with fileCache := s.fileCache.erase addr } where
  hashed := h.hashed
  counted := by
    intro blob
    have hcount := h.counted blob
    have htotal : cacheRefs { s with fileCache := s.fileCache.erase addr } blob +
        nodeRefs blob addr node = cacheRefs s blob := FinmapSum.total_erase_add _ hnode
    change _ ≤ blobCount s blob
    rw [nodeRefs] at htotal
    rw [Multiset.count_cons, Multiset.count_cons]
    simp only [eq_comm (a := blob)]
    omega
  nodes := by
    intro other node' hlookup
    by_cases hother : other = addr
    · subst hother
      rw [Finmap.lookup_erase] at hlookup
      cases hlookup
    · rw [Finmap.lookup_erase_ne hother] at hlookup
      exact h.nodes other node' hlookup

/-- A node without references can be taken out of the cache. -/
theorem Accounts.eraseNode {E : Encoding} {extra : Multiset BlobAddr}
    (h : Accounts E extra holders s) {addr : BlobAddr} (hcount : nodeCount s addr = 0)
    (ht : Sound E 0 t) (honly : OnlyBlobs { s with fileCache := s.fileCache.erase addr } t) :
    Accounts E extra holders t := by
  obtain ⟨blobs, ticks, rfl⟩ := honly
  have hzero : tracked s addr = 0 := by
    have houtside := h.outside_nonneg addr
    rw [Grits.outside, hcount, tracked] at houtside
    rw [tracked]
    split at houtside
    · omega
    · rw [if_neg ‹_›]
  have hlookup : s.refCount.lookup addr = none := by
    rw [tracked] at hzero
    cases hrefs : s.refCount.lookup addr with
    | none => rfl
    | some n => simp [hrefs] at hzero
  obtain ⟨count, hrefs, hcounted, hready⟩ := h.counted
  refine ⟨ht, ⟨count, hrefs, hcounted, ?_⟩, ?_⟩
  · intro other hother
    have hne : other ≠ addr := by
      rintro rfl
      exact hother (hrefs.lookup_eq_none_iff.mp hlookup)
    rcases hready other hother with ⟨children, ⟨node, hnode, hread⟩, hdir⟩ | ⟨⟨node, hnode⟩, hfile⟩
    · refine .inl ⟨children, ⟨node, ?_, hread⟩, hdir⟩
      exact (Finmap.lookup_erase_ne hne).trans hnode
    · exact .inr ⟨⟨node, (Finmap.lookup_erase_ne hne).trans hnode⟩, hfile⟩
  · intro other
    rw [← h.outside other]
    change nodeCount { s with fileCache := s.fileCache.erase addr } other - tracked s other = _
    rw [Grits.outside]
    congr 1
    by_cases hother : other = addr
    · subst hother
      rw [hcount]
      exact nodeCount_of_lookup_eq_none (Finmap.lookup_erase _ _)
    · unfold nodeCount
      rw [Finmap.lookup_erase_ne hother]

/-- What cleaning up leaves alone. -/
structure Cleaned (E : Encoding) (extra holders : Multiset BlobAddr) (s t : NameStore) : Prop where
  accounts : Accounts E extra holders t
  rootAddr : t.rootAddr = s.rootAddr
  serialNumber : t.serialNumber = s.serialNumber
  refCount : t.refCount = s.refCount

theorem exportedBlob_run {addr : BlobAddr} {node : FileNode} {blob : BlobAddr}
    (hnode : s.fileCache.lookup addr = some node) (hblob : node.blob = some blob) :
    exportedBlob addr s = (.ok (), s) := by
  unfold exportedBlob
  rw [bind_run (getNode_run hnode), hblob]
  rfl

theorem Accounts.cleanupAt_spec {extra : Multiset BlobAddr}
    (h : Accounts E.toEncoding extra holders s) (addr : BlobAddr) :
    wp (cleanupAt E addr) (post
      (fun _ t => Cleaned E.toEncoding extra holders s t) (fun _ => False)) s := by
  unfold cleanupAt
  rw [wp_get_bind]
  cases hnode : s.fileCache.lookup addr with
  | none => exact ⟨h, rfl, rfl, rfl⟩
  | some node =>
      simp only
      split
      next => exact ⟨h, rfl, rfl, rfl⟩
      next hcount =>
        rw [not_not] at hcount
        have hzero : nodeCount s addr = 0 := by rw [nodeCount_of_lookup hnode, hcount]
        cases hrefs : s.refCount.lookup addr with
        | some n =>
            have houtside := h.outside_nonneg addr
            rw [Grits.outside, hzero, tracked_of_lookup hrefs] at houtside
            omega
        | none =>
            simp only
            -- the blobs are released as if the node had left the cache already
            have hstart := h.sound.eraseNode hnode
            refine wp_post_bind (releaseBlob_elsewhere _ hstart) ?_ (fun _ h => h)
            rintro _ t ⟨ht, hst⟩
            have hnode' : t.fileCache.lookup addr = some node := by rw [hst.fileCache, hnode]
            have hexported := tryErr_run
              (exportedBlob_run hnode' (h.sound.nodes addr node hnode).blob)
            rw [wp_bind_iff, wp, hexported, andThen_ok]
            refine wp_post_bind (releaseBlob_elsewhere _ ht) ?_ (fun _ h => h)
            rintro _ u ⟨hu, htu⟩
            obtain ⟨blobs, ticks, rfl⟩ := hst.trans htu
            exact ⟨h.eraseNode hzero hu ⟨blobs, ticks, rfl⟩, rfl, rfl, rfl⟩

theorem Accounts.cleanup_spec {extra : Multiset BlobAddr}
    (h : Accounts E.toEncoding extra holders s) :
    wp (cleanup E) (post (fun _ t => Cleaned E.toEncoding extra holders s t) (fun _ => False)) s := by
  have htick : Kept E.toEncoding 0 s { s with ticks := s.ticks + 1 } :=
    ⟨h.sound.tick _, { Quiet.refl s with }⟩
  unfold cleanup
  rw [wp_get_bind, wp_consult_bind]
  refine wp_post_loop_const ⟨h.kept htick, rfl, rfl, rfl⟩ ?_
  rintro addr - _ t ⟨ht, hroot, hserial, hrefs⟩
  refine wp_post_mono (ht.cleanupAt_spec addr) ?_ (fun _ h => h)
  rintro _ u ⟨hu, hroot', hserial', hrefs'⟩
  exact ⟨hu, hroot'.trans hroot, hserial'.trans hserial, hrefs'.trans hrefs⟩

theorem cleanup_spec (h : Inv E.toEncoding holders s) :
    wp (cleanup E) (post (fun _ t => Inv E.toEncoding holders t) (fun _ => False)) s :=
  wp_post_mono (inv_iff_accounts.mp h).cleanup_spec
    (fun _ _ ht => inv_iff_accounts.mpr ht.accounts) (fun _ h => h)

end Grits
