import Grits.NameStore.Available
import Grits.NameStore.Resolve

/-!
# What resolving a path does and returns

Resolving is quiet in every sound store.  Over a tree whose nodes are all
loaded it changes nothing at all, and its result is a function of the tree that
the start address names: `Encoding.resolve`.
-/

namespace Grits

open Prog SlashPath

variable {E : Env} {held : Multiset BlobAddr} {s t : NameStore}

/-! ## Resolving is quiet -/

/-- The node a walk has reached is cached. -/
def Walk.Cached (walk : Walk) (t : NameStore) : Prop :=
  ∀ addr, walk.current = some addr → Grits.Cached t addr

theorem Walk.cached_lost (walk : Walk) (path : GoString) (error : LookupError) :
    (walk.lost path error).Cached t := by
  intro addr h
  cases h

/-- The entry of one component of a path, for a walk that stands at `current`, and
where the walk stands afterwards: what a store with the blobs of `s` has there. -/
inductive Entry (E : Env) (s : NameStore) (path name : GoString) :
    Option BlobAddr → PathNodePair → Option BlobAddr → Prop
  | found {parent child : BlobAddr} {children : GoString → Option BlobAddr}
      {metadata : GNodeMetadata} (hreads : E.Reads parent children)
      (hchild : children name = some child) (hload : CanLoad E.toEncoding s child)
      (hmetadata : E.MetadataAt child metadata) :
      Entry E s path name (some parent) (.found path child metadata) (some child)
  | missing {parent : BlobAddr} {children : GoString → Option BlobAddr}
      (hreads : E.Reads parent children) (hchild : children name = none) :
      Entry E s path name (some parent) (.failed path .notFound) none
  | lost : Entry E s path name none (.failed path .notFound) none
  | notDir {parent : BlobAddr} (hfile : ¬ E.IsDir parent) :
      Entry E s path name (some parent) (.failed path .notDir) none
  | unreadable {parent : BlobAddr} (hdir : E.IsDir parent)
      (hmalformed : ∀ children, ¬ E.DirAt parent children) :
      Entry E s path name (some parent) (.failed path .internal) none
  | unloadable {parent child : BlobAddr} {children : GoString → Option BlobAddr}
      (hreads : E.Reads parent children) (hchild : children name = some child)
      (hload : ¬ CanLoad E.toEncoding s child) :
      Entry E s path name (some parent) (.failed path .internal) none

theorem Entry.path_eq {path name : GoString} {current next : Option BlobAddr}
    {pair : PathNodePair} (h : Entry E s path name current pair next) : pair.path = path := by
  cases h <;> rfl

/-- One round of the walk: nothing for an empty component, else an entry. -/
def Walk.Stepped (E : Env) (s : NameStore) (walk : Walk) (part : GoString) (walk' : Walk) : Prop :=
  if part = [] then walk' = walk
  else ∃ pair, walk'.paths = walk.paths ++ [pair] ∧ walk'.currentPath = walk.nextPath part ∧
    Entry E s (walk.nextPath part) part walk.current pair walk'.current

/-- As long as the walk is not lost, the store has what it had in `s`. -/
def Walk.Steady (E : Encoding) (s t : NameStore) (walk : Walk) : Prop :=
  ∀ addr, walk.current = some addr → Grits.Steady E s t

theorem Walk.steady_lost (E : Encoding) (walk : Walk) (path : GoString) (error : LookupError) :
    (walk.lost path error).Steady E s t := by
  intro addr h
  cases h

theorem tryErr_wp_cases {α : Type} {m : Op α} {P : α → NameStore → Prop} {Q : NameStore → Prop}
    (h : wp m (post P Q) s) :
    wp (tryErr m) (post (fun r t => match r with
      | .ok a => P a t
      | .error _ => Q t ∧ Failing m s) (fun _ => False)) s := by
  have hruns := wp_tryErr (R := fun r t => match r with
    | .ok a => P a t
    | .error _ => Q t) (S := fun _ => False) h (fun _ _ h => h) (fun _ _ h => h)
  rcases hrun : m s with ⟨_ | a, t⟩
  case error halt =>
    have hpost := wp_of_run h hrun
    cases halt with
    | err e =>
        have htried : tryErr m s = (.ok (.error e), t) := tryErr_run_error hrun
        rw [wp, htried]
        exact ⟨hpost, e, t, hrun⟩
    | crash c => exact hpost.elim
    | dangling a => exact hpost.elim
    | outOfFuel => exact hpost.elim
  case ok =>
    have htried : tryErr m s = (.ok (.ok a), t) := tryErr_run hrun
    rw [wp, htried] at hruns ⊢
    exact hruns

/-- One round of the loop of `resolveFromLocal`. -/
theorem resolveStep_stepped (ht : Sound E.toEncoding held t) (hdense : E.sparse = false)
    {walk : Walk} (hwalk : walk.Cached t) (hsteady : walk.Steady E.toEncoding s t)
    (part : GoString) :
    wp (resolveStep E walk part) (post
      (fun walk' u => Kept E.toEncoding held t u ∧ walk'.Cached u ∧
        walk'.Steady E.toEncoding s u ∧ walk.Stepped E s part walk') (fun _ => False)) t := by
  unfold resolveStep Walk.Stepped
  split
  next => exact ⟨ht.kept, hwalk, hsteady, rfl⟩
  next =>
    -- a lost walk: the entry, by its cause
    have hlost : ∀ error u, Kept E.toEncoding held t u →
        Entry E s (walk.nextPath part) part walk.current
          (.failed (walk.nextPath part) error) none →
        wp (pure (walk.lost (walk.nextPath part) error) : Op Walk) (post
          (fun walk' u => Kept E.toEncoding held t u ∧ walk'.Cached u ∧
            walk'.Steady E.toEncoding s u ∧ ∃ pair, walk'.paths = walk.paths ++ [pair] ∧
              walk'.currentPath = walk.nextPath part ∧
              Entry E s (walk.nextPath part) part walk.current pair walk'.current)
          (fun _ => False)) u := fun error u hu hentry =>
      ⟨hu, walk.cached_lost _ _, walk.steady_lost _ _ _, _, rfl, rfl, hentry⟩
    cases hcurrent : walk.current with
    | none =>
        rw [hcurrent] at hlost
        exact hlost _ _ ht.kept .lost
    | some current =>
        rw [hcurrent] at hlost
        have hst := hsteady current hcurrent
        obtain ⟨node, hnode⟩ := hwalk current hcurrent
        simp only
        rw [wp_getNode_bind hnode]
        split
        next htype => exact hlost _ _ ht.kept (.notDir ((ht.isDir_iff hnode).not.mpr htype))
        next htype =>
          rw [not_not] at htype
          refine wp_post_bind (tryErr_wp_cases (treeChildren_steady ht hnode htype)) ?_
            (fun _ h => h)
          rintro (e | children) u hu
          · exact hlost _ _ hu.1 (.unreadable ((ht.isDir_iff hnode).mpr htype)
              (not_dirAt_of_failing ht hnode htype hu.2))
          · obtain ⟨⟨hu, hread⟩, htu⟩ := hu
            have hreads := hread.reads hu.sound
            simp only
            split
            next hchild => exact hlost _ _ hu (.missing hreads hchild)
            next childAddr hchild =>
              refine wp_post_bind (tryErr_wp_cases (loadFileNode_steady hu.sound hdense childAddr))
                ?_ (fun _ h => h)
              have hsu := hst.trans htu
              rintro (e | x) v hv
              · refine hlost _ _ (hu.trans hv.1) (.unloadable hreads hchild ?_)
                rw [← hsu.canLoad_iff]
                exact not_canLoad_of_failing hu.sound hdense hv.2
              · obtain ⟨⟨hv, child, hlookup⟩, huv⟩ := hv
                simp only
                rw [wp_getNode_bind hlookup]
                have hsv := hsu.trans huv
                refine ⟨hu.trans hv, ?_, fun _ _ => hsv, _, rfl, rfl, ?_⟩
                · rintro addr ⟨⟩
                  exact ⟨child, hlookup⟩
                · refine .found hreads hchild ?_ (hv.sound.nodes childAddr child hlookup).metadata
                  rw [← hsv.canLoad_iff]
                  exact .inl ⟨child, hlookup⟩

/-- Releasing a node that was taken before quiet work undoes the take. -/
theorem releaseNode_taken (hdense : E.sparse = false) {u v : NameStore} {addr : BlobAddr}
    (hle : 0 ≤ nodeCount s addr) (hsu : Quiet (Pi.single addr 1) s u)
    (huv : Kept E.toEncoding held u v) :
    wp (releaseNode E addr) (post (fun _ w => Kept E.toEncoding held s w ∧
      Quiet (Pi.single addr (-1)) v w) (fun _ => False)) v := by
  have hpos : 0 < nodeCount v addr := by
    rw [huv.quiet.nodeCount, hsu.nodeCount, Pi.single_eq_same, Pi.zero_apply]
    omega
  refine wp_post_mono (releaseNode_spec huv.sound hdense hpos) ?_ (fun _ h => h)
  rintro _ w ⟨hw, hvw⟩
  refine ⟨⟨hw, ?_⟩, hvw⟩
  have hquiet := (hsu.trans_zero huv.quiet).trans hvw
  rwa [← Pi.single_add, add_neg_cancel, Pi.single_zero] at hquiet

theorem Sound.nodeCount_nonneg {E : Encoding} (hs : Sound E held s) (addr : BlobAddr) :
    0 ≤ nodeCount s addr := by
  cases hnode : s.fileCache.lookup addr with
  | none => rw [nodeCount_of_lookup_eq_none hnode]
  | some node =>
      rw [nodeCount_of_lookup hnode]
      exact (hs.nodes addr node hnode).refCount

/-- Rounds of the walk, one after another. -/
inductive Walk.Followed (E : Env) (s : NameStore) : Walk → List GoString → Walk → Prop
  | nil (walk : Walk) : Walk.Followed E s walk [] walk
  | concat {walk walk' walk'' : Walk} {parts : List GoString} {part : GoString}
      (hparts : Walk.Followed E s walk parts walk') (hpart : walk'.Stepped E s part walk'') :
      Walk.Followed E s walk (parts ++ [part]) walk''

/-- The nodes of the entries without an error are cached. -/
def Walk.Listed (walk : Walk) (t : NameStore) : Prop :=
  ∀ pair ∈ walk.paths, pair.error = none → Grits.Cached t pair.addr

/-- A node that is entered is where the walk stands next. -/
theorem Entry.next_eq {path name : GoString} {current next : Option BlobAddr}
    {pair : PathNodePair} (h : Entry E s path name current pair next)
    (herror : pair.error = none) : next = some pair.addr := by
  cases h <;> first | rfl | cases herror

theorem Walk.Stepped.listed {walk walk' : Walk} {part : GoString}
    (h : walk.Stepped E s part walk') (hlisted : walk.Listed t) (hcached : walk'.Cached t) :
    walk'.Listed t := by
  unfold Walk.Stepped at h
  split at h
  next => rwa [h]
  next =>
    obtain ⟨pair, hpaths, -, hentry⟩ := h
    intro other hother herror
    rw [hpaths, List.mem_append, List.mem_singleton] at hother
    rcases hother with hother | rfl
    · exact hlisted other hother herror
    · exact hcached _ (hentry.next_eq herror)

/-- The loop of `resolveFromLocal`. -/
theorem resolveLoop_spec (ht : Sound E.toEncoding held t) (hdense : E.sparse = false)
    {walk : Walk} (hwalk : walk.Cached t) (hlisted : walk.Listed t)
    (hsteady : walk.Steady E.toEncoding s t) (parts : List GoString) :
    wp (loop (resolveStep E) walk parts) (post
      (fun walk' u => Kept E.toEncoding held t u ∧ walk'.Cached u ∧ walk'.Listed u ∧
        Walk.Followed E s walk parts walk') (fun _ => False)) t := by
  refine wp_post_mono (P := fun walk' u => Kept E.toEncoding held t u ∧ walk'.Cached u ∧
    walk'.Listed u ∧ walk'.Steady E.toEncoding s u ∧ Walk.Followed E s walk parts walk') ?_ ?_
    (fun _ h => h)
  · refine wp_post_loop (I := fun done walk' u => Kept E.toEncoding held t u ∧ walk'.Cached u ∧
      walk'.Listed u ∧ walk'.Steady E.toEncoding s u ∧ Walk.Followed E s walk done walk')
      ⟨ht.kept, hwalk, hlisted, hsteady, .nil walk⟩ ?_
    rintro done part - walk' u - ⟨hu, hwalk', hlisted', hsteady', hdone⟩
    refine wp_post_mono (resolveStep_stepped hu.sound hdense hwalk' hsteady' part) ?_ (fun _ h => h)
    rintro walk'' v ⟨hv, hwalk'', hsteady'', hpart⟩
    have hlisted'' : walk'.Listed v := fun pair hpair herror =>
      (hlisted' pair hpair herror).kept hv
    exact ⟨hu.trans hv, hwalk'', hpart.listed hlisted'' hwalk'', hsteady'', .concat hdone hpart⟩
  · rintro walk' u ⟨hu, hwalk', hlisted', -, hdone⟩
    exact ⟨hu, hwalk', hlisted', hdone⟩

theorem startOfWalk_spec (hs : Sound E.toEncoding held s) (hdense : E.sparse = false)
    {startNode : Option BlobAddr} (hstart : ∀ addr, startNode = some addr → Cached s addr) :
    wp (startOfWalk E startNode) (post
      (fun start t => Kept E.toEncoding held s t ∧ Cached t start)
      (Kept E.toEncoding held s)) s := by
  cases startNode with
  | some addr => exact ⟨hs.kept, hstart addr rfl⟩
  | none =>
      unfold startOfWalk
      rw [wp_get_bind]
      exact wp_post_bind (loadFileNode_spec hs hdense s.rootAddr) (fun _ _ h => h) (fun _ h => h)

/-- The entries of a response are those of a walk from `start` in `s`; their nodes
are cached in `t`. -/
structure ResolvedFrom (E : Env) (s t : NameStore) (start : BlobAddr) (path : GoString)
    (response : LookupResponse) : Prop where
  cached : ∀ pair ∈ response.paths, pair.error = none → Cached t pair.addr
  walked : ∃ metadata walk, E.MetadataAt start metadata ∧ response.paths = walk.paths ∧
    Walk.Followed E s ⟨[.found [] start metadata], some start, []⟩
      (split (trimRight path)) walk

theorem startOfWalk_cached {start : BlobAddr} {startNode : Option BlobAddr}
    (hcached : Cached s start) (hstart : startNode.getD s.rootAddr = start) :
    startOfWalk E startNode s = (.ok start, s) := by
  cases startNode with
  | some addr =>
      rw [Option.getD_some] at hstart
      subst hstart
      rfl
  | none =>
      rw [Option.getD_none] at hstart
      subst hstart
      rw [startOfWalk, bind_run (get_run s), bind_run (loadFileNode_cached hcached)]
      rfl

/-- The walk itself, once its start is cached. -/
theorem walkFrom_spec (hs : Sound E.toEncoding held s) (hdense : E.sparse = false)
    {start : BlobAddr} (hcached : Cached s start) (path : GoString) (serialNumber : ℤ) :
    wp (do
      takeNode start
      let node ← getNode start
      let walk ← Prog.loop (resolveStep E)
        ⟨[.found [] start node.metadata], some start, []⟩ (split (trimRight path))
      releaseNode E start
      pure ⟨walk.paths, serialNumber⟩ : Op LookupResponse) (post
      (fun response t => Kept E.toEncoding held s t ∧ response.serialNumber = serialNumber ∧
        ResolvedFrom E s t start path response)
      (fun _ => False)) s := by
  refine wp_post_bind (takeNode_steady hs hcached) ?_ (fun _ h => h)
  rintro _ u ⟨⟨hu, hsu⟩, hsteady⟩
  obtain ⟨node, hnode⟩ := hcached.quiet hsu
  rw [wp_getNode_bind hnode]
  have hwalk : Walk.Cached ⟨[.found [] start node.metadata], some start, []⟩ u := by
    rintro addr ⟨⟩
    exact ⟨node, hnode⟩
  have hlisted : Walk.Listed ⟨[.found [] start node.metadata], some start, []⟩ u := by
    intro pair hpair _
    rw [List.mem_singleton] at hpair
    subst hpair
    exact ⟨node, hnode⟩
  refine wp_post_bind (resolveLoop_spec hu hdense hwalk hlisted (fun _ _ => hsteady) _) ?_
    (fun _ h => h)
  rintro walk v ⟨huv, -, hlisted', hwalked⟩
  refine wp_post_bind (releaseNode_taken hdense (hs.nodeCount_nonneg _) hsu huv) ?_ (fun _ h => h)
  rintro _ w ⟨hsw, hvw⟩
  refine ⟨hsw, rfl, ?_, node.metadata, walk, (hu.nodes _ node hnode).metadata, rfl, hwalked⟩
  exact fun pair hpair herror => (hlisted' pair hpair herror).quiet hvw

/-- A relative path is resolved without an error from a start that is cached. -/
theorem resolveFromLocal_cached (hs : Sound E.toEncoding held s) (hdense : E.sparse = false)
    {path : GoString} (hrel : isRooted (trimRight path) = false) {startNode : Option BlobAddr}
    (hcached : Cached s (startNode.getD s.rootAddr)) :
    wp (resolveFromLocal E path startNode) (post
      (fun response t => Kept E.toEncoding held s t ∧ response.serialNumber = s.serialNumber ∧
        ResolvedFrom E s t (startNode.getD s.rootAddr) path response)
      (fun _ => False)) s := by
  unfold resolveFromLocal
  simp only
  rw [if_neg (by simp [hrel]), wp_get_bind, wp_bind_run (startOfWalk_cached hcached rfl)]
  exact walkFrom_spec hs hdense hcached path _

/-- Resolving is quiet. -/
theorem resolveFromLocal_spec (hs : Sound E.toEncoding held s) (hdense : E.sparse = false)
    (path : GoString) {startNode : Option BlobAddr}
    (hstart : ∀ addr, startNode = some addr → Cached s addr) :
    wp (resolveFromLocal E path startNode) (post (fun _ t => Kept E.toEncoding held s t)
      (Kept E.toEncoding held s)) s := by
  unfold resolveFromLocal
  simp only
  split
  next => exact hs.kept
  next =>
    rw [wp_get_bind]
    refine wp_post_bind (startOfWalk_spec hs hdense hstart) ?_ (fun _ h => h)
    rintro start t ⟨ht, hcached⟩
    exact wp_post_mono (walkFrom_spec ht.sound hdense hcached path _)
      (fun _ _ h => ht.trans h.1) (fun _ h => h.elim)

/-! ## Lookups are quiet -/

/-- A lookup callback that only reads, in a store whose root is loaded. -/
def LookupCallback.ReadOnly (E : Encoding) (callback : LookupCallback) : Prop :=
  ∀ (held : Multiset BlobAddr) (s : NameStore) (response : LookupResponse)
    (request : LookupRequest) (root : Option BlobAddr), Sound E held s → Cached s s.rootAddr →
    (∀ addr, root = some addr → Cached s addr) →
    wp (callback response request root) (post (fun _ t => Kept E held s t) (Kept E held s)) s

theorem Cached.root_quiet {δ : BlobAddr → ℤ} (h : Cached s s.rootAddr) (hquiet : Quiet δ s t) :
    Cached t t.rootAddr := by
  rw [hquiet.rootAddr]
  exact h.quiet hquiet

theorem runLookupCallbacks_spec (hs : Sound E.toEncoding held s) (hlive : Cached s s.rootAddr)
    {callbacks : List LookupCallback}
    (hcallbacks : ∀ callback ∈ callbacks, callback.ReadOnly E.toEncoding)
    (request : LookupRequest) {root : Option BlobAddr}
    (hroot : ∀ addr, root = some addr → Cached s addr) (response : LookupResponse) :
    wp (runLookupCallbacks callbacks request root response)
      (post (fun _ t => Kept E.toEncoding held s t) (Kept E.toEncoding held s)) s := by
  refine wp_post_loop_const hs.kept ?_
  intro callback hmem response t ht
  have hroot' : ∀ addr, root = some addr → Cached t addr := fun addr haddr =>
    (hroot addr haddr).kept ht
  exact wp_post_mono
    (hcallbacks callback hmem held t response request root ht.sound (hlive.root_quiet ht.quiet)
      hroot')
    (fun _ _ hu => ht.trans hu) (fun _ hu => ht.trans hu)

theorem appendUnseen_subset (paths more : List PathNodePair) :
    ∀ pair ∈ appendUnseen paths more, pair ∈ paths ∨ pair ∈ more := by
  induction more generalizing paths with
  | nil => exact fun pair hpair => .inl hpair
  | cons next more ih =>
      intro pair hpair
      rw [appendUnseen] at hpair
      split at hpair
      next => exact (ih paths pair hpair).imp_right (List.mem_cons_of_mem _)
      next =>
        rcases ih _ pair hpair with hpaths | hmore
        · rcases List.mem_append.mp hpaths with hpaths | hnext
          · exact .inl hpaths
          · rw [List.mem_singleton.mp hnext]
            exact .inr List.mem_cons_self
        · exact .inr (List.mem_cons_of_mem _ hmore)

theorem lookupStep_spec (hs : Sound E.toEncoding held s) (hdense : E.sparse = false)
    {startNode : Option BlobAddr} (hstart : ∀ addr, startNode = some addr → Cached s addr)
    (paths : List PathNodePair) (path : GoString) :
    wp (lookupStep E startNode paths path) (post (fun _ t => Kept E.toEncoding held s t)
      (Kept E.toEncoding held s)) s :=
  wp_post_bind (resolveFromLocal_spec hs hdense _ hstart) (fun _ _ h => h) (fun _ h => h)

theorem callbackRoot_spec (hs : Sound E.toEncoding held s) (hdense : E.sparse = false)
    (callbacks : List LookupCallback) :
    wp (callbackRoot E callbacks) (post
      (fun root t => ∃ u, Kept E.toEncoding held s u ∧ Sound E.toEncoding held t ∧
        match root with
        | none => t = u
        | some root => Cached u root ∧ Quiet (Pi.single root 1) u t)
      (fun _ => False)) s := by
  unfold callbackRoot
  rw [wp_get_bind]
  split
  next => exact ⟨s, hs.kept, hs, rfl⟩
  next =>
    refine wp_post_bind (Q := fun _ => False)
      (wp_tryErr (loadFileNode_spec hs hdense s.rootAddr)
        (R := fun r t => Kept E.toEncoding held s t ∧ ∀ x, r = .ok x → Cached t s.rootAddr)
        (fun _ _ h => ⟨h.1, fun _ _ => h.2⟩)
        (fun _ _ h => ⟨h, fun _ hx => by cases hx⟩)) ?_ (fun _ h => h)
    rintro (e | x) t ⟨ht, hcached⟩
    · exact ⟨t, ht, ht.sound, rfl⟩
    · refine wp_post_bind (takeNode_spec ht.sound (hcached x rfl)) ?_ (fun _ h => h)
      rintro _ u ⟨hu, htu⟩
      exact ⟨t, ht, hu, hcached x rfl, htu⟩

/-- The callback root is released again, whether the work on it succeeds or not. -/
theorem releasing_spec {α : Type} (hdense : E.sparse = false) {root : Option BlobAddr}
    {m : Op α} {u : NameStore} (hsu : Kept E.toEncoding held s u)
    (hroot : match root with
      | none => t = u
      | some root => Cached u root ∧ Quiet (Pi.single root 1) u t)
    (hm : wp m (post (fun _ v => Kept E.toEncoding held t v) (Kept E.toEncoding held t)) t) :
    wp (releasing E root m) (post (fun _ v => Kept E.toEncoding held s v)
      (Kept E.toEncoding held s)) t := by
  have htried : wp (tryErr m) (post (fun _ v => Kept E.toEncoding held t v)
      (fun _ => False)) t := wp_tryErr hm (fun _ _ h => h) (fun _ _ h => h)
  unfold releasing
  refine wp_post_bind htried ?_ (fun _ h => h.elim)
  intro result v hv
  have hend : ∀ w, Kept E.toEncoding held s w →
      wp (match result with
        | .ok a => pure a
        | .error e => fail e : Op α)
      (post (fun _ v => Kept E.toEncoding held s v) (Kept E.toEncoding held s)) w := by
    intro w hw
    cases result with
    | ok a => exact hw
    | error e => exact hw
  cases root with
  | none =>
      rw [← hroot] at hsu
      exact hend v (hsu.trans hv)
  | some root =>
      obtain ⟨-, hquiet⟩ := hroot
      refine wp_post_bind (releaseNode_taken hdense (hsu.sound.nodeCount_nonneg root) hquiet hv)
        ?_ (fun _ h => h.elim)
      rintro _ w ⟨hw, -⟩
      exact hend w (hsu.trans hw)

theorem lookupStart_spec (hs : Sound E.toEncoding held s) (hdense : E.sparse = false)
    (startAddr : BlobAddr) :
    wp (lookupStart E startAddr) (post
      (fun start t => Kept E.toEncoding held s t ∧ ∀ addr, start = some addr → Cached t addr)
      (Kept E.toEncoding held s)) s := by
  unfold lookupStart
  split
  next =>
    refine wp_catching_err (P := fun start t => Kept E.toEncoding held s t ∧
      ∀ addr, start = some addr → Cached t addr) (Q := Kept E.toEncoding held s) ?_
      (fun _ _ h => h) (fun _ _ h => h)
    refine wp_post_bind (loadFileNode_spec hs hdense startAddr) ?_ (fun _ h => h)
    rintro _ t ⟨ht, hcached⟩
    refine ⟨ht, ?_⟩
    rintro addr ⟨⟩
    exact hcached
  next =>
    refine ⟨hs.kept, ?_⟩
    rintro addr ⟨⟩

theorem lookup_spec (hs : Sound E.toEncoding held s) (hdense : E.sparse = false)
    (hlive : Cached s s.rootAddr)
    {callbacks : List LookupCallback}
    (hcallbacks : ∀ callback ∈ callbacks, callback.ReadOnly E.toEncoding)
    (paths : List GoString) (startAddr : BlobAddr) (principal : PrincipalRef) :
    wp (lookup E callbacks paths startAddr principal) (post
      (fun _ t => Kept E.toEncoding held s t) (Kept E.toEncoding held s)) s := by
  unfold lookup
  rw [wp_get_bind]
  refine wp_post_bind (lookupStart_spec hs hdense startAddr) ?_ (fun _ h => h)
  rintro start t ⟨hst, hstart⟩
  refine wp_post_bind (callbackRoot_spec hst.sound hdense callbacks) ?_ (fun _ h => h.elim)
  rintro root v ⟨u, htu, hv, hroot⟩
  have hsu : Kept E.toEncoding held s u := hst.trans htu
  have hstart' : ∀ addr, start = some addr → Cached v addr := by
    intro addr haddr
    have hu := (hstart addr haddr).kept htu
    cases root with
    | none => rwa [hroot]
    | some root => exact hu.quiet hroot.2
  have hroot' : ∀ addr, root = some addr → Cached v addr := by
    rintro addr rfl
    exact hroot.1.quiet hroot.2
  have hlive' : Cached v v.rootAddr := by
    have hu := hlive.root_quiet hsu.quiet
    cases root with
    | none => rwa [hroot]
    | some root => exact hu.root_quiet hroot.2
  refine releasing_spec hdense hsu hroot ?_
  refine wp_post_bind (P := fun _ w => Kept E.toEncoding held v w)
    (Q := Kept E.toEncoding held v) ?_ ?_ (fun _ h => h)
  · refine wp_post_loop_const hv.kept ?_
    intro path _ entries w hw
    exact wp_post_mono
      (lookupStep_spec hw.sound hdense (fun addr haddr => (hstart' addr haddr).kept hw) _ _)
      (fun _ _ hx => hw.trans hx) (fun _ hx => hw.trans hx)
  · intro entries w hw
    exact wp_post_mono
      (runLookupCallbacks_spec hw.sound (hlive'.root_quiet hw.quiet) hcallbacks _
        (fun addr haddr => (hroot' addr haddr).kept hw) _)
      (fun _ _ hx => hw.trans hx) (fun _ hx => hw.trans hx)

end Grits
