import Grits.NameStore.RefInvariant

/-!
# Taking a tree

`recursiveTake` either counts one more reference to the root of the tree, and
with it everything that was not counted before, or it undoes all it has counted
on any level of the recursion and leaves the counts as they were.
-/

namespace Grits

open Prog RefCount

variable {E : Env} {held : Multiset BlobAddr} {s : NameStore} {before : BlobAddr →₀ ℕ}

/-- Every counted node is loaded with its children. -/
def AllReady (E : Encoding) (s : NameStore) (count : BlobAddr →₀ ℕ) : Prop :=
  ∀ addr, count addr ≠ 0 → Ready E s addr

theorem AllReady.managed {E : Encoding} {t : NameStore} {count : BlobAddr →₀ ℕ}
    (h : AllReady E s count) (hmanaged : Managed s t) : AllReady E t count :=
  fun addr haddr => (h addr haddr).managed hmanaged

/-- The state of a take that began in `s` with the counts `before`: what has been
counted since is listed in `taken`. -/
structure Taking (E : Encoding) (held : Multiset BlobAddr) (s : NameStore)
    (before count : BlobAddr →₀ ℕ) (t : TakeState) : Prop where
  sound : Sound E held t.ns
  managed : Managed s t.ns
  represents : Represents t.ns.refCount count
  count : ∀ addr, count addr = before addr + t.taken.count addr

/-- All that was counted has been given back. -/
structure Undone (E : Encoding) (held : Multiset BlobAddr) (s : NameStore)
    (before : BlobAddr →₀ ℕ) (t : TakeState) : Prop where
  taking : Taking E held s before before t
  taken : t.taken = []

theorem Undone.kept {E : Encoding} {t : TakeState} (h : Undone E held s before t)
    (hs : Represents s.refCount before) : Kept E held s t.ns :=
  ⟨h.taking.sound, h.taking.managed.quiet (hs.unique h.taking.represents)⟩

/-- Quiet work inside a take. -/
theorem Taking.kept {E : Encoding} {count : BlobAddr →₀ ℕ} {t : TakeState} {u : NameStore}
    (h : Taking E held s before count t) (hkept : Kept E held t.ns u) :
    Taking E held s before count { t with ns := u } where
  sound := hkept.sound
  managed := h.managed.trans hkept.quiet.managed
  represents := by
    change Represents u.refCount count
    rw [hkept.quiet.refCount]
    exact h.represents
  count := h.count

/-! ## Undoing -/

theorem releaseTakenAt_spec (hdense : E.sparse = false) {addr : BlobAddr}
    (houtside : 0 ≤ outside s addr) {t : NameStore} {count : BlobAddr →₀ ℕ}
    (ht : Sound E.toEncoding held t) (hmanaged : Managed s t)
    (hcount : Represents t.refCount count) (hpos : count addr ≠ 0) :
    wp (releaseTakenAt E addr) (post
      (fun _ u => Sound E.toEncoding held u ∧ Managed s u ∧
        Represents u.refCount (count - Finsupp.single addr 1))
      (fun _ => False)) t := by
  have hlookup := hcount.lookup_of_ne_zero hpos
  unfold releaseTakenAt
  rw [wp_get_bind, hlookup]
  simp only [Option.getD_some]
  split
  next hle =>
    have hone : count addr = 1 := by omega
    -- the reference manager still holds the object, so it is in the cache
    have hnode : 0 < nodeCount t addr := by
      have := hmanaged.outside addr
      rw [outside, tracked_of_lookup hlookup] at this
      omega
    have herased : count - Finsupp.single addr 1 = count.erase addr := by
      ext other
      by_cases hother : other = addr
      · subst hother
        simp [hone]
      · rw [Finsupp.tsub_apply, Finsupp.single_eq_of_ne hother, Finsupp.erase_ne hother,
          tsub_zero]
    rw [wp_modify_bind]
    split
    next =>
      have hsound : Sound E.toEncoding held { t with refCount := t.refCount.erase addr } :=
        { ht with }
      refine wp_post_mono (releaseNode_spec hsound hdense hnode) ?_ (fun _ h => h)
      rintro _ u ⟨hu, hquiet⟩
      refine ⟨hu, hmanaged.trans (managed_untrack hlookup hquiet), ?_⟩
      rw [hquiet.refCount, herased]
      exact hcount.erase addr
    next hnone =>
      rw [nodeCount_of_lookup_eq_none hnone] at hnode
      omega
  next hlt =>
    refine ⟨{ ht with }, hmanaged.trans (managed_insertRef hlookup), ?_⟩
    exact hcount.decrement (by omega)

theorem releaseTaken_spec (hdense : E.sparse = false) (houtside : ∀ addr, 0 ≤ outside s addr)
    {t : TakeState} {count : BlobAddr →₀ ℕ} (ht : Taking E.toEncoding held s before count t) :
    wp (releaseTaken E) (post (fun _ u => Undone E.toEncoding held s before u)
      (fun _ => False)) t := by
  unfold releaseTaken
  rw [wp_get_bind]
  -- after the addresses `done`, only those still to come are counted on top of `before`
  let I : List BlobAddr → Unit → NameStore → Prop := fun done _ u =>
    Sound E.toEncoding held u ∧ Managed s u ∧ ∃ count, Represents u.refCount count ∧
      ∀ addr, count addr + done.count addr = before addr + t.taken.count addr
  have hloop : wp (loop (fun _ addr => releaseTakenAt E addr) () t.taken)
      (post (I t.taken) (fun _ => False)) t.ns := by
    refine wp_post_loop (I := I) ⟨ht.sound, ht.managed, count, ht.represents, ?_⟩ ?_
    · intro addr
      rw [ht.count addr, List.count_nil, add_zero]
    · rintro done addr todo _ u hall ⟨hu, hmanaged, count', hcount', hsum⟩
      have hpos : count' addr ≠ 0 := by
        have := hsum addr
        rw [← hall, List.count_append, List.count_cons_self] at this
        omega
      refine wp_post_mono
        (releaseTakenAt_spec hdense (houtside addr) hu hmanaged hcount' hpos) ?_ (fun _ h => h)
      rintro _ v ⟨hv, hmanaged', hcount''⟩
      refine ⟨hv, hmanaged', _, hcount'', ?_⟩
      intro other
      have := hsum other
      rw [List.count_append, List.count_singleton, Finsupp.tsub_apply, Finsupp.single_apply]
      by_cases hother : addr = other
      · subst hother
        simp only [beq_self_eq_true, if_true]
        omega
      · rw [if_neg hother, if_neg (by simpa using hother)]
        omega
  refine wp_post_bind (P := fun _ u => I t.taken () u.ns) (Q := fun _ => False) ?_ ?_
    (fun _ h => h.elim)
  · refine wp_zoom hloop fun _ u hpost => ?_
    exact hpost.imp (fun _ h => h) (fun h => h)
  · rintro _ u ⟨hu, hmanaged, count', hcount', hsum⟩
    have heq : count' = before := by
      ext addr
      have := hsum addr
      omega
    subst heq
    exact ⟨⟨hu, hmanaged, hcount', fun addr => by simp⟩, rfl⟩

theorem releaseTaken_blobStore (hdense : E.sparse = false) (t : TakeState) :
    wp (releaseTaken E) (fun _ u => u.ns.blobStore = t.ns.blobStore) t := by
  have hnode : ∀ addr s, wp (releaseNode E addr) (fun _ u => u.blobStore = s.blobStore) s := by
    intro addr s
    unfold releaseNode getNode
    rw [wp_bind_iff, wp_get_bind]
    split
    next node _ =>
      simp only [wp_pure, andThen_ok, setNode, wp_modify_bind, hdense, Bool.false_eq_true,
        and_false, if_false]
      split
      · rfl
      · rfl
    next => rfl
  have hat : ∀ addr s, wp (releaseTakenAt E addr) (fun _ u => u.blobStore = s.blobStore) s := by
    intro addr s
    unfold releaseTakenAt
    simp only [wp_get_bind]
    split
    next =>
      rw [wp_modify_bind]
      split
      next => exact hnode addr _
      next => rfl
    next => rfl
  have hloop : wp (loop (fun _ addr => releaseTakenAt E addr) () t.taken)
      (fun _ u => u.blobStore = t.ns.blobStore) t.ns := by
    refine wp_mono (wp_loop (I := fun _ _ u => u.blobStore = t.ns.blobStore)
      (E := fun _ u => u.blobStore = t.ns.blobStore) rfl ?_) ?_
    · rintro done addr todo _ u - hu
      refine wp_mono (hat addr u) ?_
      rintro (halt | _) v hv
      · exact hv.trans hu
      · exact hv.trans hu
    · rintro (halt | _) u hu
      · exact hu
      · exact hu
  unfold releaseTaken
  rw [wp_get_bind]
  refine wp_bind (P := fun _ u => u.ns.blobStore = t.ns.blobStore) ?_ ?_ (fun _ _ h => h)
  · exact wp_zoom hloop fun _ _ h => h
  · intro _ u hu
    exact hu

/-- What is said of an error stays true while the references are given back. -/
theorem undoing_spec (hdense : E.sparse = false) (houtside : ∀ addr, 0 ≤ outside s addr)
    {α : Type} {m : Prog TakeState Halt α} {t : TakeState} {P : α → TakeState → Prop}
    {Q : GoErr → NameStore → Prop}
    (hundone : ∀ {e s t}, Q e s → t.blobStore = s.blobStore → Q e t)
    (h : wp m (ends P fun e u => (∃ count, Taking E.toEncoding held s before count u) ∧
      Q e u.ns) t) :
    wp (undoing E m) (ends P fun e u => Undone E.toEncoding held s before u ∧ Q e u.ns) t := by
  refine wp_ends_catching h (fun _ _ h => h) ?_
  rintro e u ⟨⟨count, hu⟩, hQ⟩
  have hrelease := wp_and (releaseTaken_spec hdense houtside hu) (releaseTaken_blobStore hdense u)
  refine wp_bind hrelease ?_ ?_
  · rintro _ v ⟨hv, hblobs⟩
    exact ⟨hv, hundone hQ hblobs⟩
  · rintro halt v ⟨hpost, -⟩
    cases halt <;> exact hpost.elim

theorem wp_onNameStore {α : Type} {m : Op α} {t : TakeState} {P : α → NameStore → Prop}
    {Q : GoErr → NameStore → Prop} {R : α → TakeState → Prop} {S : GoErr → TakeState → Prop}
    (h : wp m (ends P Q) t.ns) (hok : ∀ a u, P a u → R a { t with ns := u })
    (herr : ∀ e u, Q e u → S e { t with ns := u }) : wp (onNameStore m) (ends R S) t :=
  wp_zoom h fun _ u hends => hends.imp (fun a => hok a u) (fun e => herr e u)

/-! ## Taking -/

/-- What taking the node at `addr` in the state `start` leaves behind: one more
reference to it, from outside, and nothing changed above it. -/
structure Taken (E : Encoding) (held : Multiset BlobAddr) (s start : NameStore)
    (before count : BlobAddr →₀ ℕ) (refs : Multiset BlobAddr) (addr : BlobAddr)
    (count' : BlobAddr →₀ ℕ) (t : TakeState) : Prop where
  since : Managed start t.ns
  taking : Taking E held s before count' t
  counted : Counted E.references count' (addr ::ₘ refs)
  ready : AllReady E t.ns count'
  above : ∀ other, E.rank addr < E.rank other → count' other = count other

/-- One more reference to a node that is counted already. -/
theorem taken_known {count : BlobAddr →₀ ℕ} {refs : Multiset BlobAddr} {addr : BlobAddr}
    {t : TakeState} (ht : Taking E.toEncoding held s before count t)
    (hcounted : Counted E.references count refs) (hready : AllReady E.toEncoding t.ns count)
    (hpos : count addr ≠ 0) :
    wp (countTaken addr ((count addr : ℤ) + 1)) (post
      (fun _ u => Taken E.toEncoding held s t.ns before count refs addr
        (count + Finsupp.single addr 1) u) (fun _ => False)) t := by
  have hlookup := ht.represents.lookup_of_ne_zero hpos
  have hmanaged := managed_insertRef (m := (count addr : ℤ) + 1) hlookup
  refine ⟨hmanaged, ⟨{ ht.sound with }, ht.managed.trans hmanaged, ht.represents.take addr, ?_⟩,
    hcounted.take_known hpos, ?_, ?_⟩
  · intro other
    change _ = before other + (t.taken ++ [addr]).count other
    rw [Finsupp.add_apply, ht.count other, List.count_append, List.count_singleton,
      Finsupp.single_apply]
    by_cases hother : addr = other
    · simp [hother, add_assoc]
    · rw [if_neg hother, if_neg (by simpa using hother)]
      rfl
  · intro other hother
    refine (hready other ?_).managed hmanaged
    by_cases heq : other = addr
    · rwa [heq]
    · rwa [Finsupp.add_apply, Finsupp.single_eq_of_ne heq, add_zero] at hother
  · intro other hother
    rw [Finsupp.add_apply, Finsupp.single_eq_of_ne, add_zero]
    rintro rfl
    exact lt_irrefl _ hother

/-- The first reference to a node whose children have been taken. -/
theorem taken_new {count count₀ : BlobAddr →₀ ℕ} {refs : Multiset BlobAddr} {addr : BlobAddr}
    {t : TakeState} (ht : Taking E.toEncoding held s before count t)
    (hcounted : Counted E.references count (refs + E.references addr))
    (hready : AllReady E.toEncoding t.ns count) (haddr : Ready E.toEncoding t.ns addr)
    (hzero : count addr = 0)
    (habove : ∀ other, E.rank addr < E.rank other → count other = count₀ other) :
    wp (do countTaken addr 1; onNameStore (takeNode addr)) (post
      (fun _ u => Taken E.toEncoding held s t.ns before count₀ refs addr
        (count + Finsupp.single addr 1) u) (fun _ => False)) t := by
  have hnone : t.ns.refCount.lookup addr = none := ht.represents.lookup_eq_none_iff.mpr hzero
  have hrefs := ht.represents.take addr
  rw [hzero] at hrefs
  simp only [Nat.cast_zero, zero_add] at hrefs
  have hsound : Sound E.toEncoding held { t.ns with refCount := t.ns.refCount.insert addr 1 } :=
    { ht.sound with }
  unfold countTaken
  rw [wp_modify_bind]
  refine wp_zoom (takeNode_spec hsound haddr.cached) fun _ u hpost =>
    hpost.imp ?_ (fun h => h)
  rintro _ ⟨hu, hquiet⟩
  have hmanaged := managed_track hnone hquiet
  refine ⟨hmanaged, ⟨hu, ht.managed.trans hmanaged, ?_, ?_⟩, hcounted.take_new hzero, ?_, ?_⟩
  · change Represents u.refCount _
    rw [hquiet.refCount]
    exact hrefs
  · intro other
    change _ = before other + (t.taken ++ [addr]).count other
    rw [Finsupp.add_apply, ht.count other, List.count_append, List.count_singleton,
      Finsupp.single_apply]
    by_cases hother : addr = other
    · simp [hother, add_assoc]
    · rw [if_neg hother, if_neg (by simpa using hother)]
      rfl
  · intro other hother
    by_cases heq : other = addr
    · rw [heq]
      exact haddr.managed hmanaged
    · rw [Finsupp.add_apply, Finsupp.single_eq_of_ne heq, add_zero] at hother
      exact (hready other hother).managed hmanaged
  · intro other hother
    rw [Finsupp.add_apply, Finsupp.single_eq_of_ne, add_zero]
    · exact habove other hother
    · rintro rfl
      exact lt_irrefl _ hother

/-- The children of a node that have been taken so far, since the state `start`. -/
structure ChildrenTaken (E : Encoding) (held : Multiset BlobAddr) (s start : NameStore)
    (before count : BlobAddr →₀ ℕ) (refs : Multiset BlobAddr) (addr : BlobAddr)
    (done : List (Σ _ : GoString, BlobAddr)) (count' : BlobAddr →₀ ℕ) (t : TakeState) :
    Prop where
  since : Managed start t.ns
  taking : Taking E held s before count' t
  counted : Counted E.references count' (refs + (done.map (·.2) : List BlobAddr))
  ready : AllReady E t.ns count'
  above : ∀ other, E.rank addr ≤ E.rank other → count' other = count other
  cids : ∀ entry ∈ done, IsCid entry.2

theorem ChildrenTaken.concat {E : Encoding} {start : NameStore} {count count' count'' : BlobAddr →₀ ℕ}
    {refs : Multiset BlobAddr} {addr : BlobAddr} {done : List (Σ _ : GoString, BlobAddr)}
    {entry : Σ _ : GoString, BlobAddr} {t u v : TakeState}
    (h : ChildrenTaken E held s start before count refs addr done count' t)
    (htu : Managed t.ns u.ns) (hcid : IsCid entry.2) (hrank : E.rank entry.2 < E.rank addr)
    (hentry : Taken E held s u.ns before count' (refs + (done.map (·.2) : List BlobAddr)) entry.2
      count'' v) :
    ChildrenTaken E held s start before count refs addr (done ++ [entry]) count'' v where
  since := (h.since.trans htu).trans hentry.since
  taking := hentry.taking
  counted := by
    have hcounted := hentry.counted
    rwa [← Multiset.add_cons, Multiset.cons_coe, ← Multiset.coe_eq_coe.mpr
      (List.perm_append_singleton entry.2 (done.map (·.2))),
      ← List.map_singleton (f := fun entry : Σ _ : GoString, BlobAddr => entry.2),
      ← List.map_append] at hcounted
  ready := hentry.ready
  above := by
    intro other hother
    rw [hentry.above other (hrank.trans_le hother), h.above other hother]
  cids := by
    intro other hother
    rcases List.mem_append.mp hother with hdone | hlast
    · exact h.cids other hdone
    · rw [List.mem_singleton] at hlast
      rwa [hlast]

/-- What `recursiveTake` needs to know about the children of a node. -/
theorem childrenResult_rank {addr : BlobAddr} {children : Option Children} {t : NameStore}
    (h : ChildrenResult E.toEncoding addr children t) (ht : Sound E.toEncoding held t)
    {name : GoString} {child : BlobAddr} (hchild : (children.getD ∅).lookup name = some child)
    (hcid : IsCid child) : E.rank child < E.rank addr := by
  cases children with
  | none => simp at hchild
  | some children =>
      obtain ⟨metadata, hmetadata, -, hreadable⟩ := ChildrenRead.readable h ht
      refine (hreadable.rank_lt hchild ?_).trans hmetadata.rank_lt
      rintro rfl
      exact not_isCid_nil hcid

/-- Once all children are known to be proper addresses, the node is as it should be. -/
theorem childrenResult_ready {addr : BlobAddr} {children : Option Children} {t : NameStore}
    (h : ChildrenResult E.toEncoding addr children t) (ht : Sound E.toEncoding held t)
    (hcids : ∀ name child, (children.getD ∅).lookup name = some child → IsCid child) :
    Ready E.toEncoding t addr ∧
      E.references addr = Encoding.targets (children.getD ∅) := by
  cases children with
  | none => exact ⟨.inr ⟨h.2, h.1⟩, Encoding.references_eq_zero h.1⟩
  | some children =>
      obtain ⟨metadata, hmetadata, htype, hreadable⟩ := ChildrenRead.readable h ht
      have hcontent := hreadable.contentAt fun name hname =>
        not_isCid_nil (hcids name [] hname)
      have hdir : E.DirAt addr children := ⟨metadata, hmetadata, htype, hcontent⟩
      exact ⟨.inl ⟨children, h, hdir⟩, hdir.references⟩

theorem ChildrenResult.managed {E : Encoding} {addr : BlobAddr} {children : Option Children}
    {t u : NameStore} (h : ChildrenResult E addr children t) (htu : Managed t u) :
    ChildrenResult E addr children u := by
  cases children with
  | none => exact ⟨h.1, h.2.managed htu⟩
  | some children => exact ChildrenRead.managed h htu

/-- A way to follow how the nodes of a tree are loaded.  A node with `L` is loaded
and read with no other error than one in `Q`, `R` leads from the state before to the
state after, and what holds of a node holds of its children. -/
structure Loading (E : Env) (R : NameStore → NameStore → Prop) (L : NameStore → BlobAddr → Prop)
    (Q : GoErr → NameStore → Prop) : Prop where
  refl : ∀ s, R s s
  trans : ∀ {s t u}, R s t → R t u → R s u
  load : ∀ {held s addr}, Sound E.toEncoding held s → L s addr →
    wp (loadFileNode E addr) (ends
      (fun _ t => (Kept E.toEncoding held s t ∧ Cached t addr) ∧ R s t)
      (fun e t => Kept E.toEncoding held s t ∧ Q e t)) s
  read : ∀ {held s addr}, Sound E.toEncoding held s → Cached s addr → L s addr →
    wp (nodeChildren E addr) (ends
      (fun children t => (Kept E.toEncoding held s t ∧
        ChildrenResult E.toEncoding addr children t) ∧ R s t)
      (fun e t => Kept E.toEncoding held s t ∧ Q e t)) s
  same : ∀ {s t}, t.blobStore = s.blobStore → (∀ addr, Cached s addr → Cached t addr) → R s t
  stays : ∀ {s t addr}, L s addr → R s t → L t addr
  child : ∀ {held s addr children name child}, Sound E.toEncoding held s → L s addr →
    ChildrenResult E.toEncoding addr children s →
    (children.getD ∅).lookup name = some child → L s child
  undone : ∀ {e s t}, Q e s → t.blobStore = s.blobStore → Q e t

/-- Nothing is asked of the nodes, and nothing is known of the errors. -/
theorem loading_any (hdense : E.sparse = false) :
    Loading E (fun _ _ => True) (fun _ _ => True) (fun _ _ => True) where
  refl := fun _ => trivial
  trans := fun _ _ => trivial
  load := by
    intro held s addr hs _
    rw [ends_const]
    exact wp_post_mono (loadFileNode_spec hs hdense addr) (fun _ _ h => ⟨h, trivial⟩)
      (fun _ h => ⟨h, trivial⟩)
  read := by
    intro held s addr hs hcached _
    rw [ends_const]
    exact wp_post_mono (nodeChildren_spec hs hcached) (fun _ _ h => ⟨h, trivial⟩)
      (fun _ h => ⟨h, trivial⟩)
  same := fun _ _ => trivial
  stays := fun _ _ => trivial
  child := fun _ _ _ _ => trivial
  undone := fun _ _ => trivial

section Taking

variable {R : NameStore → NameStore → Prop} {L : NameStore → BlobAddr → Prop}
  {Q : GoErr → NameStore → Prop}

/-- The specification of `recursiveTake` for trees of at most this height. -/
def TakesBelow (E : Env) (R : NameStore → NameStore → Prop) (L : NameStore → BlobAddr → Prop)
    (Q : GoErr → NameStore → Prop) (held : Multiset BlobAddr) (s : NameStore)
    (before : BlobAddr →₀ ℕ) (fuel : ℕ) : Prop :=
  ∀ (addr : BlobAddr) (count : BlobAddr →₀ ℕ) (refs : Multiset BlobAddr) (t : TakeState),
    E.rank addr < fuel → Taking E.toEncoding held s before count t →
    Counted E.references count refs → AllReady E.toEncoding t.ns count → Cached t.ns addr →
    L t.ns addr →
    wp (recursiveTakeFrom E fuel addr) (ends
      (fun _ u => (∃ count',
        Taken E.toEncoding held s t.ns before count refs addr count' u) ∧ R t.ns u.ns)
      (fun e u => Undone E.toEncoding held s before u ∧ Q e u.ns)) t

/-- The loop of `recursiveTake` over the children of a node. -/
theorem takeChildren_spec (hdense : E.sparse = false) (houtside : ∀ addr, 0 ≤ outside s addr)
    (hL : Loading E R L Q) {fuel : ℕ} (ih : TakesBelow E R L Q held s before fuel)
    {addr : BlobAddr} (hfuel : E.rank addr < fuel + 1) {count : BlobAddr →₀ ℕ}
    {refs : Multiset BlobAddr} {t : TakeState}
    (ht : Taking E.toEncoding held s before count t) (hcounted : Counted E.references count refs)
    (hready : AllReady E.toEncoding t.ns count) (haddr : L t.ns addr)
    {children : Option Children} (hresult : ChildrenResult E.toEncoding addr children t.ns)
    {entries : List (Σ _ : GoString, BlobAddr)}
    (hentries : (entries : Multiset _) = (children.getD ∅).entries) :
    wp (loop (fun (_ : Unit) entry => do
        undoing E (onNameStore (loadFileNode E entry.2))
        undoing E (recursiveTakeFrom E fuel entry.2)) () entries)
      (ends (fun _ u => (∃ count', ChildrenTaken E.toEncoding held s t.ns before count refs addr
        entries count' u) ∧ R t.ns u.ns)
      (fun e u => Undone E.toEncoding held s before u ∧ Q e u.ns)) t := by
  refine wp_ends_loop (I := fun done _ u => (∃ count',
    ChildrenTaken E.toEncoding held s t.ns before count refs addr done count' u) ∧
      R t.ns u.ns) ?_ ?_
  · exact ⟨⟨count, .refl _, ht, by simpa using hcounted, hready, fun _ _ => rfl, by simp⟩,
      hL.refl _⟩
  · rintro done entry todo _ u hall ⟨⟨count', hu⟩, htu⟩
    have hlookup : (children.getD ∅).lookup entry.1 = some entry.2 := by
      refine (mem_entries_iff hentries).mp ?_
      rw [← hall]
      simp
    have hchild : L t.ns entry.2 := hL.child ht.sound haddr hresult hlookup
    have hload : wp (undoing E (onNameStore (loadFileNode E entry.2))) (ends
        (fun _ v => Taking E.toEncoding held s before count' v ∧ Managed u.ns v.ns ∧
          Cached v.ns entry.2 ∧ R u.ns v.ns)
        (fun e v => Undone E.toEncoding held s before v ∧ Q e v.ns)) u := by
      refine undoing_spec hdense houtside hL.undone
        (wp_onNameStore (hL.load hu.taking.sound (hL.stays hchild htu)) ?_ ?_)
      · rintro _ v ⟨⟨hv, hcached⟩, huv⟩
        exact ⟨hu.taking.kept hv, hv.quiet.managed, hcached, huv⟩
      · exact fun e v hv => ⟨⟨count', hu.taking.kept hv.1⟩, hv.2⟩
    refine wp_ends_bind hload ?_ (fun _ _ h => h)
    rintro _ v ⟨hv, hmanaged, hcached, huv⟩
    have htv := hL.trans htu huv
    have hcid : IsCid entry.2 := hcached.isCid hv.sound
    have hrank := childrenResult_rank hresult ht.sound hlookup hcid
    have hspec := ih entry.2 count' (refs + (done.map (·.2) : List BlobAddr)) v (by omega) hv
      hu.counted (hu.ready.managed hmanaged) hcached (hL.stays hchild htv)
    refine undoing_spec hdense houtside hL.undone (wp_ends_mono hspec ?_ ?_)
    · rintro _ w ⟨⟨count'', hw⟩, hvw⟩
      exact ⟨⟨count'', hu.concat hmanaged hcid hrank hw⟩, hL.trans htv hvw⟩
    · exact fun e w hw => ⟨⟨before, hw.1.taking⟩, hw.2⟩

theorem takeNode_blobStore (addr : BlobAddr) (s : NameStore) :
    wp (takeNode addr) (fun _ t => t.blobStore = s.blobStore) s := by
  unfold takeNode getNode
  rw [wp_bind_iff, wp_get_bind]
  split
  next node _ =>
    rw [wp_pure, andThen_ok]
    split
    · rfl
    · rfl
  next => rfl

theorem countNew_blobStore (addr : BlobAddr) (t : TakeState) :
    wp (do countTaken addr 1; onNameStore (takeNode addr))
      (fun _ u => u.ns.blobStore = t.ns.blobStore) t := by
  unfold countTaken
  rw [wp_modify_bind]
  exact wp_zoom (takeNode_blobStore addr _) fun _ _ h => h

/-- One more reference, with no blob read for it. -/
theorem Taken.same (hL : Loading E R L Q) {start : NameStore} {count count' : BlobAddr →₀ ℕ}
    {refs : Multiset BlobAddr} {addr : BlobAddr} {u : TakeState}
    (h : Taken E.toEncoding held s start before count refs addr count' u)
    (hblobs : u.ns.blobStore = start.blobStore) : R start u.ns :=
  hL.same hblobs fun _ hcached => hcached.managed h.since

theorem recursiveTakeFrom_spec (hdense : E.sparse = false)
    (houtside : ∀ addr, 0 ≤ outside s addr) (hL : Loading E R L Q) (fuel : ℕ) :
    TakesBelow E R L Q held s before fuel := by
  induction fuel with
  | zero =>
      intro addr _ _ _ hfuel
      omega
  | succ fuel ih =>
      intro addr count refs t hfuel ht hcounted hready hcached haddr
      rw [recursiveTakeFrom, wp_get_bind]
      cases hlookup : t.ns.refCount.lookup addr with
      | some n =>
          obtain ⟨hpos, rfl⟩ := ht.represents.eq_of_lookup hlookup
          simp only
          rw [if_neg (by omega)]
          have hblobs : wp (countTaken addr ((count addr : ℤ) + 1))
              (fun _ u => u.ns.blobStore = t.ns.blobStore) t := rfl
          have htaken := wp_and (taken_known ht hcounted hready hpos) hblobs
          refine wp_mono htaken ?_
          rintro (halt | _) u ⟨hpost, hsame⟩
          · cases halt <;> exact hpost.elim
          · exact ⟨⟨_, hpost⟩, Taken.same hL hpost hsame⟩
      | none =>
          have hzero := ht.represents.lookup_eq_none_iff.mp hlookup
          simp only
          have hread : wp (undoing E (onNameStore (nodeChildren E addr))) (ends
              (fun children u => Taking E.toEncoding held s before count u ∧
                Managed t.ns u.ns ∧ ChildrenResult E.toEncoding addr children u.ns ∧
                R t.ns u.ns)
              (fun e u => Undone E.toEncoding held s before u ∧ Q e u.ns)) t := by
            refine undoing_spec hdense houtside hL.undone
              (wp_onNameStore (hL.read ht.sound hcached haddr) ?_ ?_)
            · rintro children u ⟨⟨hu, hresult⟩, htu⟩
              exact ⟨ht.kept hu, hu.quiet.managed, hresult, htu⟩
            · exact fun e u hu => ⟨⟨count, ht.kept hu.1⟩, hu.2⟩
          refine wp_ends_bind hread ?_ (fun _ _ h => h)
          rintro children u ⟨hu, hmanaged, hresult, htu⟩
          refine wp_ends_bind (P := fun (entries : List (Σ _ : GoString, BlobAddr))
              (v : TakeState) => Taking E.toEncoding held s before count v ∧ Managed u.ns v.ns ∧
                R u.ns v.ns ∧ (entries : Multiset _) = (children.getD ∅).entries)
            (S := fun _ _ => False) ?_ ?_ (fun _ _ h => h.elim)
          · have htick : Kept E.toEncoding held u.ns { u.ns with ticks := u.ns.ticks + 1 } :=
              ⟨hu.sound.tick _, { Quiet.refl u.ns with }⟩
            exact ⟨hu.kept htick, htick.quiet.managed, hL.same rfl fun _ h => h,
              E.coe_childOrder _ _⟩
          rintro entries v ⟨hv, hmanaged', huv, hentries⟩
          have hmanagedV := hmanaged.trans hmanaged'
          have htv := hL.trans htu huv
          refine wp_ends_bind (takeChildren_spec hdense houtside hL ih hfuel hv hcounted
            (hready.managed hmanagedV) (hL.stays haddr htv) (hresult.managed hmanaged') hentries)
            ?_ (fun _ _ h => h)
          rintro _ w ⟨⟨count', hw⟩, hvw⟩
          have hcids : ∀ name child, (children.getD ∅).lookup name = some child → IsCid child :=
            fun name child hchild => hw.cids ⟨name, child⟩ ((mem_entries_iff hentries).mpr hchild)
          obtain ⟨hnode, hrefs⟩ := childrenResult_ready
            ((hresult.managed hmanaged').managed hw.since) hw.taking.sound hcids
          have hcounted' := hw.counted
          rw [← Multiset.map_coe, hentries, ← Encoding.targets, ← hrefs] at hcounted'
          have hzero' : count' addr = 0 := by rw [hw.above addr le_rfl, hzero]
          have htaken := wp_and (taken_new hw.taking hcounted' hw.ready hnode hzero'
            fun other hother => hw.above other hother.le) (countNew_blobStore addr w)
          refine wp_mono htaken ?_
          rintro (halt | _) x ⟨hpost, hsame⟩
          · cases halt <;> exact hpost.elim
          · exact ⟨⟨_, { hpost with since := (hmanagedV.trans hw.since).trans hpost.since }⟩,
              hL.trans (hL.trans htv hvw) (Taken.same hL hpost hsame)⟩

/-- Taking the root of a tree counts one more reference to it, or changes nothing. -/
theorem recursiveTake_ends (hdense : E.sparse = false) (hL : Loading E R L Q) {s : NameStore}
    {count : BlobAddr →₀ ℕ} {refs : Multiset BlobAddr} (houtside : ∀ addr, 0 ≤ outside s addr)
    (hs : Sound E.toEncoding held s) (hrefs : Represents s.refCount count)
    (hcounted : Counted E.references count refs) (hready : AllReady E.toEncoding s count)
    {addr : BlobAddr} (hcached : Cached s addr) (haddr : L s addr) :
    wp (recursiveTake E (some addr)) (ends
      (fun _ t => (Sound E.toEncoding held t ∧ Managed s t ∧ ∃ count',
        Represents t.refCount count' ∧ Counted E.references count' (addr ::ₘ refs) ∧
        AllReady E.toEncoding t count') ∧ R s t)
      (fun e t => Kept E.toEncoding held s t ∧ Q e t)) s := by
  have hstart : Taking E.toEncoding held s count count ⟨s, []⟩ :=
    ⟨hs, .refl s, hrefs, fun _ => by simp⟩
  rw [recursiveTake, if_neg (by simp [hdense])]
  refine wp_zoom (recursiveTakeFrom_spec hdense houtside hL (E.rank addr + 1) addr count refs
    ⟨s, []⟩ (Nat.lt_succ_self _) hstart hcounted hready hcached haddr) fun r u hends => ?_
  refine hends.imp ?_ fun e h => ⟨h.1.kept hrefs, h.2⟩
  rintro _ ⟨⟨count', h⟩, hst⟩
  exact ⟨⟨h.taking.sound, h.taking.managed, count', h.taking.represents, h.counted, h.ready⟩, hst⟩

end Taking

theorem recursiveTake_spec (hdense : E.sparse = false) {s : NameStore} {count : BlobAddr →₀ ℕ}
    {refs : Multiset BlobAddr} (houtside : ∀ addr, 0 ≤ outside s addr)
    (hs : Sound E.toEncoding held s) (hrefs : Represents s.refCount count)
    (hcounted : Counted E.references count refs) (hready : AllReady E.toEncoding s count)
    {addr : BlobAddr} (hcached : Cached s addr) :
    wp (recursiveTake E (some addr)) (post
      (fun _ t => Sound E.toEncoding held t ∧ Managed s t ∧ ∃ count',
        Represents t.refCount count' ∧ Counted E.references count' (addr ::ₘ refs) ∧
        AllReady E.toEncoding t count')
      (Kept E.toEncoding held s)) s := by
  rw [← ends_const]
  exact wp_ends_mono (recursiveTake_ends hdense (loading_any hdense) houtside hs hrefs hcounted
    hready hcached trivial) (fun _ _ h => h.1) (fun _ _ h => h.1)

end Grits
