import Grits.NameStore.Volume

/-!
# Atomicity and counting

What callers of a dense name store may rely on in every reachable state: a link
that fails changes nothing that counts, and the counts of the reference manager
are the numbers of directory entries in the tree.
-/

namespace Grits

open Prog RefCount

variable {E : Env} {H : Hooks} {holders : Multiset BlobAddr} {s t : NameStore}

/-! ## A failed link -/

/-- What a failed call must leave as it was: the root, the serial number, the
counts of the reference manager and those of the node objects. -/
structure Unchanged (s t : NameStore) : Prop where
  rootAddr : t.rootAddr = s.rootAddr
  serialNumber : t.serialNumber = s.serialNumber
  refCount : t.refCount = s.refCount
  nodes : ∀ addr node, s.fileCache.lookup addr = some node →
    ∃ node', t.fileCache.lookup addr = some node' ∧ node'.metadata = node.metadata ∧
      node'.refCount = node.refCount
  loaded : ∀ addr node', t.fileCache.lookup addr = some node' →
    s.fileCache.lookup addr = none → node'.refCount = 0

theorem Quiet.unchanged (h : Quiet 0 s t) : Unchanged s t where
  rootAddr := h.rootAddr
  serialNumber := h.serialNumber
  refCount := h.refCount
  nodes := by
    intro addr node hnode
    obtain ⟨node', hnode', hmetadata, -⟩ := h.kept addr node hnode
    refine ⟨node', hnode', hmetadata, ?_⟩
    have hcount := h.nodeCount addr
    rw [nodeCount_of_lookup hnode, nodeCount_of_lookup hnode'] at hcount
    simpa using hcount
  loaded := by
    intro addr node' hnode' hnone
    have hcount := h.nodeCount addr
    rw [nodeCount_of_lookup_eq_none hnone, nodeCount_of_lookup hnode'] at hcount
    simpa using hcount

/-- A link that returns an error has changed nothing that is counted or
committed, wherever it failed. -/
theorem multiLink_error_unchanged (hdense : E.sparse = false) (hs : Reachable E holders s)
    (hH : H.ReadOnly E.toEncoding) {requests : List LinkRequest} {returnResults : Bool}
    {principal : PrincipalRef} {e : GoErr}
    (hrun : multiLink E H requests returnResults principal s = (.error (.err e), t)) :
    Unchanged s t := by
  have hspec := wp_of_run
    (multiLink_spec hdense hH (hs.inv hdense) requests returnResults principal) hrun
  exact Quiet.unchanged (Kept.quiet hspec)

/-- Linking below an entry that is not there fails and changes nothing. -/
theorem multiLink_error_unchanged_below_missing :
    ∃ t, multiLink Table.smallEnv Hooks.none [⟨"b/c".toList, Table.smallFile, [], 0⟩] false
        .backend Table.smallVolume = (.error (.err .notExist), t) ∧
      Unchanged Table.smallVolume t := by
  have hresult : (multiLink Table.smallEnv Hooks.none [⟨"b/c".toList, Table.smallFile, [], 0⟩] false
      .backend Table.smallVolume).1 = .error (.err .notExist) := by decide +kernel
  have hrun := run_eq hresult
  exact ⟨_, hrun,
    multiLink_error_unchanged rfl Table.reachable_smallVolume (Hooks.none_readOnly _) hrun⟩

/-! ## The counts -/

/-- The count of the reference manager for `addr`. -/
def managerCount (s : NameStore) (addr : BlobAddr) : ℤ := (s.refCount.lookup addr).getD 0

/-- The children of the cached node at `addr`. -/
def cachedChildren (s : NameStore) (addr : BlobAddr) : Children :=
  ((s.fileCache.lookup addr).bind (·.childrenMap)).getD ∅

/-- The number of names under which the cached node `parent` has the child `addr`. -/
def occurrences (s : NameStore) (parent addr : BlobAddr) : ℕ :=
  ((cachedChildren s parent).entries.filter fun entry => entry.2 = addr).card

/-- `addr` is reached from `root` through the entries of directories. -/
def InTree (E : Encoding) (root addr : BlobAddr) : Prop :=
  Relation.ReflTransGen (fun parent child =>
    ∃ children name, E.DirAt parent children ∧ children.lookup name = some child) root addr

theorem inTree_iff_reaches {E : Encoding} {root addr : BlobAddr} :
    InTree E root addr ↔ Reaches E.references root addr := by
  unfold InTree Reaches
  simp only [Encoding.mem_references]

/-- The entries of a loaded node are its references. -/
theorem Ready.count_references {E : Encoding} (hs : Sound E 0 s) {parent : BlobAddr}
    (h : Ready E s parent) (addr : BlobAddr) :
    (E.references parent).count addr = occurrences s parent addr := by
  have hcount : ∀ children : Children, (Encoding.targets children).count addr =
      (children.entries.filter fun entry => entry.2 = addr).card := by
    intro children
    rw [Encoding.targets, Multiset.count_map]
    simp only [eq_comm]
  rcases h with ⟨children, ⟨node, hnode, hread⟩, hdir⟩ | ⟨⟨node, hnode⟩, hfile⟩
  · rw [hdir.references, occurrences, cachedChildren, hnode, Option.bind_some, hread,
      Option.getD_some, hcount]
  · have hnone : node.childrenMap = none := by
      cases hmap : node.childrenMap with
      | none => rfl
      | some map =>
          refine absurd ?_ hfile
          rw [hs.isDir_iff hnode]
          exact ((hs.nodes parent node hnode).children map hmap).1
    rw [Encoding.references_eq_zero hfile, occurrences, cachedChildren, hnode, Option.bind_some,
      hnone]
    rfl

theorem Represents.managerCount {count : BlobAddr →₀ ℕ} (h : Represents s.refCount count)
    (addr : BlobAddr) : managerCount s addr = count addr := by
  rw [Grits.managerCount, h addr]
  split
  next hzero => simp [hzero]
  next => rfl

theorem Represents.keys {refs : Finmap fun _ : BlobAddr => ℤ} {count : BlobAddr →₀ ℕ}
    (h : Represents refs count) : refs.keys = count.support := by
  ext addr
  rw [Finmap.mem_keys, Finsupp.mem_support_iff, ← not_iff_not, not_not,
    ← Finmap.lookup_eq_none, h.lookup_eq_none_iff]

/-- What the counts of the reference manager say about the tree. -/
structure CountsExact (E : Encoding) (s : NameStore) : Prop where
  count : ∀ addr, managerCount s addr = (if addr = s.rootAddr then 1 else 0) +
    ((∑ parent ∈ s.refCount.keys, occurrences s parent addr : ℕ) : ℤ)
  domain : ∀ addr, addr ∈ s.refCount ↔ InTree E s.rootAddr addr
  cached : ∀ addr ∈ s.refCount, ∃ node, s.fileCache.lookup addr = some node ∧ 1 ≤ node.refCount

theorem Inv.countsExact {E : Encoding} (h : Inv E holders s) : CountsExact E s := by
  obtain ⟨count, hrefs, hcounted, hready⟩ := h.counted
  have hmem : ∀ addr, addr ∈ s.refCount ↔ count addr ≠ 0 := by
    intro addr
    rw [← Finmap.mem_keys, hrefs.keys, Finsupp.mem_support_iff]
  refine ⟨?_, ?_, ?_⟩
  · intro addr
    have hsum : ∑ parent ∈ s.refCount.keys, occurrences s parent addr =
        ∑ parent ∈ count.support, (E.references parent).count addr := by
      rw [hrefs.keys]
      refine Finset.sum_congr rfl fun parent hparent => ?_
      exact ((hready parent (Finsupp.mem_support_iff.mp hparent)).count_references h.sound
        addr).symm
    rw [hrefs.managerCount, hsum, hcounted addr, Multiset.count_singleton]
    push_cast
    rfl
  · intro addr
    rw [hmem, inTree_iff_reaches,
      hcounted.mem_support_iff E.rank fun _ _ => Encoding.rank_lt_of_mem_references]
    simp
  · intro addr haddr
    obtain ⟨node, hnode⟩ := (hready addr ((hmem addr).mp haddr)).cached
    refine ⟨node, hnode, ?_⟩
    have houtside := h.outside_nonneg addr
    have hlookup := hrefs.lookup_of_ne_zero ((hmem addr).mp haddr)
    rw [Grits.outside, tracked_of_lookup hlookup, nodeCount_of_lookup hnode] at houtside
    omega

/-- The counts are exact in every reachable state, and from there no call stops
the process: a link may only meet a nil root, when its requests leave none. -/
theorem refCounts_eq_occurrences (hdense : E.sparse = false) (hs : Reachable E holders s) :
    CountsExact E.toEncoding s ∧
      (∀ (H : Hooks) (requests : List LinkRequest) (returnResults : Bool)
        (principal : PrincipalRef) (halt : Halt), H.ReadOnly E.toEncoding →
        (multiLink E H requests returnResults principal s).1 = .error halt →
        (∃ e, halt = .err e) ∨ (halt = .crash .nilRoot ∧
          LinkedAll E.toEncoding requests (some s.rootAddr) none)) ∧
      (∀ (callbacks : List LookupCallback) (paths : List GoString) (startAddr : BlobAddr)
        (principal : PrincipalRef), (∀ callback ∈ callbacks, callback.ReadOnly E.toEncoding) →
        Returned (lookup E callbacks paths startAddr principal s).1) ∧
      (∀ addr, Returned (getFileNode E addr s).1) ∧
      (∀ addr ∈ holders, Returned (releaseNode E addr s).1) ∧
      Returned (cleanup E s).1 := by
  have hinv := hs.inv hdense
  have hreturned : ∀ {α : Type} {m : Op α} {P : α → NameStore → Prop} {Q : NameStore → Prop},
      wp m (post P Q) s → Returned (m s).1 := by
    intro α m P Q hspec
    rw [wp] at hspec
    rcases hrun : (m s).1 with (_ | _ | _ | _) | _
    · trivial
    · rw [hrun] at hspec
      exact hspec
    · rw [hrun] at hspec
      exact hspec
    · rw [hrun] at hspec
      exact hspec
    · trivial
  refine ⟨hinv.countsExact, ?_, ?_, ?_, ?_, ?_⟩
  · intro H requests returnResults principal halt hH hhalt
    have hspec := multiLink_spec hdense hH hinv requests returnResults principal
    rw [wp, hhalt] at hspec
    cases halt with
    | err e => exact .inl ⟨e, rfl⟩
    | crash c => exact .inr hspec
    | dangling a => exact .inr hspec
    | outOfFuel => exact .inr hspec
  · intro callbacks paths startAddr principal hcallbacks
    exact hreturned (lookup_spec hinv.sound hdense hinv.root_ready.cached hcallbacks paths startAddr
      principal)
  · intro addr
    exact hreturned (getFileNode_spec hdense hinv addr)
  · intro addr haddr
    obtain ⟨others, rfl⟩ := Multiset.exists_cons_of_mem haddr
    exact hreturned (releaseHolder_spec hdense hinv)
  · exact hreturned (cleanup_spec hinv)

theorem refCounts_eq_occurrences_smallVolume :
    CountsExact Table.smallEnv.toEncoding Table.smallVolume :=
  (refCounts_eq_occurrences rfl Table.reachable_smallVolume).1

end Grits
