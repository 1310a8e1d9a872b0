import Grits.NameStore.Composition

/-!
# Assertions

The assertions of a request are checked on the tree as it is, before anything is
written.  They are about the node that the resolver finds at the path; the
write goes to the names that `linkName` leaves of it.  The two are the same
place unless the path is `.` or has an empty component inside.
-/

namespace Grits

open Prog SlashPath

variable {E : Env} {H : Hooks} {holders : Multiset BlobAddr} {s t : NameStore}

/-- `MultiLink` refuses to unlink the root under these spellings of its path. -/
def LinkRequest.unlinksRoot (request : LinkRequest) : Prop :=
  (request.path = [] ∨ request.path = ['.']) ∧ request.newAddr = []

/-- What the assertions of a request say of the node at its path. -/
structure Asserted (E : Encoding) (request : LinkRequest) (node : Option BlobAddr) : Prop where
  prevValueMatches : request.assert &&& assertPrevValueMatches ≠ 0 →
    node = if request.prevAddr = [] then none else some request.prevAddr
  isBlob : request.assert &&& assertIsBlob ≠ 0 →
    ∃ addr metadata, node = some addr ∧ E.MetadataAt addr metadata ∧ metadata.type = .file
  isTree : request.assert &&& assertIsTree ≠ 0 → ∃ addr, node = some addr ∧ E.IsDir addr
  isNonEmpty : request.assert &&& assertIsNonEmpty ≠ 0 → node ≠ none

theorem asserted_of_assert_eq_zero {E : Encoding} {request : LinkRequest}
    (h : request.assert = 0) (node : Option BlobAddr) : Asserted E request node := by
  constructor <;> intro hflag <;> simp [h] at hflag

theorem matchesAddr_iff {node : Option BlobAddr} {addr : BlobAddr} (hnode : node ≠ some []) :
    matchesAddr node addr = true ↔ node = if addr = [] then none else some addr := by
  cases node with
  | none =>
      by_cases haddr : addr = []
      · simp [matchesAddr, haddr]
      · simp [matchesAddr, haddr]
  | some other =>
      by_cases haddr : addr = []
      · simp [matchesAddr, haddr]
      · simp [matchesAddr, haddr]

/-- The checks of `MultiLink` are what the assertions say. -/
theorem assertionsHold_iff {E : Encoding} {request : LinkRequest}
    {node : Option (BlobAddr × GNodeMetadata)}
    (hnode : ∀ pair, node = some pair → E.MetadataAt pair.1 pair.2) :
    assertionsHold request node = true ↔ Asserted E request (node.map (·.1)) := by
  have hcid : node.map (·.1) ≠ some [] := by
    cases node with
    | none => simp
    | some pair =>
        have := (hnode pair rfl).isCid
        rintro hnil
        rw [Option.map_some, Option.some.injEq] at hnil
        rw [hnil] at this
        exact not_isCid_nil this
  have hblob : (node.any fun node => node.2.type == .file) = true ↔
      ∃ addr metadata, node.map (·.1) = some addr ∧ E.MetadataAt addr metadata ∧
        metadata.type = .file := by
    cases node with
    | none => simp
    | some pair =>
        simp only [Option.any_some, beq_iff_eq, Option.map_some, Option.some.injEq]
        constructor
        · exact fun htype => ⟨pair.1, pair.2, rfl, hnode pair rfl, htype⟩
        · rintro ⟨_, metadata, rfl, hmetadata, htype⟩
          rwa [(hnode pair rfl).unique hmetadata]
  have htree : (node.any fun node => node.2.type == .directory) = true ↔
      ∃ addr, node.map (·.1) = some addr ∧ E.IsDir addr := by
    cases node with
    | none => simp
    | some pair =>
        simp only [Option.any_some, beq_iff_eq, Option.map_some, Option.some.injEq]
        constructor
        · exact fun htype => ⟨pair.1, rfl, pair.2, hnode pair rfl, htype⟩
        · rintro ⟨_, rfl, metadata, hmetadata, htype⟩
          rwa [(hnode pair rfl).unique hmetadata]
  have hsome : node.isSome = true ↔ node.map (·.1) ≠ none := by
    cases node <;> simp
  unfold assertionsHold
  simp only [Bool.and_eq_true, Bool.or_eq_true, beq_iff_eq, matchesAddr_iff hcid, hblob, htree,
    hsome]
  constructor
  · rintro ⟨⟨⟨hprev, hfile⟩, hdir⟩, hexists⟩
    exact ⟨hprev.resolve_left, hfile.resolve_left, hdir.resolve_left, hexists.resolve_left⟩
  · rintro ⟨hprev, hfile, hdir, hexists⟩
    refine ⟨⟨⟨?_, ?_⟩, ?_⟩, ?_⟩
    · exact or_iff_not_imp_left.mpr hprev
    · exact or_iff_not_imp_left.mpr hfile
    · exact or_iff_not_imp_left.mpr hdir
    · exact or_iff_not_imp_left.mpr hexists

/-! ## Checking on a loaded tree -/

/-- A call that leaves the state alone and returns a value with `P`, or an error. -/
def Reads {α : Type} (m : Op α) (s : NameStore) (P : α → Prop) : Prop :=
  (∃ a, m s = (.ok a, s) ∧ P a) ∨ ∃ e, m s = (.error (.err e), s)

theorem reads_ite {α : Type} {c : Prop} [Decidable c] {m m' : Op α} {P : α → Prop}
    (h : c → Reads m s P) (h' : ¬ c → Reads m' s P) : Reads (if c then m else m') s P := by
  split
  next hc => exact h hc
  next hc => exact h' hc

/-- The assertions are about the node that the components of the path lead to. -/
theorem assertedNode_held (hdense : E.sparse = false) (h : Inv E.toEncoding holders s)
    (path : GoString) : Reads (assertedNode E path) s fun node =>
      node = E.walk (some s.rootAddr) (components path) := by
  cases hrooted : isRooted (trimRight path) with
  | true =>
      refine .inr ⟨.message "paths must be relative".toList, ?_⟩
      rw [assertedNode, bind_run_error (resolveFromLocal_rooted hrooted)]
  | false =>
      have hrun : resolveFromLocal E path none s = _ :=
        resolveFromLocal_held h.sound hdense h.heldTree rfl hrooted
      have hcurrent := Encoding.resolve_current (E := E.toEncoding) s.rootAddr path
      rw [components_trimRight] at hcurrent
      obtain ⟨above, leaf, hpaths, -, hleaf⟩ :=
        Encoding.leads_resolve (E := E.toEncoding) s.rootAddr path
      unfold Reads assertedNode
      rw [bind_run hrun]
      simp only [LookupResponse.leaf, hpaths, List.getLast?_concat]
      rw [← hcurrent]
      cases haddr : (E.resolve s.rootAddr path).current with
      | none =>
          simp only [haddr] at hleaf
          obtain ⟨error, rfl⟩ := hleaf
          cases error with
          | notFound =>
              exact reads_ite (fun _ => .inl ⟨none, rfl, rfl⟩) (fun _ => .inr ⟨.notExist, rfl⟩)
          | notDir => exact .inr ⟨_, rfl⟩
          | accessDenied => exact .inr ⟨_, rfl⟩
          | internal => exact .inr ⟨_, rfl⟩
      | some addr =>
          simp only [haddr] at hleaf
          rw [haddr] at hcurrent
          have hcached := (h.heldTree _ addr hcurrent.symm).cached
          obtain ⟨node, hnode⟩ := id hcached
          rw [(h.sound.nodes addr node hnode).metadata.entryAt] at hleaf
          subst hleaf
          refine .inl ⟨some addr, ?_, rfl⟩
          simp only [PathNodePair.found]
          rw [bind_run (loadFileNode_cached hcached)]
          rfl

/-- Phase 1 of `MultiLink` for one request leaves the state alone. -/
theorem checkAssertions_held (hdense : E.sparse = false) (h : Inv E.toEncoding holders s)
    (request : LinkRequest) : Reads (checkAssertions E request) s fun _ =>
      ¬ request.unlinksRoot ∧
        Asserted E.toEncoding request (E.walk (some s.rootAddr) (components request.path)) := by
  unfold checkAssertions
  split
  next => exact .inr ⟨_, rfl⟩
  next hguard =>
    split
    next hassert => exact .inl ⟨(), rfl, hguard, asserted_of_assert_eq_zero hassert _⟩
    next =>
      rcases assertedNode_held hdense h request.path with ⟨node, hrun, hnode⟩ | ⟨e, hrun⟩
      swap
      · exact .inr ⟨e, by rw [bind_run_error hrun]⟩
      have hdescribe : ∃ described, describeNode node s = (.ok described, s) ∧
          described.map (·.1) = node ∧
          ∀ pair, described = some pair → E.MetadataAt pair.1 pair.2 := by
        cases node with
        | none => exact ⟨none, rfl, rfl, nofun⟩
        | some addr =>
            obtain ⟨file, hfile⟩ := (h.heldTree _ addr hnode.symm).cached
            refine ⟨some (addr, file.metadata), ?_, rfl, ?_⟩
            · rw [describeNode, bind_run (getNode_run hfile)]
              rfl
            · rintro _ ⟨⟩
              exact (h.sound.nodes addr file hfile).metadata
      obtain ⟨described, hdescribed, hmap, hmetadata⟩ := hdescribe
      unfold Reads
      rw [bind_run hrun, bind_run hdescribed]
      split
      next hholds =>
        rw [assertionsHold_iff hmetadata, hmap, hnode] at hholds
        exact .inl ⟨(), rfl, hguard, hholds⟩
      next => exact .inr ⟨_, rfl⟩

/-- A loop over reads. -/
theorem loop_reads {α : Type} {body : α → Op Unit} {P : α → Prop}
    (h : ∀ a, Reads (body a) s fun _ => P a) (all : List α) :
    Reads (loop (fun _ a => body a) () all) s fun _ => ∀ a ∈ all, P a := by
  induction all with
  | nil => exact .inl ⟨(), rfl, by simp⟩
  | cons a rest ih =>
      unfold Reads
      rw [loop_cons]
      rcases h a with ⟨⟨⟩, hrun, hP⟩ | ⟨e, hrun⟩
      · rw [bind_run hrun]
        rcases ih with ⟨u, hrest, hall⟩ | ⟨e, hrest⟩
        · exact .inl ⟨u, hrest, by simpa using ⟨hP, hall⟩⟩
        · exact .inr ⟨e, hrest⟩
      · exact .inr ⟨e, bind_run_error hrun⟩

/-- A link either fails at once or all its assertions hold of the tree before it. -/
theorem multiLink_checked (hdense : E.sparse = false) (h : Inv E.toEncoding holders s)
    {requests : List LinkRequest} {returnResults : Bool} {principal : PrincipalRef}
    {r : Except Halt (Option LookupResponse)}
    (hrun : multiLink E H requests returnResults principal s = (r, t)) :
    (∃ e, r = .error (.err e)) ∨ ∀ request ∈ requests, ¬ request.unlinksRoot ∧
      Asserted E.toEncoding request (E.walk (some s.rootAddr) (components request.path)) := by
  rcases loop_reads (checkAssertions_held hdense h) requests with ⟨-, -, hall⟩ | ⟨e, hcheck⟩
  · exact .inr hall
  · refine .inl ⟨e, ?_⟩
    have hprepare : prepare E H requests returnResults principal s = (.error (.err e), s) := by
      unfold prepare candidateRoot
      rw [bind_run (get_run s)]
      exact bind_run_error (bind_run_error hcheck)
    rw [multiLink, bind_run_error hprepare] at hrun
    exact (Prod.mk.inj hrun).1.symm

/-! ## Where the write goes -/

/-- The trimmed path is empty or made of non-empty components, and it is not `.`. -/
def Agrees (path : GoString) : Prop := trimRight path ≠ ['.'] ∧ Plain (trimRight path)

instance (path : GoString) : Decidable (Agrees path) := inferInstanceAs (Decidable (_ ∧ _))

theorem LinkRequest.segments_of_agrees {request : LinkRequest} (h : Agrees request.path) :
    request.segments = components request.path := by
  obtain ⟨hdot, hplain⟩ := h
  have hname : linkName request.path = trimRight request.path := by
    rw [linkName, if_neg hdot]
  rw [← components_trimRight, LinkRequest.segments, hname]
  split
  next hnil => rw [hnil]; rfl
  next hne => rw [hplain.components_eq hne]

end Grits
