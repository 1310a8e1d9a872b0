import Grits.NameStore.Assertions
import Grits.NameStore.Progress

/-!
# The root stays alive

`MultiLink` guards against unlinking the root under two spellings of its path,
and not at all against linking a file there.  As long as the last request of
each link keeps a directory at the root, no call ends the process, and the names
of the root directory can be looked up and linked.
-/

namespace Grits

open Prog SlashPath

variable {E : Env} {H : Hooks} {holders : Multiset BlobAddr} {s t : NameStore}

/-- A name of the root directory. -/
def TopLevel (name : GoString) : Prop := name ≠ [] ∧ name ≠ ['.'] ∧ '/' ∉ name

theorem TopLevel.trimRight_eq {name : GoString} (h : TopLevel name) : trimRight name = name := by
  refine Plain.trimRight_eq (.inr ?_)
  rw [split_of_slash_notMem h.2.2, List.mem_singleton]
  exact fun hnil => h.1 hnil.symm

theorem TopLevel.isRooted_eq {name : GoString} (h : TopLevel name) : isRooted name = false := by
  cases name with
  | nil => rfl
  | cons c rest =>
      have hc : c ≠ '/' := by
        rintro rfl
        exact h.2.2 List.mem_cons_self
      unfold isRooted
      split
      next heq =>
        cases heq
        exact absurd rfl hc
      next => rfl

/-- If the last request writes the root itself, it links a directory there,
unless one of the requests is refused outright. -/
def KeepsRoot (E : Encoding) (requests : List LinkRequest) : Prop :=
  ∀ request, requests.getLast? = some request → linkName request.path = [] →
    E.IsDir request.newAddr ∨
      ∃ refused ∈ requests, refused.unlinksRoot ∨ isRooted (trimRight refused.path) = true

/-- The root is a directory that can be loaded, referenced by the reference
manager, and its names can be looked up and linked. -/
structure LiveRoot (E : Env) (s : NameStore) : Prop where
  directory : E.IsDir s.rootAddr
  loads : loadFileNode E s.rootAddr s = (.ok (), s)
  referenced : 1 ≤ managerCount s s.rootAddr
  lookup : ∀ name principal, TopLevel name → ∃ response, Grits.lookup E [] [name] [] principal s =
    (.ok response, s) ∧ ∀ pair ∈ response.paths, pair.error = none ∨ pair.error = some .notFound
  link : ∀ name addr principal, TopLevel name → addr = [] ∨ Loadable E.toEncoding s addr →
    ∃ response t, multiLink E Hooks.none [⟨name, addr, [], 0⟩] false principal s =
      (.ok response, t)

/-! ## One link -/

theorem LinkedAll.snoc {E : Encoding} {requests : List LinkRequest} {request : LinkRequest}
    {old new : Option BlobAddr} (h : LinkedAll E (requests ++ [request]) old new) :
    ∃ middle, Linked E request middle new := by
  induction requests generalizing old with
  | nil =>
      obtain ⟨middle, hlinked, hnew⟩ := h
      rw [LinkedAll] at hnew
      subst hnew
      exact ⟨old, hlinked⟩
  | cons first rest ih =>
      obtain ⟨middle, -, hrest⟩ := h
      exact ih hrest

/-- A request that writes below the root leaves a directory at the root. -/
theorem Linked.isDir {E : Encoding} {request : LinkRequest} {old new : Option BlobAddr}
    (h : Linked E request old new) (hname : linkName request.path ≠ []) :
    ∃ addr, new = some addr ∧ E.IsDir addr := by
  have hupdated := h.updated
  rw [LinkRequest.segments, if_neg hname] at hupdated
  obtain ⟨part, rest, hsplit⟩ := List.exists_cons_of_ne_nil (split_ne_nil (linkName request.path))
  rw [hsplit] at hupdated
  obtain ⟨_, addr, _, _, _, rfl, _, hreads, _⟩ := hupdated
  exact ⟨addr, rfl, hreads.isDir⟩

/-- Requests that keep the root and that were all accepted leave a directory there. -/
theorem KeepsRoot.isDir {E : Encoding} {requests : List LinkRequest} {old : BlobAddr}
    {new : Option BlobAddr} (h : KeepsRoot E requests) (hold : E.IsDir old)
    (hlinked : LinkedAll E requests (some old) new)
    (hguard : ∀ request ∈ requests, ¬ request.unlinksRoot) :
    ∃ addr, new = some addr ∧ E.IsDir addr := by
  rcases List.eq_nil_or_concat requests with rfl | ⟨before, last, rfl⟩
  · rw [LinkedAll] at hlinked
    exact ⟨old, hlinked, hold⟩
  · rw [List.concat_eq_append] at h hlinked hguard
    obtain ⟨middle, hlast⟩ := hlinked.snoc
    by_cases hname : linkName last.path = []
    swap
    · exact hlast.isDir hname
    have hupdated := hlast.updated
    rw [LinkRequest.segments, if_pos hname] at hupdated
    rcases h last (by simp) hname with hdir | ⟨refused, hrefused, hunlinks | hrooted⟩
    · obtain ⟨metadata, hmetadata, htype⟩ := hdir
      have hne : last.newAddr ≠ [] := by
        intro hnil
        rw [hnil] at hmetadata
        exact not_isCid_nil hmetadata.isCid
      rw [LinkRequest.value_of_ne hne] at hupdated
      exact ⟨last.newAddr, hupdated, metadata, hmetadata, htype⟩
    · exact absurd hunlinks (hguard refused hrefused)
    · rw [hlinked.relative refused hrefused] at hrooted
      cases hrooted

/-- One link that keeps the root returns, and leaves a directory at the root. -/
theorem multiLink_keepsRoot (hdense : E.sparse = false) (hH : H.ReadOnly E.toEncoding)
    (h : Inv E.toEncoding holders s) (hroot : E.IsDir s.rootAddr) {requests : List LinkRequest}
    (hkeeps : KeepsRoot E.toEncoding requests) {returnResults : Bool} {principal : PrincipalRef}
    {r : Except Halt (Option LookupResponse)}
    (hrun : multiLink E H requests returnResults principal s = (r, t)) :
    Returned r ∧ Inv E.toEncoding holders t ∧ E.IsDir t.rootAddr := by
  have hspec := wp_of_run (multiLink_spec hdense hH h requests returnResults principal) hrun
  have hguard : (∃ e, r = .error (.err e)) ∨ ∀ request ∈ requests, ¬ request.unlinksRoot :=
    (multiLink_checked hdense h hrun).imp_right fun hall request hrequest =>
      (hall request hrequest).1
  have hnone : ∀ halt, (∀ e, halt ≠ .err e) → r = .error halt →
      ¬ LinkedAll E.toEncoding requests (some s.rootAddr) none := by
    rintro halt hhalt rfl hlinked
    rcases hguard with ⟨e, he⟩ | hguard
    · cases he
      exact hhalt e rfl
    · obtain ⟨addr, haddr, -⟩ := hkeeps.isDir hroot hlinked hguard
      cases haddr
  rcases r with (e | c | a | _) | response
  · have hkept : Kept E.toEncoding 0 s t := hspec
    exact ⟨trivial, h.kept hkept, by rwa [hkept.quiet.rootAddr]⟩
  · exact absurd hspec.2 (hnone (.crash c) (fun _ => nofun) rfl)
  · exact absurd hspec.2 (hnone (.dangling a) (fun _ => nofun) rfl)
  · exact absurd hspec.2 (hnone .outOfFuel (fun _ => nofun) rfl)
  · obtain ⟨ht, hlinked, -⟩ := hspec
    rcases hguard with ⟨e, he⟩ | hguard
    · cases he
    · obtain ⟨addr, haddr, hdir⟩ := hkeeps.isDir hroot hlinked hguard
      cases haddr
      exact ⟨trivial, ht, hdir⟩

/-! ## What a live root allows -/

/-- Below a loaded directory a name resolves, or is not found. -/
theorem resolve_topLevel {root : BlobAddr} (hheld : HeldTree E.toEncoding s root)
    {held : Multiset BlobAddr} (hs : Sound E.toEncoding held s) (hroot : E.IsDir root)
    {name : GoString} (hname : TopLevel name) :
    ∀ pair ∈ (E.resolve root name).paths, pair.error = none ∨ pair.error = some .notFound := by
  obtain ⟨children, -, hdir⟩ := hheld.ready.resolve_right fun hfile => hfile.2 hroot
  have hentry : ∀ path addr, Ready E.toEncoding s addr → (E.entryAt path addr).error = none := by
    intro path addr hready
    obtain ⟨node, hnode⟩ := hready.cached
    rw [(hs.nodes addr node hnode).metadata.entryAt]
    rfl
  have hstart := hentry [] root hheld.ready
  rw [Encoding.resolve, hname.trimRight_eq, split_of_slash_notMem hname.2.2]
  simp only [List.foldl_cons, List.foldl_nil, Encoding.resolvePart, if_neg hname.1,
    Encoding.walkStart, Encoding.childrenAt_eq_some_iff.mpr hdir]
  cases hchild : children.lookup name with
  | none =>
      intro pair hpair
      rcases List.mem_append.mp hpair with hpair | hpair
      · rw [List.mem_singleton.mp hpair]
        exact .inl hstart
      · rw [List.mem_singleton.mp hpair]
        exact .inr rfl
  | some child =>
      intro pair hpair
      rcases List.mem_append.mp hpair with hpair | hpair
      · rw [List.mem_singleton.mp hpair]
        exact .inl hstart
      · rw [List.mem_singleton.mp hpair]
        exact .inl (hentry _ child (hheld.child hdir hchild).ready)

theorem Inv.liveRoot (hdense : E.sparse = false) (h : Inv E.toEncoding holders s)
    (hroot : E.IsDir s.rootAddr) : LiveRoot E s where
  directory := hroot
  loads := loadFileNode_cached h.root_ready.cached
  referenced := by
    obtain ⟨count, hrefs, hcounted, -⟩ := h.counted
    have hpos := hcounted.pos_of_mem_held (Multiset.mem_singleton_self _)
    rw [hrefs.managerCount]
    exact_mod_cast hpos
  lookup := by
    intro name principal hname
    have hrel : isRooted (trimRight name) = false := by
      rw [hname.trimRight_eq, hname.isRooted_eq]
    have hresolve : resolveFromLocal E (trimRight name) none s = _ :=
      resolveFromLocal_held h.sound hdense h.heldTree rfl (by rw [trimRight_trimRight, hrel])
    rw [hname.trimRight_eq] at hresolve
    refine ⟨⟨appendUnseen [] (E.resolve s.rootAddr name).paths, s.serialNumber⟩, ?_, ?_⟩
    · have hstep : lookupStep E none [] name s =
          (.ok (appendUnseen [] (E.resolve s.rootAddr name).paths), s) := by
        rw [lookupStep, hname.trimRight_eq, bind_run hresolve]
        rfl
      have hloop : loop (lookupStep E none) [] [name] s =
          (.ok (appendUnseen [] (E.resolve s.rootAddr name).paths), s) := by
        rw [loop_cons, bind_run hstep]
        rfl
      have hbody : (do
          let entries ← loop (lookupStep E none) [] [name]
          runLookupCallbacks [] ⟨[name], [], principal⟩ none ⟨entries, s.serialNumber⟩ :
            Op LookupResponse) s =
          (.ok ⟨appendUnseen [] (E.resolve s.rootAddr name).paths, s.serialNumber⟩, s) := by
        rw [bind_run hloop]
        rfl
      have hreleasing := tryErr_run hbody
      unfold Grits.lookup
      rw [bind_run (get_run s)]
      change (releasing E none _) s = _
      rw [releasing, bind_run hreleasing]
      rfl
    · intro pair hpair
      refine resolve_topLevel h.heldTree h.sound hroot hname pair ?_
      exact (appendUnseen_subset [] _ pair hpair).resolve_left List.not_mem_nil
  link := by
    intro name addr principal hname haddr
    have hsegments : LinkRequest.segments ⟨name, addr, [], 0⟩ = [name] := by
      have hlink : linkName name = name := by rw [linkName, hname.trimRight_eq, if_neg hname.2.1]
      rw [LinkRequest.segments, hlink, if_neg hname.1, split_of_slash_notMem hname.2.2]
    refine multiLink_ok hdense rfl h (fun _ h => by cases h) ?_ ?_ ?_ haddr
    · unfold checkAssertions
      rw [if_neg (by simp [hname.1, hname.2.1]), if_pos rfl]
      rfl
    · rw [hname.trimRight_eq, hname.isRooted_eq]
    · rw [Targets, hsegments, if_neg (by simp)]
      exact ⟨s.rootAddr, rfl, hroot⟩

/-! ## Sequences of links -/

/-- The states reached by links that keep the root. -/
inductive KeepingRun (E : Env) (holders : Multiset BlobAddr) : NameStore → Prop
  | start {s : NameStore} (hs : Reachable E holders s) (hroot : E.IsDir s.rootAddr) :
      KeepingRun E holders s
  | link {s t : NameStore} {H : Hooks} {requests : List LinkRequest} {returnResults : Bool}
      {principal : PrincipalRef} {r : Except Halt (Option LookupResponse)}
      (hs : KeepingRun E holders s) (hH : H.ReadOnly E.toEncoding)
      (hkeeps : KeepsRoot E.toEncoding requests)
      (hrun : multiLink E H requests returnResults principal s = (r, t)) : KeepingRun E holders t

/-- The empty store begins such a sequence. -/
theorem keepingRun_empty (hdense : E.sparse = false)
    {blobs : Finmap fun _ : BlobAddr => LocalCachedFile} (hblobs : ProperBlobs E.toEncoding blobs)
    (hrun : emptyNameStore E blobs = (.ok (), s)) : KeepingRun E 0 s :=
  .start (.empty hblobs hrun) (emptyNameStore_inv hdense hblobs hrun).2

theorem KeepingRun.inv (hdense : E.sparse = false) (h : KeepingRun E holders s) :
    Inv E.toEncoding holders s ∧ E.IsDir s.rootAddr := by
  induction h with
  | start hs hroot => exact ⟨hs.inv hdense, hroot⟩
  | link hs hH hkeeps hrun ih =>
      exact (multiLink_keepsRoot hdense hH ih.1 ih.2 hkeeps hrun).2

/-- In every state reached by links that keep the root, the root is alive, and
the next such link returns. -/
theorem keepingRun_liveRoot (hdense : E.sparse = false) (h : KeepingRun E holders s) :
    LiveRoot E s ∧ ∀ (H : Hooks) (requests : List LinkRequest) (returnResults : Bool)
      (principal : PrincipalRef), H.ReadOnly E.toEncoding → KeepsRoot E.toEncoding requests →
      Returned (multiLink E H requests returnResults principal s).1 := by
  obtain ⟨hinv, hroot⟩ := h.inv hdense
  refine ⟨hinv.liveRoot hdense hroot, ?_⟩
  intro H requests returnResults principal hH hkeeps
  exact (multiLink_keepsRoot hdense hH hinv hroot hkeeps rfl).1

/-- Linking the file beside itself keeps the root. -/
theorem keepingRun_liveRoot_beside :
    LiveRoot Table.smallEnv (multiLink Table.smallEnv Hooks.none
      [⟨"b".toList, Table.smallFile, [], 0⟩] false .backend Table.smallVolume).2 := by
  have hkeeps : KeepsRoot Table.smallEnv.toEncoding
      [⟨"b".toList, Table.smallFile, [], 0⟩] := by
    rintro request ⟨⟩ hname
    cases hname
  have hstart := KeepingRun.start Table.reachable_smallVolume Table.isDir_smallVolume
  exact (keepingRun_liveRoot rfl
    (.link hstart (Hooks.none_readOnly _) hkeeps Prod.mk.eta.symm)).1

/-- The guard looks at the path as it was given: `/` passes it, the old root is
released and the process ends.  Linking a file at the root goes through, and no
name of the root can be linked any more. -/
theorem multiLink_slash_crashes :
    (∃ s t, KeepingRun Table.smallEnv 0 s ∧
      multiLink Table.smallEnv Hooks.none [⟨"/".toList, [], [], 0⟩] false .backend s =
        (.error (.crash .nilRoot), t) ∧ managerCount t t.rootAddr = 0) ∧
    ∃ s t, KeepingRun Table.smallEnv 0 s ∧
      multiLink Table.smallEnv Hooks.none [⟨[], Table.smallFile, [], 0⟩] false .backend s =
        (.ok none, t) ∧
      (multiLink Table.smallEnv Hooks.none [⟨"a".toList, Table.smallFile, [], 0⟩] false .backend
        t).1 = .error (.err .notDir) := by
  have hstart := KeepingRun.start Table.reachable_smallVolume Table.isDir_smallVolume
  have hslash : (multiLink Table.smallEnv Hooks.none [⟨"/".toList, [], [], 0⟩] false .backend
      Table.smallVolume).1 = .error (.crash .nilRoot) := by decide +kernel
  have hfile : (multiLink Table.smallEnv Hooks.none [⟨[], Table.smallFile, [], 0⟩] false .backend
      Table.smallVolume).1 = .ok none := by decide +kernel
  exact ⟨⟨Table.smallVolume, _, hstart, run_eq hslash, by decide +kernel⟩,
    Table.smallVolume, _, hstart, run_eq hfile, by decide +kernel⟩

end Grits
