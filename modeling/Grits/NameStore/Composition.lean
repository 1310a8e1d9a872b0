import Grits.NameStore.Guarantees

/-!
# A link is a sequence of updates

The tree after a successful `MultiLink` is the tree before it with the requests
applied one after another, as seen through `resolveFromLocal`.
-/

namespace Grits

open Prog SlashPath

variable {E : Env} {H : Hooks} {holders : Multiset BlobAddr} {s t : NameStore}

/-- The metadata address a path resolves to, if it resolves. -/
def resolvedAddr (E : Env) (path : GoString) (s : NameStore) : Option BlobAddr :=
  match (resolveFromLocal E path none s).1 with
  | .ok response => response.leaf.bind fun leaf => if leaf.error = none then some leaf.addr else none
  | .error _ => none

/-- `new` is `old` with the values put at their paths one after another, every
directory on the way being a well-formed map. -/
abbrev Encoding.PutAll (E : Encoding) (updates : List (List GoString × Option BlobAddr))
    (old new : Option BlobAddr) : Prop :=
  PathTree.UpdatedAll E.entries (PathTree.ReadsExactly E.entries) updates old new

/-- In a reachable state a path resolves to what the tree holds there. -/
theorem Inv.resolvedAddr_eq (hdense : E.sparse = false) (h : Inv E.toEncoding holders s)
    {path : GoString} (hrel : isRooted (trimRight path) = false) :
    resolvedAddr E path s = E.walk (some s.rootAddr) (components path) := by
  have hrun : resolveFromLocal E path none s = _ :=
    resolveFromLocal_held h.sound hdense h.heldTree rfl hrel
  have hcurrent := Encoding.resolve_current (E := E.toEncoding) s.rootAddr path
  obtain ⟨above, leaf, hpaths, -, hleaf⟩ := Encoding.leads_resolve (E := E.toEncoding) s.rootAddr path
  rw [components_trimRight] at hcurrent
  rw [resolvedAddr, hrun]
  simp only [LookupResponse.leaf, hpaths, List.getLast?_concat, Option.bind_some]
  rw [← hcurrent]
  cases haddr : (E.resolve s.rootAddr path).current with
  | none =>
      simp only [haddr] at hleaf
      obtain ⟨error, rfl⟩ := hleaf
      rfl
  | some addr =>
      simp only [haddr] at hleaf
      rw [haddr] at hcurrent
      obtain ⟨node, hnode⟩ := (h.heldTree _ addr hcurrent.symm).cached
      rw [(h.sound.nodes addr node hnode).metadata.entryAt] at hleaf
      subst hleaf
      rfl

theorem resolvedAddr_rooted {path : GoString} (h : isRooted (trimRight path) = true) :
    resolvedAddr E path s = none := by
  rw [resolvedAddr, resolveFromLocal_rooted h]

theorem linkName_cases (path : GoString) :
    linkName path = [] ∨ linkName path = trimRight path := by
  unfold linkName
  split
  · exact .inl rfl
  · exact .inr rfl

theorem isRooted_trimRight_linkName {path : GoString} (h : isRooted (trimRight path) = false) :
    isRooted (trimRight (linkName path)) = false := by
  rcases linkName_cases path with hname | hname
  · rw [hname]
    rfl
  · rw [hname, trimRight_trimRight, h]

/-- For a plain path the names a request walks are those the resolver walks. -/
theorem LinkRequest.segments_eq_components {request : LinkRequest} (h : Plain request.path) :
    request.segments = components (linkName request.path) := by
  unfold LinkRequest.segments
  split
  next hname => rw [hname]; rfl
  next hname =>
    have heq : linkName request.path = request.path := by
      rw [(linkName_cases request.path).resolve_left hname, h.trimRight_eq]
    rw [heq] at hname ⊢
    rw [h.components_eq hname]

/-- A successful link applies its requests from left to right.  A path that no
later request touches then resolves to what was asked for, a path that no
request touches resolves as before.  The path `.` stands for the root, as the
empty path does. -/
theorem multiLink_composes (hdense : E.sparse = false) (hs : Reachable E holders s)
    (hH : H.ReadOnly E.toEncoding) {requests : List LinkRequest} {returnResults : Bool}
    {principal : PrincipalRef} {response : Option LookupResponse}
    (hwf : ∀ request ∈ requests, E.WellFormedTree request.value)
    (hrun : multiLink E H requests returnResults principal s = (.ok response, t)) :
    E.PutAll (updatesOf requests) (some s.rootAddr) (some t.rootAddr) ∧
      (∀ before request after, requests = before ++ request :: after → Plain request.path →
        (∀ later ∈ after, PathTree.Unrelated later.segments request.segments) →
        resolvedAddr E (linkName request.path) t = request.value) ∧
      (∀ path, (∀ request ∈ requests, PathTree.Unrelated request.segments (components path)) →
        resolvedAddr E path t = resolvedAddr E path s) := by
  have hinv := hs.inv hdense
  obtain ⟨ht, hlinked, -⟩ := wp_of_run
    (multiLink_spec hdense hH hinv requests returnResults principal) hrun
  have hupdated := hlinked.updatedAll
  have hold : E.WellFormedTree (some s.rootAddr) := hinv.heldTree.wellFormedTree
  have hvalues : ∀ update ∈ updatesOf requests, E.WellFormedTree update.2 := by
    intro update hupdate
    obtain ⟨request, hrequest, rfl⟩ := List.mem_map.mp hupdate
    exact hwf request hrequest
  refine ⟨hupdated.exactly Encoding.reads_unique hold hvalues, ?_, ?_⟩
  · rintro before request after rfl hplain hafter
    have hrel := isRooted_trimRight_linkName (hlinked.relative request (by simp))
    rw [ht.resolvedAddr_eq hdense hrel, ← LinkRequest.segments_eq_components hplain]
    rw [updatesOf, List.map_append, List.map_cons] at hupdated hvalues
    refine hupdated.walk_last Encoding.reads_unique hold
      (fun update hupdate => hvalues update (List.mem_append_left _ hupdate))
      (hvalues (request.segments, request.value)
        (List.mem_append_right _ List.mem_cons_self)) ?_
    intro update hupdate
    obtain ⟨later, hlater, rfl⟩ := List.mem_map.mp hupdate
    exact hafter later hlater
  · intro path hpath
    cases hrooted : isRooted (trimRight path) with
    | true => rw [resolvedAddr_rooted hrooted, resolvedAddr_rooted hrooted]
    | false =>
        rw [ht.resolvedAddr_eq hdense hrooted, hinv.resolvedAddr_eq hdense hrooted]
        refine (hupdated.walk_unrelated Encoding.reads_unique ?_ (hold.exactAlong _)).1
        intro update hupdate
        obtain ⟨request, hrequest, rfl⟩ := List.mem_map.mp hupdate
        exact hpath request hrequest

/-- Linking the file under a new name leaves the entry beside it alone. -/
theorem multiLink_composes_beside :
    ∃ t, multiLink Table.smallEnv Hooks.none [⟨"b".toList, Table.smallFile, [], 0⟩] false .backend
        Table.smallVolume = (.ok none, t) ∧
      resolvedAddr Table.smallEnv "b".toList t = some Table.smallFile ∧
      resolvedAddr Table.smallEnv "a".toList t =
        resolvedAddr Table.smallEnv "a".toList Table.smallVolume := by
  have hresult : (multiLink Table.smallEnv Hooks.none [⟨"b".toList, Table.smallFile, [], 0⟩] false
      .backend Table.smallVolume).1 = .ok none := by decide +kernel
  have hrun := run_eq hresult
  have hwf : ∀ request ∈ [(⟨"b".toList, Table.smallFile, [], 0⟩ : LinkRequest)],
      Table.smallEnv.WellFormedTree request.value := by
    intro request hrequest
    rw [List.mem_singleton] at hrequest
    subst hrequest
    rw [LinkRequest.value_of_ne (by decide)]
    exact Table.wellFormedTree_smallFile
  obtain ⟨-, hlast, hother⟩ := multiLink_composes rfl Table.reachable_smallVolume
    (Hooks.none_readOnly _) hwf hrun
  refine ⟨_, hrun, ?_, ?_⟩
  · exact hlast [] ⟨"b".toList, Table.smallFile, [], 0⟩ [] rfl (by decide) (by simp)
  · exact hother "a".toList (by decide +kernel)

/-- The path `.` is written as the root, but it is resolved as a name. -/
theorem multiLink_dot_not_resolved :
    ∃ s t, Reachable Table.smallEnv 0 s ∧
      multiLink Table.smallEnv Hooks.none [⟨".".toList, Table.smallDirectory, [], 0⟩] false .backend
        s = (.ok none, t) ∧
      resolvedAddr Table.smallEnv ".".toList t ≠ some Table.smallDirectory := by
  have hresult : (multiLink Table.smallEnv Hooks.none [⟨".".toList, Table.smallDirectory, [], 0⟩]
      false .backend Table.smallVolume).1 = .ok none := by decide +kernel
  exact ⟨Table.smallVolume, _, Table.reachable_smallVolume, run_eq hresult, by decide +kernel⟩

end Grits
