import Grits.Auth.Links

/-!
# The access control of a directory

Who may only read, insert or write in a directory should not change its `.grits`.
For those who may write, that fails: they may replace the directory itself, and
with it the `.grits` in it.
-/

namespace Grits

open Prog SlashPath

variable {E : Env} {H : Hooks} {holders : Multiset BlobAddr} {s t : NameStore} {m : AuthModule}

/-! ## Where a granted request writes -/

/-- A request whose path has something below a first segment writes where it says. -/
theorem LinkRequest.segments_of_below {request : LinkRequest} {front back : List GoString}
    {name : GoString} (h : split (trimRight request.path) = front ++ name :: back)
    (hback : back ≠ []) : request.segments = split (trimRight request.path) := by
  have hlength : 1 < (split (trimRight request.path)).length := by
    have hpos := List.length_pos_of_ne_nil hback
    rw [h, List.length_append, List.length_cons]
    omega
  rcases linkName_cases request.path with hname | hname
  · exfalso
    rw [linkName] at hname
    split at hname
    next hdot =>
      rw [hdot] at hlength
      exact absurd hlength (by decide)
    next =>
      rw [hname] at hlength
      exact absurd hlength (by decide)
  · have hne : linkName request.path ≠ [] := by
      rw [hname]
      intro hnil
      rw [hnil] at hlength
      exact absurd hlength (by decide)
    rw [LinkRequest.segments, if_neg hne, hname]

/-- The segments of a path are those of its parent, maybe empty ones, and a last one. -/
theorem split_of_parentPath {path : GoString} {front back : List GoString} {name : GoString}
    (h : split (trimRight (parentPath path)) = front ++ name :: back) (hname : name ≠ []) :
    ∃ count last, split (trimRight path) =
      front ++ name :: (back ++ List.replicate count [] ++ [last]) := by
  cases hcut : beforeLastSlash (trimRight path) with
  | none =>
      rw [parentPath, hcut, Option.getD_none, trimRight_nil, split_nil] at h
      cases front with
      | nil => cases h; exact absurd rfl hname
      | cons first front => simp at h
  | some parent =>
      rw [parentPath, hcut, Option.getD_some] at h
      obtain ⟨last, hlast⟩ := split_of_beforeLastSlash hcut
      obtain ⟨count, hcount⟩ := split_trimRight parent
      refine ⟨count, last, ?_⟩
      rw [hlast, hcount, h]
      simp

namespace Policy

variable {policy : Policy} {principal : Principal} {dir : List GoString}

/-- All matching grants are at `dir`. -/
def GrantsOnlyAt (policy : Policy) (principal : Principal) (dir : List GoString) : Prop :=
  ∀ other, other ≠ dir → policy.matching principal other = []

/-- Writing is granted at `dir` only if it is named `.grits`, where it means reading. -/
def WritesOnlyAsGrits (policy : Policy) (principal : Principal) (dir : List GoString) : Prop :=
  ∀ g ∈ policy.matching principal dir, g.permission = .readWrite → dir.getLast? = some gritsDir

/-- The kinds of grants that are not to change the access control. -/
def NotOwning (p : Permission) : Prop :=
  p = .read ∨ p = .insert ∨ p = .readInsert ∨ p = .readWrite

theorem NotOwning.ne_owner {p : Permission} (h : NotOwning p) : p ≠ .owner := by
  rintro rfl
  simp [NotOwning] at h

section Level

variable (hat : policy.GrantsOnlyAt principal dir) (hkinds : policy.OnlyGrants principal NotOwning)
  (hgrits : policy.WritesOnlyAsGrits principal dir)

include hat hkinds hgrits

/-- What allows changing something is a grant at the level of `dir`, not one at the root. -/
theorem exists_level {path : GoString} {c : Capability} (hc : c = .insert ∨ c = .write)
    (h : (policy.effective principal path).allows c = true) :
    ∃ front name back g, split (trimRight path) = front ++ name :: back ∧ name ≠ [] ∧
      front.filter (· ≠ []) ++ [name] = dir ∧ g ∈ policy.matching principal dir ∧
      (levelOf back).Carries (name == gritsDir) g.permission c := by
  have hwhere : ∀ {other : List GoString} {g : Grant}, g ∈ policy.matching principal other →
      other = dir := by
    intro other g hg
    by_contra hne
    rw [hat other hne] at hg
    cases hg
  rw [allows_iff] at h
  rcases h with ⟨g, hg, hcarries⟩ | ⟨front, name, back, hsplit, hname, g, hg, hcarries⟩
  · exfalso
    have hnil := hwhere hg
    subst hnil
    -- an inherited grant that allows inserting allows writing
    have hwrite : Level.inherited.Carries false g.permission .write := by
      rcases hc with rfl | rfl
      · rw [carries_insert_iff] at hcarries
        exact hcarries.resolve_right fun h => by cases h.1
      · exact hcarries
    rw [carries_write_iff] at hwrite
    have hperm := (hwrite.resolve_left (hkinds [] g hg).ne_owner).1
    exact absurd (hgrits g hg hperm) (by simp)
  · have hdir := hwhere hg
    rw [hdir] at hg
    exact ⟨front, name, back, g, hsplit, hname, hdir, hg, hcarries⟩

/-- A grant at `dir` allows writing only below `dir` outside `.grits`. -/
theorem exists_write_level {path : GoString}
    (h : (policy.effective principal path).allows .write = true) :
    ∃ front name next rest, split (trimRight path) = front ++ name :: next :: rest ∧ name ≠ [] ∧
      front.filter (· ≠ []) ++ [name] = dir ∧ next ≠ gritsDir := by
  obtain ⟨front, name, back, g, hsplit, hne, hdir, hg, hcarries⟩ :=
    exists_level hat hkinds hgrits (.inr rfl) h
  rw [carries_write_iff] at hcarries
  obtain ⟨hwrite, hlevel⟩ := hcarries.resolve_left (hkinds _ g hg).ne_owner
  have hname : name = gritsDir := by
    have hlast := hgrits g hg hwrite
    rw [← hdir, List.getLast?_concat] at hlast
    exact Option.some.inj hlast
  have hinherited : levelOf back = .inherited := by
    refine hlevel.resolve_right ?_
    rintro ⟨-, hne⟩
    rw [hname] at hne
    simp at hne
  cases back with
  | nil => cases hinherited
  | cons next rest =>
      refine ⟨front, name, next, rest, hsplit, hne, hdir, ?_⟩
      rintro rfl
      rw [levelOf, if_pos rfl] at hinherited
      cases hinherited

/-- A grant at `dir` allows inserting only at `dir`, and below it outside `.grits`. -/
theorem exists_insert_level {path : GoString}
    (h : (policy.effective principal path).allows .insert = true) :
    ∃ front name back, split (trimRight path) = front ++ name :: back ∧ name ≠ [] ∧
      front.filter (· ≠ []) ++ [name] = dir ∧ back.head? ≠ some gritsDir ∧
      policy.matching principal dir ≠ [] := by
  obtain ⟨front, name, back, g, hsplit, hne, hdir, hg, hcarries⟩ :=
    exists_level hat hkinds hgrits (.inl rfl) h
  refine ⟨front, name, back, hsplit, hne, hdir, ?_, List.ne_nil_of_mem hg⟩
  intro hhead
  rw [levelOf_eq_gritsParent_iff.mpr hhead, carries_insert_iff, carries_write_iff] at hcarries
  have hne := (hkinds _ g hg).ne_owner
  simp [hne] at hcarries

end Level

end Policy

/-- Where there are grants, there is a `.grits`. -/
theorem exists_grits {E : Encoding} {root : BlobAddr} {dir : List GoString} {principal : Principal}
    (h : (m.policyAt E root).matching principal dir ≠ []) :
    ∃ addr, E.walk (some root) (dir ++ [gritsDir]) = some addr := by
  rw [Policy.matching, AuthModule.policyAt, AuthModule.grantsIn, Encoding.accessContent] at h
  cases hwalk : E.walk (some root) (dir ++ [gritsDir]) with
  | some addr => exact ⟨addr, rfl⟩
  | none =>
      have hnone : E.walk (some root) (dir ++ [gritsDir, "access.json".toList]) = none := by
        rw [Encoding.walk] at hwalk
        rw [List.append_cons, Encoding.walk, PathTree.walk_append, hwalk, PathTree.walk_none]
      rw [hnone] at h
      exact absurd rfl h

section Unrelated

variable {principal : Principal} {dir : List GoString}

/-- A request that is allowed does not write to or through `.grits`. -/
theorem Policy.MayLink.unrelated {root : BlobAddr}
    (hat : (m.policyAt E.toEncoding root).GrantsOnlyAt principal dir)
    (hkinds : (m.policyAt E.toEncoding root).OnlyGrants principal Policy.NotOwning)
    (hgrits : (m.policyAt E.toEncoding root).WritesOnlyAsGrits principal dir)
    {request : LinkRequest} (hrel : isRooted (trimRight request.path) = false)
    (h : (m.policyAt E.toEncoding root).MayLink E.toEncoding root (.of principal) request) :
    PathTree.Unrelated request.segments (dir ++ [gritsDir]) := by
  -- at or below `dir`, the next segment is not `.grits`
  have hbelow : ∀ {front rest : List GoString} {name next : GoString},
      split (trimRight request.path) = front ++ name :: next :: rest → name ≠ [] →
      front.filter (· ≠ []) ++ [name] = dir → next ≠ gritsDir →
      PathTree.Unrelated request.segments (dir ++ [gritsDir]) := by
    intro front rest name next hsplit hname hdir hnext
    rw [LinkRequest.segments_of_below hsplit (List.cons_ne_nil _ _), hsplit, ← hdir,
      List.append_assoc, List.singleton_append]
    apply PathTree.unrelated_filter_append
    · rw [PathTree.unrelated_cons_iff]
      exact PathTree.unrelated_cons_of_ne hnext _ _
    · simp [hname, gritsDir_ne_nil]
  rcases h with hwrite | ⟨hinsert, habsent⟩
  · rw [Policy.permitted_readWrite] at hwrite
    obtain ⟨front, name, next, rest, hsplit, hname, hdir, hnext⟩ :=
      Policy.exists_write_level hat hkinds hgrits hwrite
    rw [trimRight_trimRight] at hsplit
    exact hbelow hsplit hname hdir hnext
  · rw [Policy.permitted_insert] at hinsert
    obtain ⟨front, name, back, hparent, hname, hdir, hback, hgranted⟩ :=
      Policy.exists_insert_level hat hkinds hgrits hinsert
    obtain ⟨count, last, hsplit⟩ := split_of_parentPath hparent hname
    rw [trimRight_trimRight] at hsplit
    cases hrest : back ++ List.replicate count [] ++ [last] with
    | nil => simp at hrest
    | cons next rest =>
        rw [hrest] at hsplit
        refine hbelow hsplit hname hdir ?_
        rintro rfl
        -- then the request would insert the `.grits` that is there
        cases back with
        | cons first back =>
            cases hrest
            exact hback rfl
        | nil =>
            cases count with
            | succ count => cases hrest
            | zero =>
                cases hrest
                have hcomponents := components_of_segments hsplit hname
                rw [List.filter_cons_of_pos (by simp [gritsDir_ne_nil]), List.filter_nil,
                  List.append_cons, hdir] at hcomponents
                obtain ⟨addr, haddr⟩ := exists_grits hgranted
                have hnone := habsent.resolve_left (by simp [hrel])
                rw [hcomponents, haddr] at hnone
                cases hnone

end Unrelated

/-! ## Replacing the directory -/

/-- A request that links the node `addr` at the path of a directory above it, or
unlinks something on the path to it. -/
structure Replaces (E : Env) (s : NameStore) (request : LinkRequest) (path : List GoString)
    (addr : BlobAddr) : Prop where
  check : checkAssertions E request s = (.ok (), s)
  relative : isRooted (trimRight request.path) = false
  target : Targets E.toEncoding request s.rootAddr
  above : ∃ below, request.segments ++ below = path ∧
    (request.newAddr = [] ∨ request.newAddr = addr ∧ below ≠ [])

/-- Such a request succeeds if it is allowed, and the path leads elsewhere. -/
theorem Replaces.multiLink (hdense : E.sparse = false) (h : Inv E.toEncoding holders s)
    {principal : Principal} {request : LinkRequest} {path : List GoString} {addr : BlobAddr}
    (hreplaces : Replaces E s request path addr)
    (hmay : (m.policyAt E.toEncoding s.rootAddr).MayLink E.toEncoding s.rootAddr (.of principal)
      request) (hpath : Names path) (haddr : E.walk (some s.rootAddr) path = some addr) :
    ∃ response t, Grits.multiLink E (authHooks m E) [request] false (.of principal) s =
        (.ok response, t) ∧ resolvedAddr E (join path) t ≠ resolvedAddr E (join path) s := by
  obtain ⟨below, hbelow, hvalue⟩ := hreplaces.above
  have hallow : ∀ callback ∈ (authHooks m E).linkCallbacks, ∀ t newRoot,
      Kept E.toEncoding 0 s t →
        callback (some s.rootAddr) newRoot [request] (.of principal) t = (.ok (), t) := by
    intro callback hmem t newRoot ht
    rw [authHooks, List.mem_singleton] at hmem
    subst hmem
    refine (makeLinkCallback_held ht.sound hdense (h.heldTree.quiet ht.quiet) newRoot
      (.of principal) [request]).1 ?_
    intro other hother
    rw [List.mem_singleton] at hother
    rwa [hother]
  have hload : request.newAddr = [] ∨ Loadable E.toEncoding s request.newAddr := by
    refine hvalue.imp_right ?_
    rintro ⟨rfl, -⟩
    exact (h.heldTree.walk haddr).loadable
  obtain ⟨response, t, hrun⟩ := multiLink_ok hdense rfl h hallow hreplaces.check
    hreplaces.relative hreplaces.target hload
  obtain ⟨ht, hlinked, -⟩ := wp_of_run
    (multiLink_spec hdense (authHooks_readOnly m hdense) h [request] false _) hrun
  refine ⟨response, t, hrun, ?_⟩
  have hjoin : isRooted (trimRight (join path)) = false :=
    isRooted_trimRight (isRooted_join hpath)
  rw [ht.resolvedAddr_eq hdense hjoin, h.resolvedAddr_eq hdense hjoin, components_join hpath,
    haddr, ← hbelow]
  obtain ⟨middle, hfirst, hlast⟩ := hlinked
  rw [LinkedAll] at hlast
  subst hlast
  rw [Encoding.walk, hfirst.updated.walk_below (h.heldTree.wellFormedTree.exactAlong _)]
  rcases hvalue with hnil | ⟨hnew, hne⟩
  · rw [LinkRequest.value, if_pos hnil, PathTree.walk_none]
    exact (Option.some_ne_none addr).symm
  · have hcid : addr ≠ [] := by
      rintro rfl
      exact not_isCid_nil ((h.heldTree path [] haddr).cached.isCid h.sound)
    rw [← hnew] at hcid ⊢
    rw [LinkRequest.value_of_ne hcid]
    exact Encoding.walk_ne_self hne

/-- Unlinking the `.grits` of the root. -/
theorem replaces_unlink {addr : BlobAddr}
    (haddr : E.walk (some s.rootAddr) [gritsDir] = some addr) :
    Replaces E s ⟨gritsDir, [], [], 0⟩ [gritsDir] addr where
  check := by
    unfold checkAssertions
    rw [if_neg (by decide), if_pos rfl]
    rfl
  relative := by decide
  target := by
    have hsegments : LinkRequest.segments ⟨gritsDir, [], [], 0⟩ = [gritsDir] := by decide
    rw [Targets, hsegments, if_neg (List.cons_ne_nil _ _)]
    exact Encoding.exists_dir_of_walk (List.cons_ne_nil _ _) haddr
  above := ⟨[], by decide, .inl rfl⟩

/-- Linking a node at the path of the directory above it; the path `.` is written as
the root. -/
theorem replaces_parent {dir : List GoString} {name : GoString} {addr : BlobAddr}
    (hdir : Names dir) (hne : dir ≠ []) (hcid : addr ≠ [])
    (haddr : E.walk (some s.rootAddr) (dir ++ [name]) = some addr) :
    Replaces E s ⟨join dir, addr, [], 0⟩ (dir ++ [name]) addr := by
  have htrim : trimRight (join dir) = join dir := (plain_join hdir).trimRight_eq
  have hrelative : isRooted (trimRight (join dir)) = false := by
    rw [htrim, isRooted_join hdir]
  have hcheck : checkAssertions E ⟨join dir, addr, [], 0⟩ s = (.ok (), s) := by
    unfold checkAssertions
    rw [if_neg fun h => hcid h.2, if_pos rfl]
    rfl
  by_cases hdot : join dir = ['.']
  · have hsegments : LinkRequest.segments ⟨join dir, addr, [], 0⟩ = [] := by
      rw [LinkRequest.segments, linkName, htrim, if_pos hdot, if_pos rfl]
    refine ⟨hcheck, hrelative, ?_, dir ++ [name], by rw [hsegments]; rfl, .inr ⟨rfl, by simp⟩⟩
    rw [Targets, if_pos hsegments]
    rw [← List.nil_append (dir ++ [name])] at haddr
    obtain ⟨parent, hparent, hisDir⟩ := Encoding.exists_dir_of_walk (by simp) haddr
    cases hparent
    exact ⟨hcid, hisDir⟩
  · have hsegments : LinkRequest.segments ⟨join dir, addr, [], 0⟩ = dir := by
      rw [LinkRequest.segments, linkName, htrim, if_neg hdot,
        if_neg fun h => hne ((join_eq_nil_iff hdir).mp h),
        split_join (fun part hpart => (hdir part hpart).2) hne]
    refine ⟨hcheck, hrelative, ?_, [name], by rw [hsegments], .inr ⟨rfl, List.cons_ne_nil _ _⟩⟩
    rw [Targets, hsegments, if_neg hne]
    rw [← List.dropLast_concat_getLast hne, List.append_assoc] at haddr
    exact Encoding.exists_dir_of_walk (by simp) haddr

/-- Whoever is granted writing at a directory may write at its path. -/
theorem Policy.allows_write_at {policy : Policy} {principal : Principal} {dir : List GoString}
    (hdir : Names dir) (hne : dir ≠ []) (hlast : dir.getLast? ≠ some gritsDir) {g : Grant}
    (hg : g ∈ policy.matching principal dir) (hwrite : g.permission = .readWrite) :
    (policy.effective principal (trimRight (join dir))).allows .write = true := by
  obtain ⟨above, name, rfl⟩ := (List.eq_nil_or_concat dir).resolve_left hne
  rw [List.concat_eq_append] at *
  rw [List.getLast?_concat] at hlast
  rw [Policy.allows_iff, trimRight_trimRight, (plain_join hdir).trimRight_eq,
    split_join (fun part hpart => (hdir part hpart).2) hne]
  refine .inr ⟨above, name, [], rfl, (hdir name (by simp)).1, g, ?_, ?_⟩
  · rwa [List.filter_eq_self.mpr fun part hpart => by simpa using (hdir part (by simp [hpart])).1]
  · refine carries_write_iff.mpr (.inr ⟨hwrite, .inr ⟨rfl, ?_⟩⟩)
    simpa using hlast

/-- The grants of `dir` cannot change its `.grits` if and only if writing is granted
there under the name `.grits` only, where it means reading. -/
theorem multiLink_grits_unchanged_iff (hdense : E.sparse = false) (hs : Reachable E holders s)
    (m : AuthModule) {principal : Principal} {dir : List GoString} (hdir : Names dir)
    (hat : (m.policyAt E.toEncoding s.rootAddr).GrantsOnlyAt principal dir)
    (hkinds : (m.policyAt E.toEncoding s.rootAddr).OnlyGrants principal Policy.NotOwning) :
    (∀ (H : Hooks) (requests : List LinkRequest) (returnResults : Bool)
      (response : Option LookupResponse) (t : NameStore),
      H.ReadOnly E.toEncoding → makeLinkCallback m E ∈ H.linkCallbacks →
      multiLink E H requests returnResults (.of principal) s = (.ok response, t) →
      resolvedAddr E (join (dir ++ [gritsDir])) t = resolvedAddr E (join (dir ++ [gritsDir])) s) ↔
    (m.policyAt E.toEncoding s.rootAddr).WritesOnlyAsGrits principal dir := by
  have hinv := hs.inv hdense
  have hpath : Names (dir ++ [gritsDir]) := hdir.concat gritsDir_ne_nil (by decide)
  constructor
  · intro hunchanged g hg hwrite
    by_contra hlast
    obtain ⟨addr, haddr⟩ := exists_grits (List.ne_nil_of_mem hg)
    -- an allowed request that replaces it is a contradiction
    have hkept : ∀ request, (m.policyAt E.toEncoding s.rootAddr).permitted (.of principal)
        (trimRight request.path) .readWrite = true →
        ¬ Replaces E s request (dir ++ [gritsDir]) addr := by
      intro request hmay hreplaces
      obtain ⟨response, t, hrun, hchanged⟩ :=
        hreplaces.multiLink hdense hinv (.inl hmay) hpath haddr
      exact hchanged (hunchanged _ _ _ _ _ (authHooks_readOnly m hdense) List.mem_cons_self hrun)
    by_cases hne : dir = []
    · subst hne
      refine hkept _ ?_ (replaces_unlink haddr)
      rw [Policy.permitted_readWrite, Policy.allows_iff]
      exact .inl ⟨g, hg, carries_write_iff.mpr (.inr ⟨hwrite, .inl rfl⟩)⟩
    · have hcid : addr ≠ [] := by
        rintro rfl
        exact not_isCid_nil ((hinv.heldTree _ [] haddr).cached.isCid hinv.sound)
      refine hkept _ ?_ (replaces_parent hdir hne hcid haddr)
      rw [Policy.permitted_readWrite]
      exact Policy.allows_write_at hdir hne hlast hg hwrite
  · intro hgrits H requests returnResults response t hH hauth hrun
    obtain ⟨ht, hlinked, -⟩ := wp_of_run (multiLink_spec hdense hH hinv requests returnResults _)
      hrun
    have hallowed := multiLink_allowed hdense hinv hH hauth hrun
    have hjoin : isRooted (trimRight (join (dir ++ [gritsDir]))) = false :=
      isRooted_trimRight (isRooted_join hpath)
    rw [ht.resolvedAddr_eq hdense hjoin, hinv.resolvedAddr_eq hdense hjoin, components_join hpath]
    refine (hlinked.updatedAll.walk_unrelated Encoding.reads_unique ?_
      (hinv.heldTree.wellFormedTree.exactAlong _)).1
    intro update hupdate
    obtain ⟨request, hrequest, rfl⟩ := List.mem_map.mp hupdate
    exact (hallowed request hrequest).unrelated hat hkinds hgrits
      (hlinked.relative request hrequest)

/-- In a volume with one directory that has nothing but an `access.json`, no other
directory has grants. -/
theorem grantsOnlyAt_of_single {E : Encoding} {root d grits access : BlobAddr} {name : GoString}
    (hname : name ≠ gritsDir) (hroot : E.DirAt root (.single name d))
    (hd : E.DirAt d (.single gritsDir grits))
    (hgrits : E.DirAt grits (.single "access.json".toList access)) (hfile : ¬ E.IsDir access)
    (m : AuthModule) (principal : Principal) :
    (m.policyAt E root).GrantsOnlyAt principal [name] := by
  intro other hne
  by_contra hgranted
  obtain ⟨addr, hwalk⟩ := exists_grits hgranted
  cases other with
  | nil => exact hname (hroot.cons_of_walk hwalk).1.symm
  | cons first rest =>
      obtain ⟨rfl, hwalk⟩ := hroot.cons_of_walk hwalk
      cases rest with
      | nil => exact hne rfl
      | cons second rest =>
          obtain ⟨-, hwalk⟩ := hd.cons_of_walk hwalk
          cases rest with
          | nil => exact absurd (hgrits.cons_of_walk hwalk).1 (by decide)
          | cons third rest =>
              obtain ⟨-, hwalk⟩ := hgrits.cons_of_walk hwalk
              -- a file has nothing below it
              rw [← List.nil_append (List.append rest [gritsDir])] at hwalk
              obtain ⟨parent, hparent, hisDir⟩ := Encoding.exists_dir_of_walk (by simp) hwalk
              cases hparent
              exact hfile hisDir

namespace Table

/-- Only the directory `d` has an `access.json`. -/
theorem writeVolume_grantsOnlyAt (m : AuthModule) (principal : Principal) :
    (m.policyAt authEnv.toEncoding writeVolume.rootAddr).GrantsOnlyAt principal ["d".toList] := by
  have haddr : writeVolume.rootAddr =
      (cid writeRootDigest) := by decide +kernel
  have hroot : authEnv.DirAt (cid writeRootDigest) (.single "d".toList (cid grantedDigest)) :=
    dirAt_of_entry proper_authTable authTable[10] authTable[11] (List.getElem_mem _)
      (List.getElem_mem _) rfl rfl rfl rfl rfl (by decide)
  have hd : authEnv.DirAt (cid grantedDigest) (.single gritsDir (cid gritsDigest)) :=
    dirAt_of_entry proper_authTable authTable[6] authTable[7] (List.getElem_mem _)
      (List.getElem_mem _) rfl rfl rfl rfl rfl (by decide)
  have hgrits : authEnv.DirAt (cid gritsDigest)
      (.single "access.json".toList (cid accessDigest)) :=
    dirAt_of_entry proper_authTable authTable[4] authTable[5] (List.getElem_mem _)
      (List.getElem_mem _) rfl rfl rfl rfl rfl (by decide)
  have hfile : ¬ authEnv.IsDir (cid accessDigest) :=
    not_isDir_of_file proper_authTable authTable[3] (List.getElem_mem _) rfl rfl rfl
  rw [haddr]
  exact grantsOnlyAt_of_single (by decide) hroot hd hgrits hfile m principal

theorem authModule_onlyGrants :
    (authModule.policyAt authEnv.toEncoding writeVolume.rootAddr).OnlyGrants authPrincipal
      Policy.NotOwning := by
  intro dir g hg
  rw [Policy.NotOwning, grantModule_permission (List.mem_filter.mp hg).1]
  simp

theorem authGrant_mem_matching :
    authGrant .readWrite ∈ (authModule.policyAt authEnv.toEncoding
      writeVolume.rootAddr).matching authPrincipal ["d".toList] := by
  have hinv := reachable_writeVolume.inv (E := authEnv) rfl
  have hrel : isRooted "d".toList = false := rfl
  have hrun := matchingGrants_held (m := authModule) hinv.sound rfl hinv.heldTree authPrincipal hrel
  have hresult : (matchingGrants authModule authEnv (some writeVolume.rootAddr) authPrincipal
      "d".toList writeVolume).1 = .ok [authGrant .readWrite] := by decide +kernel
  have hdir : components "d".toList = ["d".toList] := by decide
  rw [hrun, hdir, Except.ok.injEq] at hresult
  rw [hresult]
  exact List.mem_singleton_self _

end Table

/-- Whoever may write `d` may change its `.grits`. -/
theorem multiLink_grits_unchanged_iff_write :
    ∃ (H : Hooks) (requests : List LinkRequest) (returnResults : Bool)
      (response : Option LookupResponse) (t : NameStore),
      H.ReadOnly Table.authEnv.toEncoding ∧
        makeLinkCallback Table.authModule Table.authEnv ∈ H.linkCallbacks ∧
        multiLink Table.authEnv H requests returnResults (.of Table.authPrincipal)
          Table.writeVolume = (.ok response, t) ∧
        resolvedAddr Table.authEnv "d/.grits".toList t ≠
          resolvedAddr Table.authEnv "d/.grits".toList Table.writeVolume := by
  by_contra hnone
  have hnames : Names ["d".toList] := by simp [Names]
  have hunchanged := (multiLink_grits_unchanged_iff rfl Table.reachable_writeVolume
    Table.authModule hnames (Table.writeVolume_grantsOnlyAt _ Table.authPrincipal)
    Table.authModule_onlyGrants).mp
  have hwrites := hunchanged fun H requests returnResults response t hH hauth hrun => by
    by_contra hchanged
    exact hnone ⟨H, requests, returnResults, response, t, hH, hauth, hrun, hchanged⟩
  exact absurd (hwrites _ Table.authGrant_mem_matching rfl) (by decide)

/-- The directory `d` grants reading and writing, and unlinking `d` is allowed: then
its `.grits` is gone. -/
theorem multiLink_unlinks_grits :
    ∃ s t, Reachable Table.authEnv 0 s ∧
      (Table.authModule.policyAt Table.authEnv.toEncoding s.rootAddr).GrantsOnlyAt
        Table.authPrincipal ["d".toList] ∧
      (Table.authModule.policyAt Table.authEnv.toEncoding s.rootAddr).OnlyGrants
        Table.authPrincipal Policy.NotOwning ∧
      multiLink Table.authEnv (authHooks Table.authModule Table.authEnv)
        [⟨"d".toList, [], [], 0⟩] false (.of Table.authPrincipal) s = (.ok none, t) ∧
      resolvedAddr Table.authEnv "d/.grits".toList s ≠ none ∧
      resolvedAddr Table.authEnv "d/.grits".toList t = none := by
  have hresult : (multiLink Table.authEnv (authHooks Table.authModule Table.authEnv)
      [⟨"d".toList, [], [], 0⟩] false (.of Table.authPrincipal) Table.writeVolume).1 =
      .ok none := by decide +kernel
  exact ⟨Table.writeVolume, _, Table.reachable_writeVolume,
    Table.writeVolume_grantsOnlyAt _ _, Table.authModule_onlyGrants, run_eq hresult,
    by decide +kernel, by decide +kernel⟩

end Grits
