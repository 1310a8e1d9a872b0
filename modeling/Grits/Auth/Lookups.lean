import Grits.Auth.Laws
import Grits.NameStore.Batch

/-!
# What lookups reveal

A lookup through the auth callback returns the same entries on two volumes with
the same `access.json` contents and the same nodes at every readable path:
nothing depends on what is at the other paths.
-/

namespace Grits

open Prog SlashPath FirstByKey

variable {E : Env} {holders holders' : Multiset BlobAddr} {s s' t : NameStore} {m : AuthModule}

/-! ## Lookups with the auth callback -/

/-- A lookup through the auth callback returns the entries of the batch, pruned. -/
theorem lookup_auth_held (hdense : E.sparse = false) (h : Inv E.toEncoding holders s)
    {paths : List GoString} (hrel : Relative paths) (principal : PrincipalRef) :
    lookup E [makeLookupCallback m E] paths [] principal s =
      (.ok ⟨(E.batch s.rootAddr paths).map
        ((m.policyAt E.toEncoding s.rootAddr).prune principal), s.serialNumber⟩, s) := by
  have hcached : Cached s s.rootAddr := h.root_ready.cached
  obtain ⟨node, hnode⟩ := id hcached
  obtain ⟨htake, hsound, hquiet, hrelease⟩ := holding_spec h.sound hdense hnode
  have hheld : HeldTree E.toEncoding (holding s s.rootAddr node) s.rootAddr :=
    h.heldTree.quiet hquiet
  have hroot : s.rootAddr ≠ [] := by
    intro hnil
    have hcid := hcached.isCid h.sound
    rw [hnil] at hcid
    exact not_isCid_nil hcid
  have hcallbackRoot : callbackRoot E [makeLookupCallback m E] s =
      (.ok (some s.rootAddr), holding s s.rootAddr node) := by
    rw [callbackRoot, bind_run (get_run s), if_neg (by simp [hroot])]
    rw [bind_run (tryErr_run (loadFileNode_cached hcached))]
    exact (bind_run htake).trans rfl
  have hloop := lookupLoop_held hsound hdense hheld hrel
  have hprune : ∀ response request, makeLookupCallback m E response request (some s.rootAddr)
      (holding s s.rootAddr node) = _ := makeLookupCallback_held (m := m) hsound hdense hheld
  have hbody : (do
      let entries ← loop (lookupStep E none) [] paths
      runLookupCallbacks [makeLookupCallback m E] ⟨paths, [], principal⟩ (some s.rootAddr)
        ⟨entries, s.serialNumber⟩ : Op LookupResponse) (holding s s.rootAddr node) =
      (.ok ⟨(E.batch s.rootAddr paths).map
        ((m.policyAt E.toEncoding s.rootAddr).prune principal), s.serialNumber⟩,
        holding s s.rootAddr node) := by
    rw [bind_run hloop, runLookupCallbacks, loop_cons, bind_run (hprune _ _)]
    rfl
  unfold lookup
  rw [bind_run (get_run s)]
  change (callbackRoot E _ >>= fun root => releasing E root _) s = _
  rw [bind_run hcallbackRoot]
  exact releasing_run hbody hrelease

/-! ## Two volumes -/

/-- The components of the path are not empty, and none of them is `.` or `..`. -/
def Undotted (path : GoString) : Prop :=
  Plain path ∧ ∀ part ∈ components path, part ≠ ['.'] ∧ part ≠ ['.', '.']

/-- The path resolves to this entry. -/
def ResolvesTo (E : Env) (s : NameStore) (path : GoString) (leaf : PathNodePair) : Prop :=
  ∃ response t, resolveFromLocal E path none s = (.ok response, t) ∧ response.leaf = some leaf

theorem Undotted.label_eq {path : GoString} (h : Undotted path) {above : List GoString}
    (habove : above <+: components path) : label above = join above := by
  obtain ⟨below, hbelow⟩ := habove
  have hnames : Names above := fun part hpart =>
    names_components path part (hbelow ▸ List.mem_append_left below hpart)
  have hsettled : Settled (components path) := settled_of_no_dots h.2
  rw [← hbelow] at hsettled
  exact label_of_settled hnames hsettled.of_append

/-- A path on the way to an undotted path is undotted. -/
theorem Undotted.above {path : GoString} (h : Undotted path) {above : List GoString}
    (habove : above <+: components path) : Undotted (join above) ∧ components (join above) = above := by
  obtain ⟨below, hbelow⟩ := habove
  have hnames : Names above := fun part hpart =>
    names_components path part (hbelow ▸ List.mem_append_left below hpart)
  have hcomponents := components_join hnames
  refine ⟨⟨plain_join hnames, ?_⟩, hcomponents⟩
  rw [hcomponents]
  exact fun part hpart => h.2 part (hbelow ▸ List.mem_append_left below hpart)

theorem resolvesTo_iff (hdense : E.sparse = false) (h : Inv E.toEncoding holders s)
    {path : GoString} (hplain : Plain path) {leaf : PathNodePair} :
    ResolvesTo E s path leaf ↔ leaf = E.entryOf s.rootAddr (components path) := by
  have hrel : isRooted (trimRight path) = false := by
    rw [hplain.trimRight_eq, hplain.isRooted_eq]
  have hrun : resolveFromLocal E path none s = _ :=
    resolveFromLocal_held h.sound hdense h.heldTree rfl hrel
  have hleaf := getLast?_entriesOf (E := E.toEncoding) s.rootAddr (components path)
  rw [Encoding.paths_resolve] at hrun
  constructor
  · rintro ⟨response, t, hresponse, hlast⟩
    rw [hrun] at hresponse
    cases hresponse
    exact Option.some.inj (hlast.symm.trans hleaf)
  · rintro rfl
    exact ⟨_, _, hrun, hleaf⟩

/-- Two entries are under one label, and prune to the same. -/
def Alike (policy : Policy) (principal : PrincipalRef) (pair pair' : PathNodePair) : Prop :=
  pair.path = pair'.path ∧ policy.prune principal pair = policy.prune principal pair'

theorem alike_entryOf {policy : Policy} {principal : PrincipalRef} {root root' : BlobAddr}
    {above : List GoString}
    (hsame : policy.permitted principal (label above) .read = true →
      E.entryOf root above = E.entryOf root' above) :
    Alike policy principal (E.entryOf root above) (E.entryOf root' above) := by
  refine ⟨by rw [Encoding.entryOf_path, Encoding.entryOf_path], ?_⟩
  unfold Policy.prune
  rw [Encoding.entryOf_path, Encoding.entryOf_path]
  split
  next hreadable => exact hsame hreadable
  next => rfl

/-- The batches of two roots on which the readable paths have the same entries. -/
theorem alike_batch {policy : Policy} {principal : PrincipalRef} {root root' : BlobAddr}
    {paths : List GoString}
    (hsame : ∀ path ∈ paths, ∀ above, above <+: components path →
      policy.permitted principal (label above) .read = true →
        E.entryOf root above = E.entryOf root' above) :
    List.Forall₂ (Alike policy principal) (E.batch root paths) (E.batch root' paths) := by
  refine appendNew_forall₂ (fun _ _ h => h.1) .nil ?_
  induction paths with
  | nil => exact .nil
  | cons path paths ih =>
      rw [List.map_cons, List.map_cons, List.flatten_cons, List.flatten_cons]
      refine List.rel_append ?_ (ih fun other hother => hsame other (List.mem_cons_of_mem _ hother))
      rw [Encoding.entriesOf, Encoding.entriesOf, List.forall₂_map_left_iff,
        List.forall₂_map_right_iff, List.forall₂_same]
      intro i _
      exact alike_entryOf (hsame path List.mem_cons_self _ (List.take_prefix _ _))

theorem map_prune_eq {policy : Policy} {principal : PrincipalRef} {pairs pairs' : List PathNodePair}
    (h : List.Forall₂ (Alike policy principal) pairs pairs') :
    pairs.map (policy.prune principal) = pairs'.map (policy.prune principal) := by
  induction h with
  | nil => rfl
  | cons halike _ ih => rw [List.map_cons, List.map_cons, halike.2, ih]

/-- What a lookup returns depends on the `access.json` files and on what is at the
readable paths, and on nothing else. -/
theorem lookup_noninterference (hdense : E.sparse = false) (hs : Reachable E holders s)
    (hs' : Reachable E holders' s') (principal : PrincipalRef)
    (haccess : ∀ dir, E.accessContent s.rootAddr dir = E.accessContent s'.rootAddr dir)
    (hsame : ∀ path, Undotted path →
      (m.policyAt E.toEncoding s.rootAddr).permitted principal path .read = true →
        ∀ leaf, ResolvesTo E s path leaf ↔ ResolvesTo E s' path leaf)
    {paths : List GoString} (hpaths : ∀ path ∈ paths, Undotted path) :
    ∃ response response' t t',
      lookup E [makeLookupCallback m E] paths [] principal s = (.ok response, t) ∧
      lookup E [makeLookupCallback m E] paths [] principal s' = (.ok response', t') ∧
      response.paths = response'.paths := by
  have hinv := hs.inv hdense
  have hinv' := hs'.inv hdense
  have hrel : Relative paths := by
    intro path hpath
    rw [(hpaths path hpath).1.trimRight_eq, (hpaths path hpath).1.isRooted_eq]
  refine ⟨_, _, _, _, lookup_auth_held hdense hinv hrel principal,
    lookup_auth_held hdense hinv' hrel principal, ?_⟩
  have hpolicy : m.policyAt E.toEncoding s'.rootAddr = m.policyAt E.toEncoding s.rootAddr := by
    funext dir
    rw [AuthModule.policyAt, AuthModule.policyAt, haccess dir]
  simp only [hpolicy]
  refine map_prune_eq (alike_batch ?_)
  intro path hpath above habove hreadable
  obtain ⟨hundotted, hcomponents⟩ := (hpaths path hpath).above habove
  rw [(hpaths path hpath).label_eq habove] at hreadable
  have hiff := hsame (join above) hundotted hreadable (E.entryOf s.rootAddr above)
  rw [resolvesTo_iff hdense hinv hundotted.1, resolvesTo_iff hdense hinv' hundotted.1,
    hcomponents] at hiff
  exact hiff.mp rfl

/-! ### Two volumes without grants -/

/-- A root whose entries are all files has no `access.json` anywhere. -/
theorem accessContent_of_files {E : Encoding} {root : BlobAddr} {children : Children}
    (hdir : E.DirAt root children)
    (hfiles : ∀ name addr, children.lookup name = some addr → ¬ E.IsDir addr)
    (dir : List GoString) : E.accessContent root dir = none := by
  have hdeep : ∀ name next path, E.walk (some root) (name :: next :: path) = none := by
    intro name next path
    rw [Encoding.walk, PathTree.walk_cons, hdir.child]
    cases hchild : children.lookup name with
    | none => exact PathTree.walk_none _ _
    | some addr =>
        have hfile := Encoding.entries_eq_none (hfiles name addr hchild)
        rw [PathTree.walk_cons, PathTree.child, Option.bind_some, hfile, Option.bind_none]
        exact PathTree.walk_none _ _
  rw [Encoding.accessContent]
  cases dir with
  | nil => rw [List.nil_append, hdeep, Option.bind_none]
  | cons name dir =>
      cases dir with
      | nil => rw [List.cons_append, List.nil_append, hdeep, Option.bind_none]
      | cons next dir => rw [List.cons_append, List.cons_append, hdeep, Option.bind_none]

/-- Without grants nothing is readable, by anyone but the backend. -/
theorem not_permitted_of_no_access {E : Encoding} {root : BlobAddr}
    (h : ∀ dir, E.accessContent root dir = none) (m : AuthModule) (principal : Principal)
    (path : GoString) : (m.policyAt E root).permitted (.of principal) path .read = false := by
  have hnone : ∀ dir, (m.policyAt E root).matching principal dir = [] := by
    intro dir
    rw [Policy.matching, AuthModule.policyAt, h dir]
    rfl
  have hread : ((m.policyAt E root).effective principal path).allows .read ≠ true := by
    rw [Ne, Policy.allows_effective]
    rintro ⟨p, hcontributes, -⟩
    cases hcontributes with
    | root hg _ =>
        rw [hnone] at hg
        exact List.not_mem_nil hg
    | level _ _ hg _ =>
        rw [hnone] at hg
        exact List.not_mem_nil hg
  exact eq_false_of_ne_true hread

/-- A user without grants cannot tell the volume with the file `a` from the empty one. -/
theorem lookup_noninterference_file :
    ∃ response response' t t',
      lookup Table.smallEnv [makeLookupCallback Table.authModule Table.smallEnv] ["a".toList] []
        (.of Table.authPrincipal) Table.smallVolume = (.ok response, t) ∧
      lookup Table.smallEnv [makeLookupCallback Table.authModule Table.smallEnv] ["a".toList] []
        (.of Table.authPrincipal) (Table.emptyVolume Table.proper_smallTable) =
          (.ok response', t') ∧
      response.paths = response'.paths := by
  have hsmall : ∀ dir, Table.smallEnv.accessContent Table.smallVolume.rootAddr dir = none := by
    have hroot : Table.smallVolume.rootAddr = Table.smallDirectory := by decide +kernel
    rw [hroot]
    refine accessContent_of_files (Table.dirAt_of_entry Table.proper_smallTable
      Table.smallTable[4] Table.smallTable[5] (List.getElem_mem _) (List.getElem_mem _)
      rfl rfl rfl rfl rfl (by decide)) ?_
    intro name addr hchild
    rw [Children.lookup_single] at hchild
    split at hchild
    next =>
      cases hchild
      exact Table.not_isDir_of_file Table.proper_smallTable Table.smallTable[3]
        (List.getElem_mem _) rfl rfl rfl
    next => cases hchild
  have hempty : ∀ dir, Table.smallEnv.accessContent
      (Table.emptyVolume Table.proper_smallTable).rootAddr dir = none := by
    have hroot : (Table.emptyVolume Table.proper_smallTable).rootAddr = Table.smallTable[1].addr := by
      decide +kernel
    rw [hroot]
    refine accessContent_of_files (Table.dirAt_of_rows Table.proper_smallTable
      Table.smallTable[0] Table.smallTable[1] (List.getElem_mem _) (List.getElem_mem _)
      rfl rfl rfl rfl rfl ?_) ?_
    · rintro name addr ⟨⟩
    · rintro name addr ⟨⟩
  have hreachable : Reachable Table.smallEnv 0 (Table.emptyVolume Table.proper_smallTable) :=
    Table.reachable_emptyVolume _ (by decide +kernel)
  refine lookup_noninterference rfl Table.reachable_smallVolume hreachable (.of Table.authPrincipal)
    (fun dir => (hsmall dir).trans (hempty dir).symm) ?_ ?_
  · intro path _ hreadable
    rw [not_permitted_of_no_access hsmall] at hreadable
    cases hreadable
  · intro path hpath
    rw [List.mem_singleton.mp hpath]
    exact ⟨by decide, by decide⟩

end Grits
