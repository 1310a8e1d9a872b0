import Grits.Auth.Laws
import Grits.NameStore.Composition
import Grits.NameStore.Progress

/-!
# What a restricted principal can link

A link that succeeds in a volume with the auth callback has been allowed, request
by request, on the tree as it was.  Principals that may only insert only add to
the tree; whoever may write a directory but not own it leaves its `.grits` alone,
as long as the directory itself is not replaced.
-/

namespace Grits

open Prog SlashPath

variable {E : Env} {H : Hooks} {holders : Multiset BlobAddr} {s t : NameStore} {m : AuthModule}

/-! ## Every request was allowed -/

/-- A loop of calls that keep the state runs each of them in such a state. -/
theorem loop_kept_ok {α : Type} {call : α → Op Unit} {held : Multiset BlobAddr} {all : List α}
    {u v : NameStore} (hs : Sound E.toEncoding held u)
    (hkept : ∀ a ∈ all, ∀ w, Kept E.toEncoding held u w →
      wp (call a) (post (fun _ x => Kept E.toEncoding held w x) (Kept E.toEncoding held w)) w)
    (hrun : loop (fun _ a => call a) () all u = (.ok (), v)) :
    ∀ a ∈ all, ∃ w, Kept E.toEncoding held u w ∧ (call a w).1 = .ok () := by
  induction all generalizing u with
  | nil => exact fun a ha => absurd ha List.not_mem_nil
  | cons first rest ih =>
      rw [loop_cons] at hrun
      obtain ⟨⟨⟩, w, hfirst, hrest⟩ := bind_ok_iff.mp hrun
      have hw : Kept E.toEncoding held u w :=
        wp_of_run (hkept first List.mem_cons_self u hs.kept) hfirst
      intro a ha
      rcases List.mem_cons.mp ha with rfl | ha
      · exact ⟨u, hs.kept, by rw [hfirst]⟩
      · obtain ⟨x, hx, hok⟩ := ih hw.sound
          (fun b hb y hy => hkept b (List.mem_cons_of_mem _ hb) y (hw.trans hy)) hrest a ha
        exact ⟨x, hw.trans hx, hok⟩

/-- Each link callback has let a successful link pass, in a state with the same root. -/
theorem multiLink_callback_ok (hdense : E.sparse = false) (h : Inv E.toEncoding holders s)
    (hH : H.ReadOnly E.toEncoding) {requests : List LinkRequest} {returnResults : Bool}
    {principal : PrincipalRef} {response : Option LookupResponse}
    (hrun : multiLink E H requests returnResults principal s = (.ok response, t))
    {callback : LinkCallback} (hmem : callback ∈ H.linkCallbacks) :
    ∃ newRoot u, Kept E.toEncoding 0 s u ∧
      (callback (some s.rootAddr) newRoot requests principal u).1 = .ok () := by
  obtain ⟨prepared, v, hprepare, -⟩ := bind_ok_iff.mp hrun
  rw [prepare, bind_run (get_run s)] at hprepare
  obtain ⟨⟨oldRoot, newRoot⟩, u, hcandidate, hprepare⟩ := bind_ok_iff.mp hprepare
  obtain ⟨⟨⟩, w, hloop, -⟩ := bind_ok_iff.mp hprepare
  obtain ⟨hu, hroot, hold, hnew, -⟩ := wp_of_run (candidateRoot_spec hdense h.sound requests)
    hcandidate
  subst hroot
  have hlive : Cached u u.rootAddr := h.root_ready.cached.root_quiet hu.quiet
  have hkept : ∀ callback ∈ H.linkCallbacks, ∀ x, Kept E.toEncoding 0 u x →
      wp (callback (some s.rootAddr) newRoot requests principal)
        (post (fun _ y => Kept E.toEncoding 0 x y) (Kept E.toEncoding 0 x)) x := by
    intro callback hmem x hx
    exact hH.linkCallbacks callback hmem 0 x _ _ requests principal hx.sound
      (hlive.root_quiet hx.quiet) (cachedIfSome_some (hold.kept hx)) (hnew.kept hx)
  obtain ⟨x, hx, hok⟩ := loop_kept_ok hu.sound hkept hloop callback hmem
  exact ⟨newRoot, x, hu.trans hx, hok⟩

/-- Each request of a link that succeeds was allowed on the tree before it. -/
theorem multiLink_allowed (hdense : E.sparse = false) (h : Inv E.toEncoding holders s)
    (hH : H.ReadOnly E.toEncoding) (hauth : makeLinkCallback m E ∈ H.linkCallbacks)
    {requests : List LinkRequest} {returnResults : Bool} {principal : PrincipalRef}
    {response : Option LookupResponse}
    (hrun : multiLink E H requests returnResults principal s = (.ok response, t)) :
    ∀ request ∈ requests, (m.policyAt E.toEncoding s.rootAddr).MayLink E.toEncoding s.rootAddr
      principal request := by
  obtain ⟨newRoot, u, hu, hok⟩ := multiLink_callback_ok hdense h hH hrun hauth
  exact (makeLinkCallback_held hu.sound hdense (h.heldTree.quiet hu.quiet) newRoot principal
    requests).2 hok

/-! ## Where a request writes -/

/-- Without empty names, a request writes where its path resolves. -/
theorem LinkRequest.segments_of_names {request : LinkRequest} (hne : request.segments ≠ [])
    (hnames : ∀ name ∈ request.segments, name ≠ []) :
    components request.path = request.segments := by
  rw [LinkRequest.segments] at hne hnames ⊢
  split at hne
  next => exact absurd rfl hne
  next hname =>
    rw [if_neg hname] at hnames ⊢
    rw [(linkName_cases request.path).resolve_left hname] at hnames ⊢
    rw [← components_trimRight, components, List.filter_eq_self.mpr]
    exact fun name hmem => by simpa using hnames name hmem

theorem LinkRequest.getLast?_segments (request : LinkRequest) :
    ∀ name, request.segments.getLast? = some name → name ≠ [] := by
  intro name hlast
  rw [LinkRequest.segments] at hlast
  split at hlast
  next => cases hlast
  next hname =>
    rintro rfl
    exact getLast?_split_linkName hname hlast

/-- A request writes the root if its path is trimmed to nothing or to `.`; the
callback then asks for a permission at the root. -/
theorem LinkRequest.parentPath_of_segments_nil {request : LinkRequest}
    (h : request.segments = []) : parentPath (trimRight request.path) = [] := by
  rw [LinkRequest.segments] at h
  split at h
  next hname =>
    rw [linkName] at hname
    split at hname
    next hdot =>
      rw [hdot]
      decide
    next => rw [hname]; decide
  next => exact absurd h (split_ne_nil _)

/-! ## Principals that may only insert -/

namespace Policy

variable {policy : Policy} {principal : Principal}

/-- All matching grants are of these kinds. -/
def OnlyGrants (policy : Policy) (principal : Principal) (kinds : Permission → Prop) : Prop :=
  ∀ dir, ∀ g ∈ policy.matching principal dir, kinds g.permission

theorem permitted_readWrite (path : GoString) :
    policy.permitted (.of principal) path .readWrite =
      (policy.effective principal path).allows .write := rfl

theorem permitted_insert (path : GoString) :
    policy.permitted (.of principal) path .insert =
      (policy.effective principal path).allows .insert := rfl

/-- Without a grant that allows writing, nothing may be written. -/
theorem not_allows_write {kinds : Permission → Prop} (h : policy.OnlyGrants principal kinds)
    (hkinds : ¬ kinds .owner ∧ ¬ kinds .readWrite) (path : GoString) :
    (policy.effective principal path).allows .write = false := by
  rw [Bool.eq_false_iff]
  intro hwrite
  rw [allows_iff] at hwrite
  have hnone : ∀ (dir : List GoString) (level : Level) (b : Bool),
      ∀ g ∈ policy.matching principal dir, ¬ level.Carries b g.permission .write := by
    intro dir level b g hg hcarries
    have hkind := h dir g hg
    rw [carries_write_iff] at hcarries
    rcases hcarries with hperm | ⟨hperm, -⟩
    · rw [hperm] at hkind
      exact hkinds.1 hkind
    · rw [hperm] at hkind
      exact hkinds.2 hkind
  rcases hwrite with ⟨g, hg, hcarries⟩ | ⟨_, _, _, -, -, g, hg, hcarries⟩
  · exact hnone _ _ _ g hg hcarries
  · exact hnone _ _ _ g hg hcarries

/-- Nobody may insert at the root who may not write there. -/
theorem allows_write_of_insert_root
    (h : (policy.effective principal []).allows .insert = true) :
    (policy.effective principal []).allows .write = true := by
  rw [allows_iff] at h ⊢
  rcases h with ⟨g, hg, hcarries⟩ | ⟨front, name, back, hsplit, hname, -⟩
  · refine .inl ⟨g, hg, ?_⟩
    rw [carries_insert_iff] at hcarries
    exact hcarries.resolve_right fun h => by cases h.1
  · rw [trimRight_nil, split_nil] at hsplit
    cases front with
    | nil => cases hsplit; exact absurd rfl hname
    | cons first front => simp at hsplit

end Policy

/-- The entries of a directory that may only be inserted into stay, and every file
stays the same: such a principal only adds to the tree. -/
theorem multiLink_insertOnly (hdense : E.sparse = false) (hs : Reachable E holders s)
    (hH : H.ReadOnly E.toEncoding) (hauth : makeLinkCallback m E ∈ H.linkCallbacks)
    {principal : Principal}
    (hgrants : (m.policyAt E.toEncoding s.rootAddr).OnlyGrants principal
      fun p => p = .insert ∨ p = .readInsert)
    {requests : List LinkRequest} {returnResults : Bool} {response : Option LookupResponse}
    (hrun : multiLink E H requests returnResults (.of principal) s = (.ok response, t)) :
    ∀ path addr, resolvedAddr E path s = some addr →
      ∃ addr', resolvedAddr E path t = some addr' ∧ (¬ E.IsDir addr → addr' = addr) ∧
        ∀ children, E.DirAt addr children → ∃ children', E.DirAt addr' children' ∧
          ∀ name ∈ children, name ∈ children' := by
  have hinv := hs.inv hdense
  obtain ⟨ht, hlinked, -⟩ := wp_of_run (multiLink_spec hdense hH hinv requests returnResults _) hrun
  have hallowed := multiLink_allowed hdense hinv hH hauth hrun
  have hwrite := Policy.not_allows_write hgrants (by simp)
  have hgrown : PathTree.Grown E.entries E.Reads (· ≠ []) (some s.rootAddr) (some t.rootAddr) := by
    refine (hinv.heldTree.wellFormedTree.grown _).updatedAll Encoding.reads_unique
      hlinked.updatedAll ?_
    intro update hupdate
    obtain ⟨request, hrequest, rfl⟩ := List.mem_map.mp hupdate
    -- nothing may be written, so the request inserts
    have hmay := hallowed request hrequest
    rw [Policy.MayLink, Policy.permitted_readWrite, Policy.permitted_insert, hwrite] at hmay
    obtain ⟨hinsert, habsent⟩ := hmay.resolve_left (by simp)
    have hne : request.segments ≠ [] := by
      intro hnil
      rw [LinkRequest.parentPath_of_segments_nil hnil] at hinsert
      have := Policy.allows_write_of_insert_root hinsert
      rw [hwrite] at this
      cases this
    refine ⟨hne, request.getLast?_segments, ?_⟩
    intro hnames
    have hrel := hlinked.relative request hrequest
    have hwalk := habsent.resolve_left (by simp [hrel])
    rwa [LinkRequest.segments_of_names hne hnames] at hwalk
  intro path addr hpath
  have hrel : isRooted (trimRight path) = false := by
    cases hrooted : isRooted (trimRight path) with
    | false => rfl
    | true =>
        rw [resolvedAddr_rooted hrooted] at hpath
        cases hpath
  rw [hinv.resolvedAddr_eq hdense hrel] at hpath
  rw [ht.resolvedAddr_eq hdense hrel]
  obtain ⟨addr', hwalk, -, hleaf, hdirs⟩ := hgrown (components path) addr
    (fun name hname => (names_components path name hname).1) hpath
  refine ⟨addr', hwalk, fun hfile => hleaf (Encoding.entries_eq_none hfile), ?_⟩
  intro children hdir
  obtain ⟨f, hf, hsub⟩ := hdirs _ hdir.entries
  obtain ⟨children', hdir', rfl⟩ := Encoding.exists_dirAt_of_entries hf
  refine ⟨children', hdir', ?_⟩
  intro name hname
  rw [← Finmap.lookup_isSome] at hname ⊢
  exact Option.isSome_iff_ne_none.mpr (hsub name (Option.isSome_iff_ne_none.mp hname))

namespace Table

/-- The digest of the `access.json` that grants inserting. -/
def insertAccessDigest : ℕ :=
  0xce25c8827f0a2f5dce87d26afcb3bf83e05474a828d9d5694e2a641cf13eed81

/-- The empty directory, a file, an `access.json` that grants inserting with the
directories above it, and the same with the file inserted as the entry `a`. -/
def insertTable : List KnownBlob :=
  digestDirectory 0x44136fa355b3678a1146ad16f7e8649e94fb4fc21fe77e8310c060f61caaff8a
      0x9f4185ec7ff434f93c5d00ae28289306bfbd25fb306289e28840b24fe750974f [] ++
    digestFile 0x2cf24dba5fb0a30e26e83b2ac5b9e29e1b161e5c1fa7425e73043362938b9824
      0x85f8f2bd40d647f74bf80869f5c9d1bb66699d50ecba3f5568d9d88c7249192c "hello".toList ++
    digestFile 0xd22847d6f068244d0089ea7787e4cfed2edabfe793e7a3fc6b3e3c7ab6887c1e
      insertAccessDigest (accessText "insert").toList ++
    digestDirectory 0x5ee844d57a7e699436de0e08a081d2c9b28d098346b7102b384f9dbf8a5bdc37
      0x38de4075a1e936814fea612e93ff413a81c0f8c14bb4afc584bfbd26a4417a0e
      [("access.json".toList, insertAccessDigest)] ++
    digestDirectory 0x92a537164dfb3e2e26ab629fd9517a9e5c46f1219238c4ab9f87b8d7cb314edb
      0xa23fa6624ffd30e2d37b9e060059a131bff8db3a2e2b0a52e4af5aa978574a1d
      [(".grits".toList, 0x38de4075a1e936814fea612e93ff413a81c0f8c14bb4afc584bfbd26a4417a0e)] ++
    digestDirectory 0xef43dcad7b63f0a664ac257484c466c7f8ae2829bbac1d13168d6c83fe15209a
      0x6fb8ca3ac6f2f1e1f70c6e83f869f4327789ab3fe3300235f25e0cd021aa5ce5
      [("d".toList, 0xa23fa6624ffd30e2d37b9e060059a131bff8db3a2e2b0a52e4af5aa978574a1d)] ++
    digestDirectory 0x6fc9e56ba588d641b9a76735e693891f51229123d3aecfa06bd8282a42a1c940
      0x7c0ea9e3ac2a79d0c2a54fc2e5eae8f854e92340c90eba761a00003e0af702a0
      [(".grits".toList, 0x38de4075a1e936814fea612e93ff413a81c0f8c14bb4afc584bfbd26a4417a0e),
        ("a".toList, 0x85f8f2bd40d647f74bf80869f5c9d1bb66699d50ecba3f5568d9d88c7249192c)] ++
    digestDirectory 0x92c2eef3535e15b597a59b9c1708340b7760359975f9e58fbc88f5f0286d28a1
      0xb7d0835fc3289822a64509d936632d9dc54aa0b6622c2a94ecc10b15bd415dfd
      [("d".toList, 0x7c0ea9e3ac2a79d0c2a54fc2e5eae8f854e92340c90eba761a00003e0af702a0)]

theorem proper_insertTable : Proper insertTable := by decide +kernel

abbrev insertEnv : Env := env insertTable proper_insertTable

/-- The module that reads the `access.json` of the table. -/
abbrev insertModule : AuthModule := grantModule "insert" .insert

/-- The volume in which `d` grants inserting. -/
abbrev insertVolume : NameStore :=
  volume proper_insertTable (cid 0x6fb8ca3ac6f2f1e1f70c6e83f869f4327789ab3fe3300235f25e0cd021aa5ce5)

theorem reachable_insertVolume : Reachable insertEnv 0 insertVolume :=
  reachable_volume proper_insertTable (by decide +kernel) (by decide +kernel)

end Table

/-- The auth link callback and no others. -/
def authHooks (m : AuthModule) (E : Env) : Hooks := ⟨[], [], [makeLinkCallback m E]⟩

theorem authHooks_readOnly (m : AuthModule) (hdense : E.sparse = false) :
    (authHooks m E).ReadOnly E.toEncoding where
  lookupCallbacks := by
    intro callback h
    cases h
  linkCallbacks := by
    intro callback h
    rw [authHooks, List.mem_singleton] at h
    subst h
    exact makeLinkCallback_readOnly m hdense

/-- Inserting a file into `d` leaves the `access.json` of `d` in place. -/
theorem multiLink_insertOnly_beside :
    ∃ t, multiLink Table.insertEnv (authHooks Table.insertModule Table.insertEnv)
        [⟨"d/a".toList, Table.smallFile, [], 0⟩] false (.of Table.authPrincipal)
        Table.insertVolume = (.ok none, t) ∧
      ∃ addr, resolvedAddr Table.insertEnv "d/.grits".toList t = some addr := by
  have hresult : (multiLink Table.insertEnv (authHooks Table.insertModule Table.insertEnv)
      [⟨"d/a".toList, Table.smallFile, [], 0⟩] false (.of Table.authPrincipal)
      Table.insertVolume).1 = .ok none := by decide +kernel
  have hgrants : (Table.insertModule.policyAt Table.insertEnv.toEncoding
      Table.insertVolume.rootAddr).OnlyGrants Table.authPrincipal
      fun p => p = .insert ∨ p = .readInsert := by
    intro dir g hg
    exact .inl (Table.grantModule_permission (List.mem_filter.mp hg).1)
  have hadded := multiLink_insertOnly rfl Table.reachable_insertVolume
    (authHooks_readOnly _ rfl) List.mem_cons_self hgrants (run_eq hresult)
  obtain ⟨addr, haddr⟩ : ∃ addr, resolvedAddr Table.insertEnv "d/.grits".toList
      Table.insertVolume = some addr := Option.isSome_iff_exists.mp (by decide +kernel)
  obtain ⟨addr', haddr', -⟩ := hadded _ addr haddr
  exact ⟨_, run_eq hresult, addr', haddr'⟩

end Grits
