import Grits.Client.Mkdir

/-!
# When `mkdir` keeps the directories

`mkdir` replaces what it should not in two ways.  With `{f:1}` and without `{p:1}` it
asks for no assertion, so a directory at the target goes with all its entries.  And for
the path `.` the assertions are about an entry of that name, while the root is written.
In every other case all runs keep the directories.
-/

namespace Grits

open Prog SlashPath

variable {E : Env} {H : Hooks} {holders : Multiset BlobAddr} {s t : NameStore}
  {root root' : BlobAddr}

/-! ## The condition -/

/-- The assertions of the round for `.` hold, although there is a root. -/
def DotPasses (E : Encoding) (force : Bool) (before : GoString → Option BlobAddr) : Prop :=
  ∀ addr, before ['.'] = some addr → force = true ∧ ¬ E.IsDir addr

/-- The links of `mkdir` that are accepted replace a directory with entries. -/
def Destroys (E : Encoding) (before : GoString → Option BlobAddr) (path : GoString)
    (opts : MkdirOptions) : Prop :=
  if opts.p then
    -- the first round writes the root
    (components path).head? = some ['.'] ∧ DotPasses E opts.f before ∧ Occupied before []
  else if normalizePath path = ['.'] then
    (opts.f = true ∨ before ['.'] = none) ∧ Occupied before []
  else
    opts.f = true ∧ Plain (normalizePath path) ∧ validRelativePath (normalizePath path) = true ∧
      Occupied before (components path)

/-! ## The paths that are posted -/

/-- The text that the loop has for the parts it has seen. -/
def slashed (parts : List GoString) : GoString := parts.flatMap fun part => '/' :: part

theorem slashed_concat (parts : List GoString) (part : GoString) :
    slashed (parts ++ [part]) = slashed parts ++ '/' :: part := by
  simp [slashed]

theorem slashed_eq {parts : List GoString} (hne : parts ≠ []) :
    slashed parts = '/' :: join parts := by
  induction parts with
  | nil => exact absurd rfl hne
  | cons part rest ih =>
      cases rest with
      | nil => simp [slashed, join]
      | cons next rest =>
          have hrest := ih (by simp)
          rw [slashed, List.flatMap_cons, ← slashed, hrest, join_cons_cons]
          rfl

theorem dropWhile_slash {path : GoString} (h : isRooted path = false) :
    path.dropWhile (· == '/') = path := by
  cases path with
  | nil => rfl
  | cons c rest =>
      rw [List.dropWhile_cons_of_neg]
      intro hc
      rw [beq_iff_eq] at hc
      subst hc
      cases h

theorem normalizePath_slashed {parts : List GoString} (hnames : Names parts) :
    normalizePath (slashed parts) = join parts := by
  by_cases hne : parts = []
  · subst hne
    rfl
  · rw [slashed_eq hne, normalizePath, List.dropWhile_cons_of_pos (by rfl),
      dropWhile_slash (isRooted_join hnames), (plain_join hnames).trimRight_eq]

theorem trimRight_normalizePath (path : GoString) :
    trimRight (normalizePath path) = normalizePath path := trimRight_trimRight _

theorem components_normalizePath (path : GoString) :
    components (normalizePath path) = components path := by
  rw [normalizePath, components_trimRight]
  induction path with
  | nil => rfl
  | cons c rest ih =>
      by_cases hc : c = '/'
      · subst hc
        rw [List.dropWhile_cons_of_pos (by rfl), ih, components, components, split_cons,
          if_pos rfl, List.filter_cons_of_neg (by simp)]
      · rw [List.dropWhile_cons_of_neg (by simpa using hc)]

theorem join_eq_dot_iff {parts : List GoString} (hnames : Names parts) :
    join parts = ['.'] ↔ parts = [['.']] := by
  constructor
  · intro hjoin
    have hcomponents := components_join hnames
    rw [hjoin] at hcomponents
    exact hcomponents.symm
  · rintro rfl
    rfl

/-- A place written that has only names comes from a plain path. -/
theorem plain_of_names_segments {request : LinkRequest}
    (hdot : trimRight request.path ≠ ['.']) (hnames : Names request.segments) :
    Plain (trimRight request.path) := by
  have hname : linkName request.path = trimRight request.path := if_neg hdot
  by_cases hnil : trimRight request.path = []
  · exact .inl hnil
  · rw [LinkRequest.segments, hname, if_neg hnil] at hnames
    exact .inr fun hmem => (hnames [] hmem).1 rfl

/-! ## One attempt -/

theorem mkdirEmpty_dirAt (E : Encoding) (timestamp : GoString) (cache : BlobCache) :
    E.DirAt (mkdirEmpty E timestamp cache).1 ∅ := by
  refine ⟨_, ⟨_, rfl, E.unmarshalMetadata_marshalMetadata _ (.inr rfl)⟩, rfl, ?_⟩
  apply Encoding.contentAt_marshalDir
  intro name addr hlookup
  rw [Finmap.lookup_empty] at hlookup
  cases hlookup

theorem mkdirEmpty_ne_nil (E : Encoding) (timestamp : GoString) (cache : BlobCache) :
    (mkdirEmpty E timestamp cache).1 ≠ [] := by
  obtain ⟨metadata, hmetadata, -⟩ := mkdirEmpty_dirAt E timestamp cache
  intro hnil
  have hcid := hmetadata.isCid
  rw [hnil] at hcid
  exact not_isCid_nil hcid

theorem Standing.wellFormedTree {E : Encoding} (h : Standing E root s) :
    E.WellFormedTree (some root) := by
  obtain ⟨holders, hinv, rfl⟩ := h
  exact hinv.heldTree.wellFormedTree

/-- The root after an attempt is the one before it, or one that has been written; a
failed assertion means that nothing was written. -/
theorem tryMultiLink_root (hdense : E.sparse = false) {W : Shell}
    (hH : W.hooks.ReadOnly E.toEncoding) (h : Standing E.toEncoding root s) (cache : BlobCache)
    (request : LinkRequest) (hvalue : request.newAddr ≠ []) {P : BlobAddr → Prop} (hP : P root)
    (hwrites : ∀ new, Writes E.toEncoding { request with path := normalizePath request.path }
      root new → P new) :
    ∃ tried t new, tryMultiLink E W cache request s = (tried, t) ∧
      Standing E.toEncoding new t ∧ P new ∧ (tried = .assertion → new = root) := by
  obtain ⟨ending, asked, t, new, hrun, ht, hcases⟩ := serverMultiLink_tree hdense hH h cache
    request hvalue W.principal W.posts
  refine ⟨_, t, new, by rw [tryMultiLink, hrun], ht, ?_, ?_⟩
  · rcases hcases with ⟨rfl, -⟩ | ⟨hnew, -⟩
    · exact hP
    · exact hwrites new hnew
  · intro htried
    rcases hcases with ⟨rfl, -⟩ | ⟨-, hassertion⟩
    · rfl
    · simp only at htried
      split at htried
      · cases htried
      · exact absurd rfl hassertion
      · cases htried

/-! ## The loop -/

/-- The root after a round is the one before it, or one that has been written. -/
theorem mkdirPart_root (hdense : E.sparse = false) {W : Shell}
    (hH : W.hooks.ReadOnly E.toEncoding) (h : Standing E.toEncoding root s) (cur : GoString)
    (dir : BlobAddr × BlobCache) (hdir : dir.1 ≠ []) (force : Bool) {P : BlobAddr → Prop}
    (hP : P root)
    (hnew : ∀ new, Writes E.toEncoding ⟨normalizePath cur, dir.1, [], assertPrevValueMatches⟩
      root new → P new)
    (hfile : force = true → ∀ new, Writes E.toEncoding ⟨normalizePath cur, dir.1, [], assertIsBlob⟩
      root new → P new) :
    ∃ new, Standing E.toEncoding new (mkdirPart E W force cur dir s).2 ∧ P new := by
  obtain ⟨tried, t, new, hrun, ht, hPnew, hassertion⟩ := tryMultiLink_root hdense hH h dir.2
    ⟨cur, dir.1, [], assertPrevValueMatches⟩ hdir hP hnew
  rw [mkdirPart, hrun]
  cases tried with
  | linked => exact ⟨new, ht, hPnew⟩
  | thrown e => exact ⟨new, ht, hPnew⟩
  | assertion =>
      rw [hassertion rfl] at ht
      simp only
      split
      next hforce =>
        -- the second attempt finds the tree as the first one did
        obtain ⟨tried', u, new', hrun', hu, hPnew', -⟩ := tryMultiLink_root hdense hH ht dir.2
          ⟨cur, dir.1, [], assertIsBlob⟩ hdir hP (hfile hforce)
        rw [hrun']
        cases tried' <;> exact ⟨new', hu, hPnew'⟩
      next => exact ⟨root, ht, hP⟩

/-- A round for a path other than `.` keeps the directories. -/
theorem mkdirPart_keeps_of_ne (hdense : E.sparse = false) {W : Shell}
    (hH : W.hooks.ReadOnly E.toEncoding) (h : Standing E.toEncoding root s) {cur : GoString}
    (timestamp : GoString) (cache : BlobCache) {way : List GoString} {force : Bool}
    (hdot : normalizePath cur ≠ ['.']) (hway : components cur <+: way) :
    ∃ new, Standing E.toEncoding new
        (mkdirPart E W force cur (mkdirEmpty E.toEncoding timestamp cache) s).2 ∧
      KeepsDirectories E.toEncoding way force (E.find root) (E.find new) := by
  have hdir := (mkdirEmpty_dirAt E.toEncoding timestamp cache).isDir
  have hvalue := mkdirEmpty_ne_nil E.toEncoding timestamp cache
  rw [← trimRight_normalizePath] at hdot
  rw [← components_normalizePath] at hway
  refine mkdirPart_root hdense hH h cur _ hvalue force .refl ?_ ?_
  · intro new hwrites
    exact hwrites.keeps_new h.wellFormedTree hdir hvalue hdot hway rfl rfl
  · rintro rfl new hwrites
    exact hwrites.keeps_file h.wellFormedTree hdir hvalue hdot hway rfl

/-- The round for `.` keeps the directories if its assertions fail or the root is empty. -/
theorem mkdirPart_keeps_of_dot (hdense : E.sparse = false) {W : Shell}
    (hH : W.hooks.ReadOnly E.toEncoding) (h : Standing E.toEncoding root s) {cur : GoString}
    (timestamp : GoString) (cache : BlobCache) {way : List GoString} {force : Bool}
    (hdot : normalizePath cur = ['.'])
    (hsafe : ¬ (DotPasses E.toEncoding force (E.find root) ∧ Occupied (E.find root) [])) :
    ∃ new, Standing E.toEncoding new
        (mkdirPart E W force cur (mkdirEmpty E.toEncoding timestamp cache) s).2 ∧
      KeepsDirectories E.toEncoding way force (E.find root) (E.find new) := by
  have hdir := (mkdirEmpty_dirAt E.toEncoding timestamp cache).isDir
  have hvalue := mkdirEmpty_ne_nil E.toEncoding timestamp cache
  have hfind : E.find root ['.'] = E.walk (some root) [['.']] := rfl
  have htrim : trimRight (normalizePath cur) = ['.'] := by rw [trimRight_normalizePath, hdot]
  rw [not_and_or] at hsafe
  refine mkdirPart_root hdense hH h cur _ hvalue force .refl ?_ ?_
  · intro new hwrites
    refine hwrites.keeps_dot h.wellFormedTree hdir hvalue htrim (hsafe.resolve_left ?_)
    have hnone := hwrites.asserted.prevValueMatches
      (show assertPrevValueMatches &&& assertPrevValueMatches ≠ 0 by decide)
    rw [if_pos rfl, hdot] at hnone
    intro hpasses
    refine hpasses fun addr haddr => ?_
    rw [hfind] at haddr
    cases hnone.symm.trans haddr
  · rintro rfl new hwrites
    refine hwrites.keeps_dot h.wellFormedTree hdir hvalue htrim (hsafe.resolve_left ?_)
    obtain ⟨addr, metadata, hwalk, hmetadata, htype⟩ :=
      hwrites.asserted.isBlob (show assertIsBlob &&& assertIsBlob ≠ 0 by decide)
    rw [hdot] at hwalk
    intro hpasses
    refine hpasses fun addr' haddr => ⟨rfl, ?_⟩
    rw [hfind] at haddr
    cases hwalk.symm.trans haddr
    rintro ⟨metadata', hmetadata', htype'⟩
    rw [hmetadata.unique hmetadata', htype'] at htype
    cases htype

/-- The loop keeps the directories. -/
theorem mkdirParts_keeps (hdense : E.sparse = false) {W : Shell}
    (hH : W.hooks.ReadOnly E.toEncoding) (h : Standing E.toEncoding root s)
    (done : List GoString) {parts : List GoString} (hnames : Names (done ++ parts)) {force : Bool}
    (hsafe : done = [] → parts.head? = some ['.'] →
      ¬ (DotPasses E.toEncoding force (E.find root) ∧ Occupied (E.find root) []))
    (n : ℕ) (cache : BlobCache) :
    ∃ new, Standing E.toEncoding new (mkdirParts E W force n (slashed done) cache parts s).2 ∧
      KeepsDirectories E.toEncoding (done ++ parts) force (E.find root) (E.find new) := by
  induction parts generalizing s root done n cache with
  | nil => exact ⟨root, h, .refl⟩
  | cons part parts ih =>
      have hsplit : done ++ part :: parts = (done ++ [part]) ++ parts := by simp
      rw [hsplit] at hnames ⊢
      have hdone : Names (done ++ [part]) := fun name hname =>
        hnames name (List.mem_append_left _ hname)
      have hpath := normalizePath_slashed hdone
      have hround : ∃ new, Standing E.toEncoding new (mkdirPart E W force
          (slashed (done ++ [part])) (mkdirEmpty E.toEncoding (W.isoNow n) cache) s).2 ∧
          KeepsDirectories E.toEncoding ((done ++ [part]) ++ parts) force (E.find root)
            (E.find new) := by
        by_cases hdot : done ++ [part] = [['.']]
        · refine mkdirPart_keeps_of_dot hdense hH h _ _ ?_ (hsafe ?_ ?_)
          · rw [hpath, hdot]
            rfl
          · cases done with
            | nil => rfl
            | cons name done => simp at hdot
          · cases done with
            | nil => simpa using hdot
            | cons name done => simp at hdot
        · refine mkdirPart_keeps_of_ne hdense hH h _ _ ?_ ?_
          · rw [hpath]
            exact fun hjoin => hdot ((join_eq_dot_iff hdone).mp hjoin)
          · rw [← components_normalizePath, hpath, components_join hdone]
            exact List.prefix_append _ _
      obtain ⟨new, hnew, hkeeps⟩ := hround
      rw [mkdirParts, ← slashed_concat]
      rcases hrun : mkdirPart E W force (slashed (done ++ [part]))
        (mkdirEmpty E.toEncoding (W.isoNow n) cache) s with ⟨e | ⟨⟩, t⟩
      · rw [hrun] at hnew
        exact ⟨new, hnew, hkeeps⟩
      · rw [hrun] at hnew
        obtain ⟨new', hnew', hkeeps'⟩ := ih hnew (done ++ [part]) hnames (by simp) (n + 1)
          (mkdirEmpty E.toEncoding (W.isoNow n) cache).2
        exact ⟨new', hnew', hkeeps.trans hkeeps'⟩

/-! ## Every run -/

/-- Where no directory is at risk, every run keeps the directories. -/
theorem mkdir_keeps (hdense : E.sparse = false) {W : Shell}
    (hH : W.hooks.ReadOnly E.toEncoding) (h : Standing E.toEncoding root s) {path : GoString}
    {opts : MkdirOptions} (hsafe : ¬ Destroys E.toEncoding (E.find root) path opts) :
    ∃ new, Standing E.toEncoding new (mkdir E W path opts s).2 ∧
      KeepsDirectories E.toEncoding (components path) opts.f (E.find root) (E.find new) := by
  rw [Destroys] at hsafe
  rw [mkdir]
  split
  next hp =>
    rw [if_pos hp] at hsafe
    refine mkdirParts_keeps hdense hH h [] (names_components path) ?_ 0 W.cache
    intro _ hhead hrisk
    exact hsafe ⟨hhead, hrisk⟩
  next hp =>
    rw [if_neg hp] at hsafe
    have hdir := (mkdirEmpty_dirAt E.toEncoding (W.isoNow 0) W.cache).isDir
    have hvalue := mkdirEmpty_ne_nil E.toEncoding (W.isoNow 0) W.cache
    have htrim := trimRight_normalizePath path
    have hcomponents := components_normalizePath path
    have hwrites : ∀ new, Writes E.toEncoding ⟨normalizePath path,
        (mkdirEmpty E.toEncoding (W.isoNow 0) W.cache).1, [],
        if opts.f then 0 else assertPrevValueMatches⟩ root new →
        KeepsDirectories E.toEncoding (components path) opts.f (E.find root) (E.find new) := by
      intro new hwrites
      by_cases hdot : normalizePath path = ['.']
      · rw [if_pos hdot, not_and_or] at hsafe
        refine hwrites.keeps_dot h.wellFormedTree hdir hvalue (htrim.trans hdot)
          (hsafe.resolve_left (not_not.mpr ?_))
        by_cases hforce : opts.f = true
        · exact .inl hforce
        · have hassert := hwrites.asserted.prevValueMatches
          simp only [hforce, hdot] at hassert
          have hflag : assertPrevValueMatches &&& assertPrevValueMatches ≠ 0 := by decide
          exact .inr (hassert hflag)
      · rw [if_neg hdot] at hsafe
        have hdot' : trimRight (normalizePath path) ≠ ['.'] := by rwa [htrim]
        have hway : components (normalizePath path) <+: components path := by
          rw [hcomponents]
        by_cases hforce : opts.f = true
        · refine hwrites.keeps h.wellFormedTree hdir hvalue hdot' hway ?_ (fun _ _ _ => hforce)
          intro hall parts hnames hbefore hne
          have hplain := plain_of_names_segments hdot' hall
          rw [htrim] at hplain
          rw [hcomponents] at hbefore hne
          refine walk_of_not_occupied ?_ hnames hbefore hne
          exact fun hoccupied => hsafe ⟨hforce, hplain, hwrites.valid, hoccupied⟩
        · rw [if_neg hforce] at hwrites
          exact hwrites.keeps_new h.wellFormedTree hdir hvalue hdot' hway rfl rfl
    obtain ⟨tried, t, new, hrun, ht, hkeeps, -⟩ := tryMultiLink_root hdense hH h
      (mkdirEmpty E.toEncoding (W.isoNow 0) W.cache).2
      ⟨path, (mkdirEmpty E.toEncoding (W.isoNow 0) W.cache).1, [],
        if opts.f then 0 else assertPrevValueMatches⟩ hvalue .refl hwrites
    simp only [hrun]
    cases tried <;> exact ⟨new, ht, hkeeps⟩

/-! ## Runs that destroy -/

theorem KeepsDirectories.resolves {E : Encoding} {way : List GoString} {force : Bool}
    {before after : GoString → Option BlobAddr} (h : KeepsDirectories E way force before after)
    {path : GoString} {addr : BlobAddr} (hpath : before path = some addr) :
    after path ≠ none := by
  intro hnone
  by_cases hway : components path <+: way
  · by_cases hdir : E.IsDir addr
    · obtain ⟨addr', hafter, -⟩ := h.directories path addr hpath hway hdir
      cases hnone.symm.trans hafter
    · rcases h.files path addr hpath hway hdir with hafter | ⟨-, addr', hafter, -⟩
      · cases hnone.symm.trans hafter
      · cases hnone.symm.trans hafter
  · cases hnone.symm.trans (h.elsewhere path addr hpath hway)

/-- A shell with an empty cache, on a server that objects to nothing. -/
def bareShell : Shell where
  hooks := Hooks.none
  principal := .backend
  cache := ∅
  isoNow := fun _ => []
  lookup := fun _ _ => none
  posts := 3

section Bare

variable (E) in
/-- The directory that a bare shell makes first. -/
abbrev bareDir : BlobAddr × BlobCache := mkdirEmpty E.toEncoding [] ∅

theorem BlobCache.Proper.insert {E : Encoding} {cache : BlobCache} (h : cache.Proper E)
    (data : Bytes) : BlobCache.Proper E (Finmap.insert (E.sum data) data cache) := by
  constructor
  intro addr bytes hlookup
  by_cases haddr : addr = E.sum data
  · subst haddr
    rw [Finmap.lookup_insert] at hlookup
    cases hlookup
    rfl
  · rw [Finmap.lookup_insert_of_ne _ haddr] at hlookup
    exact h.hashed addr bytes hlookup

theorem bareDir_proper : (bareDir E).2.Proper E.toEncoding := by
  have hempty : BlobCache.Proper E.toEncoding ∅ := by
    constructor
    intro addr bytes hlookup
    rw [Finmap.lookup_empty] at hlookup
    cases hlookup
  exact (hempty.insert (E.marshalDir ∅)).insert _

/-- Both blobs of an empty directory are in the cache. -/
theorem bareDir_hasTree : (bareDir E).2.HasTree E.toEncoding (bareDir E).1 := by
  have hdir := mkdirEmpty_dirAt E.toEncoding [] ∅
  intro path addr hwalk
  cases path with
  | nil =>
      cases hwalk
      refine ⟨⟨_, ⟨_, rfl, E.unmarshalMetadata_marshalMetadata _ (.inr rfl)⟩, .inr rfl, ?_, ?_⟩,
        fun _ => ⟨_, hdir⟩⟩
      · exact Finmap.mem_insert.mpr (.inl rfl)
      · exact Finmap.mem_insert.mpr (.inr (Finmap.mem_insert.mpr (.inl rfl)))
  | cons name rest =>
      rw [Encoding.walk, PathTree.walk_cons, hdir.child, Finmap.lookup_empty,
        PathTree.walk_none] at hwalk
      cases hwalk

theorem card_bareDir : (bareDir E).2.keys.card < bareShell.posts := by
  have hinsert : ∀ (cache : BlobCache) (addr : BlobAddr) (bytes : Bytes),
      (Finmap.insert addr bytes cache).keys.card ≤ cache.keys.card + 1 := by
    intro cache addr bytes
    rw [FinmapSum.keys_insert]
    exact Finset.card_insert_le _ _
  calc (bareDir E).2.keys.card
      ≤ (Finmap.insert (E.sum (E.marshalDir ∅)) (E.marshalDir ∅) (∅ : BlobCache)).keys.card + 1 :=
        hinsert _ _ _
    _ ≤ ((∅ : BlobCache).keys.card + 1) + 1 := Nat.add_le_add_right (hinsert _ _ _) 1
    _ < bareShell.posts := by
        rw [Finmap.keys_empty, Finset.card_empty]
        decide

/-- A link of an empty directory goes through where its assertions hold and the directory
above it is there. -/
theorem tryMultiLink_linked (hdense : E.sparse = false) (h : Inv E.toEncoding holders s)
    (path : GoString) {assert : UInt32}
    (hvalid : validRelativePath (normalizePath path) = true)
    (htarget : Targets E.toEncoding ⟨normalizePath path, (bareDir E).1, [], assert⟩ s.rootAddr)
    (hcheck : checkAssertions E ⟨normalizePath path, (bareDir E).1, [], assert⟩ s = (.ok (), s)) :
    ∃ t new, tryMultiLink E bareShell (bareDir E).2 ⟨path, (bareDir E).1, [], assert⟩ s =
        (.linked, t) ∧ Standing E.toEncoding new t ∧
      Writes E.toEncoding ⟨normalizePath path, (bareDir E).1, [], assert⟩ s.rootAddr new := by
  let request : LinkRequest := ⟨path, (bareDir E).1, [], assert⟩
  have hposted : ∀ posted ∈ postedRequests [request],
      posted = ⟨normalizePath path, (bareDir E).1, [], assert⟩ := fun posted hposted =>
    List.mem_singleton.mp hposted
  obtain ⟨response, asked, t, hrun⟩ := serverMultiLink_succeeds hdense (Hooks.none_readOnly _) h
    (bareDir_proper (E := E)) [request] .backend (List.cons_ne_nil _ _)
    (fun other hother => .inr (List.mem_singleton.mp hother ▸ bareDir_hasTree))
    (fun posted hmem => hposted posted hmem ▸ hvalid)
    ⟨isRooted_of_valid hvalid, htarget, fun _ _ => trivial⟩ (Table.grant_none _ _ _ _ _)
    (fun posted hmem => hposted posted hmem ▸ hcheck) card_bareDir
  obtain ⟨ending, asked', t', new, hrun', ht, hcases⟩ := serverMultiLink_tree hdense
    (Hooks.none_readOnly _) ⟨holders, h, rfl⟩ (bareDir E).2 request
    (mkdirEmpty_ne_nil E.toEncoding [] ∅) .backend bareShell.posts
  rw [hrun] at hrun'
  cases hrun'
  refine ⟨t, new, ?_, ht, ?_⟩
  · unfold tryMultiLink
    rw [show serverMultiLink E bareShell.hooks (bareDir E).2 [⟨path, (bareDir E).1, [], assert⟩]
      bareShell.principal bareShell.posts s = _ from hrun]
  · rcases hcases with ⟨-, hdone⟩ | ⟨hwrites, -⟩
    · exact absurd rfl (hdone response)
    · exact hwrites

/-! ### The assertions for the path `.` -/

/-- Only the previous value is asserted. -/
theorem assertionsHold_new (addr : BlobAddr) (node : Option (BlobAddr × GNodeMetadata)) :
    assertionsHold ⟨['.'], addr, [], assertPrevValueMatches⟩ node =
      matchesAddr (node.map (·.1)) [] := by
  have hprev : (assertPrevValueMatches &&& assertPrevValueMatches == 0) = false := by decide
  have hblob : (assertPrevValueMatches &&& assertIsBlob == 0) = true := by decide
  have htree : (assertPrevValueMatches &&& assertIsTree == 0) = true := by decide
  have hnonempty : (assertPrevValueMatches &&& assertIsNonEmpty == 0) = true := by decide
  simp only [assertionsHold, hprev, hblob, htree, hnonempty, Bool.false_or, Bool.true_or,
    Bool.and_true]

/-- Only the type is asserted. -/
theorem assertionsHold_blob (addr : BlobAddr) (node : Option (BlobAddr × GNodeMetadata)) :
    assertionsHold ⟨['.'], addr, [], assertIsBlob⟩ node =
      node.any fun node => node.2.type == .file := by
  have hprev : (assertIsBlob &&& assertPrevValueMatches == 0) = true := by decide
  have hblob : (assertIsBlob &&& assertIsBlob == 0) = false := by decide
  have htree : (assertIsBlob &&& assertIsTree == 0) = true := by decide
  have hnonempty : (assertIsBlob &&& assertIsNonEmpty == 0) = true := by decide
  simp only [assertionsHold, hprev, hblob, htree, hnonempty, Bool.false_or, Bool.true_or,
    Bool.true_and, Bool.and_true]

/-- The node at a path that is found. -/
theorem assertedNode_found (hdense : E.sparse = false) (h : Inv E.toEncoding holders s)
    (path : GoString) {addr : BlobAddr} (hrel : isRooted (trimRight path) = false)
    (hwalk : E.walk (some s.rootAddr) (components path) = some addr) :
    assertedNode E path s = (.ok (some addr), s) ∧ Cached s addr := by
  have hrun : resolveFromLocal E path none s = _ :=
    resolveFromLocal_held h.sound hdense h.heldTree rfl hrel
  have hcurrent := Encoding.resolve_current (E := E.toEncoding) s.rootAddr path
  rw [components_trimRight, hwalk] at hcurrent
  obtain ⟨above, leaf, hpaths, -, hleaf⟩ :=
    Encoding.leads_resolve (E := E.toEncoding) s.rootAddr path
  have hcached := (h.heldTree _ addr hwalk).cached
  obtain ⟨node, hnode⟩ := id hcached
  simp only [hcurrent] at hleaf
  rw [(h.sound.nodes addr node hnode).metadata.entryAt] at hleaf
  subst hleaf
  refine ⟨?_, hcached⟩
  rw [assertedNode, bind_run hrun]
  simp only [LookupResponse.leaf, hpaths, List.getLast?_concat, PathNodePair.found]
  rw [bind_run (loadFileNode_cached hcached)]
  rfl

/-- No node at the path `.`, in a root that is a directory. -/
theorem assertedNode_dot (hdense : E.sparse = false) (h : Inv E.toEncoding holders s)
    (hwalk : E.walk (some s.rootAddr) [['.']] = none) (hdir : E.IsDir s.rootAddr) :
    assertedNode E ['.'] s = (.ok none, s) := by
  have hrun : resolveFromLocal E ['.'] none s = _ :=
    resolveFromLocal_held h.sound hdense h.heldTree rfl rfl
  obtain ⟨node, hnode⟩ := (h.heldTree [] _ rfl).cached
  obtain ⟨children, hchildren⟩ : ∃ children, E.DirAt s.rootAddr children := by
    rcases h.heldTree [] _ rfl with ⟨children, -, hchildren⟩ | ⟨-, hfile⟩
    · exact ⟨children, hchildren⟩
    · exact absurd hdir hfile
  rw [Encoding.walk, PathTree.walk_cons, hchildren.child, PathTree.walk_nil] at hwalk
  have hresolve : E.resolve s.rootAddr ['.'] =
      ⟨[.found [] s.rootAddr node.metadata, .failed ['.'] .notFound], none, ['.']⟩ := by
    change E.resolvePart (E.walkStart s.rootAddr) ['.'] = _
    rw [Encoding.resolvePart, if_neg (by decide), Encoding.walkStart,
      (h.sound.nodes _ node hnode).metadata.entryAt]
    simp only [Encoding.childrenAt_eq_some_iff.mpr hchildren, hwalk]
    rfl
  rw [assertedNode, bind_run hrun, hresolve]
  rfl

/-- The first write to `.` of a bare shell goes through if nothing is there. -/
theorem checkAssertions_dot_new (hdense : E.sparse = false) (h : Inv E.toEncoding holders s)
    (hwalk : E.walk (some s.rootAddr) [['.']] = none) (hdir : E.IsDir s.rootAddr) :
    checkAssertions E ⟨['.'], (bareDir E).1, [], assertPrevValueMatches⟩ s = (.ok (), s) := by
  have hvalue := mkdirEmpty_ne_nil E.toEncoding [] ∅
  rw [checkAssertions, if_neg (fun hunlinks => hvalue hunlinks.2),
    if_neg (show assertPrevValueMatches ≠ 0 by decide),
    bind_run (assertedNode_dot hdense h hwalk hdir)]
  change (if _ then _ else _ : Op Unit) s = _
  rw [assertionsHold_new]
  rfl

theorem checkAssertions_dot_found (hdense : E.sparse = false) (h : Inv E.toEncoding holders s)
    {addr : BlobAddr} (hwalk : E.walk (some s.rootAddr) [['.']] = some addr) :
    checkAssertions E ⟨['.'], (bareDir E).1, [], assertPrevValueMatches⟩ s =
      (.error (.err .assertionFailed), s) := by
  have hvalue := mkdirEmpty_ne_nil E.toEncoding [] ∅
  obtain ⟨hasserted, node, hnode⟩ := assertedNode_found hdense h ['.'] rfl hwalk
  have hdescribed : describeNode (some addr) s = (.ok (some (addr, node.metadata)), s) := by
    rw [describeNode, bind_run (getNode_run hnode)]
    rfl
  rw [checkAssertions, if_neg (fun hunlinks => hvalue hunlinks.2),
    if_neg (show assertPrevValueMatches ≠ 0 by decide), bind_run hasserted, bind_run hdescribed,
    assertionsHold_new]
  rfl

theorem checkAssertions_dot_file (hdense : E.sparse = false) (h : Inv E.toEncoding holders s)
    {addr : BlobAddr} (hwalk : E.walk (some s.rootAddr) [['.']] = some addr)
    (hfile : ¬ E.IsDir addr) :
    checkAssertions E ⟨['.'], (bareDir E).1, [], assertIsBlob⟩ s = (.ok (), s) := by
  have hvalue := mkdirEmpty_ne_nil E.toEncoding [] ∅
  obtain ⟨hasserted, node, hnode⟩ := assertedNode_found hdense h ['.'] rfl hwalk
  have htype : node.metadata.type = .file :=
    (h.sound.nodes addr node hnode).type.resolve_right fun hdir =>
      hfile ((h.sound.isDir_iff hnode).mpr hdir)
  have hdescribed : describeNode (some addr) s = (.ok (some (addr, node.metadata)), s) := by
    rw [describeNode, bind_run (getNode_run hnode)]
    rfl
  rw [checkAssertions, if_neg (fun hunlinks => hvalue hunlinks.2),
    if_neg (show assertIsBlob ≠ 0 by decide), bind_run hasserted, bind_run hdescribed,
    assertionsHold_blob, if_pos ?_]
  · rfl
  · rw [Option.any_some, htype]
    rfl

/-! ### The rounds -/

/-- An attempt whose assertion fails at the first post. -/
theorem tryMultiLink_assertion (path : GoString) {assert : UInt32}
    (hvalid : validRelativePath (normalizePath path) = true)
    (hcheck : checkAssertions E ⟨normalizePath path, (bareDir E).1, [], assert⟩ s =
      (.error (.err .assertionFailed), s)) :
    tryMultiLink E bareShell (bareDir E).2 ⟨path, (bareDir E).1, [], assert⟩ s =
      (.assertion, s) := by
  let posted : LinkRequest := ⟨normalizePath path, (bareDir E).1, [], assert⟩
  have hloop : loop (fun _ request => checkAssertions E request) () [posted] s =
      (.error (.err .assertionFailed), s) := by
    rw [loop_cons]
    exact bind_run_error hcheck
  have hprepare : prepare E Hooks.none [posted] true .backend s =
      (.error (.err .assertionFailed), s) := by
    unfold prepare candidateRoot
    rw [bind_run (get_run s)]
    exact bind_run_error (bind_run_error hloop)
  have hrun : multiLink E Hooks.none [posted] true .backend s =
      (.error (.err .assertionFailed), s) := by
    rw [multiLink, bind_run_error hprepare]
  have haccepted : ([posted].isEmpty || !([posted].all fun request =>
      validRelativePath request.path)) = false := by
    simp [posted, hvalid]
  have hpost : postLink E Hooks.none [posted] .backend s = (.refused .assertion, s) := by
    rw [postLink, handleLink_failed haccepted hrun]
    rfl
  have hlink : serverMultiLink E bareShell.hooks (bareDir E).2 [⟨path, (bareDir E).1, [], assert⟩]
      bareShell.principal bareShell.posts s = ⟨some (.refused .assertion), [], s⟩ := by
    change Resupply.run (postLink E Hooks.none [posted] .backend) _ 3 [] s = _
    rw [Resupply.run, hpost]
  rw [tryMultiLink, hlink]

/-- A write to the path `.` makes the new directory the root. -/
theorem Writes.root_of_dot {E : Encoding} {request : LinkRequest} (h : Writes E request root root')
    (hvalue : request.newAddr ≠ []) (hdot : trimRight request.path = ['.']) :
    root' = request.newAddr := by
  have hsegments : request.segments = [] := by
    rw [LinkRequest.segments, linkName, if_pos hdot]
    rfl
  have hupdated := h.linked.updated
  rw [hsegments, PathTree.Updated, LinkRequest.value_of_ne hvalue] at hupdated
  exact Option.some.inj hupdated

/-- Nothing resolves below an empty directory. -/
theorem find_bareDir {path : GoString} (hne : components path ≠ []) :
    E.find (bareDir E).1 path = none := by
  rw [Encoding.find]
  split
  · rfl
  · obtain ⟨name, rest, hcomponents⟩ := List.exists_cons_of_ne_nil hne
    rw [hcomponents, Encoding.walk, PathTree.walk_cons,
      (mkdirEmpty_dirAt E.toEncoding [] ∅).child, Finmap.lookup_empty, PathTree.walk_none]

/-- In an empty root nothing can be written two levels down. -/
theorem Writes.absurd_below_bareDir {request : LinkRequest} {first second : GoString}
    {rest : List GoString} (h : Writes E.toEncoding request (bareDir E).1 root')
    (hsegments : request.segments = first :: second :: rest) : False := by
  have hdir := mkdirEmpty_dirAt E.toEncoding [] ∅
  have hupdated := h.linked.updated
  rw [hsegments] at hupdated
  obtain ⟨_, a', children, below, ⟨⟩, -, hreads, -, -, hrest⟩ := hupdated
  have hchildren := Encoding.reads_unique _ _ _ hdir.entries hreads
  obtain ⟨b, _, _, _, hold, -⟩ := hrest
  have hnone : children first = none := by
    rw [hchildren]
    exact Finmap.lookup_empty first
  cases hnone.symm.trans hold

/-- The later rounds find an empty root and leave it alone. -/
theorem mkdirParts_bareDir (hdense : E.sparse = false)
    (h : Standing E.toEncoding (bareDir E).1 s) (done : List GoString) {parts : List GoString}
    (hnames : Names (done ++ parts)) (hdone : done ≠ []) (force : Bool) (n : ℕ)
    (cache : BlobCache) :
    Standing E.toEncoding (bareDir E).1
      (mkdirParts E bareShell force n (slashed done) cache parts s).2 := by
  induction parts generalizing s done n cache with
  | nil => exact h
  | cons part parts ih =>
      have hsplit : done ++ part :: parts = (done ++ [part]) ++ parts := by simp
      rw [hsplit] at hnames
      have hall : Names (done ++ [part]) := fun name hname =>
        hnames name (List.mem_append_left _ hname)
      have hpath := normalizePath_slashed hall
      obtain ⟨first, rest, rfl⟩ := List.exists_cons_of_ne_nil hdone
      have hsegments : ∀ addr assert, LinkRequest.segments
          ⟨normalizePath (slashed (first :: rest ++ [part])), addr, [], assert⟩ =
          first :: rest ++ [part] := by
        intro addr assert
        have hplain := plain_join hall
        have hagrees : Agrees (normalizePath (slashed (first :: rest ++ [part]))) := by
          rw [hpath, Agrees, hplain.trimRight_eq]
          refine ⟨fun hjoin => ?_, hplain⟩
          have hsingle := (join_eq_dot_iff hall).mp hjoin
          simp at hsingle
        rw [LinkRequest.segments_of_agrees hagrees]
        change components (normalizePath _) = _
        rw [hpath, components_join hall]
      obtain ⟨second, tail, htail⟩ := List.exists_cons_of_ne_nil
        (show rest ++ [part] ≠ [] by simp)
      have hnothing : ∀ addr assert new, ¬ Writes E.toEncoding
          ⟨normalizePath (slashed (first :: rest ++ [part])), addr, [], assert⟩
          (bareDir E).1 new := by
        intro addr assert new hwrites
        have htwo : first :: rest ++ [part] = first :: second :: tail := by
          rw [List.cons_append, htail]
        exact hwrites.absurd_below_bareDir ((hsegments addr assert).trans htwo)
      obtain ⟨new, hnew, hsame⟩ := mkdirPart_root hdense (Hooks.none_readOnly _) h (W := bareShell)
        (slashed (first :: rest ++ [part])) (mkdirEmpty E.toEncoding (bareShell.isoNow n) cache)
        (mkdirEmpty_ne_nil _ _ _) force (P := fun new => new = (bareDir E).1) rfl
        (fun new hwrites => absurd hwrites (hnothing _ _ _))
        (fun _ new hwrites => absurd hwrites (hnothing _ _ _))
      subst hsame
      rw [mkdirParts, ← slashed_concat]
      rcases hrun : mkdirPart E bareShell force (slashed (first :: rest ++ [part]))
        (mkdirEmpty E.toEncoding (bareShell.isoNow n) cache) s with ⟨e | ⟨⟩, t⟩
      · rw [hrun] at hnew
        exact hnew
      · rw [hrun] at hnew
        exact ih hnew (first :: rest ++ [part]) hnames (by simp) (n + 1) _

/-- Below an occupied place there is a directory. -/
theorem Occupied.isDir {E : Encoding} {way : List GoString} (h : Occupied (E.find root) way) :
    ∃ addr, E.walk (some root) way = some addr ∧ E.IsDir addr := by
  obtain ⟨path, addr, hpath, ⟨rest, hrest⟩, hne⟩ := h
  have hwalk := Encoding.find_eq_some hpath
  rw [← hrest] at hwalk hne
  refine Encoding.exists_dir_of_walk ?_ hwalk
  rintro rfl
  exact hne (List.append_nil way)

/-- A run that loses what a path resolved to. -/
def Loses (E : Env) (root : BlobAddr) (t : NameStore) : Prop :=
  ∃ new path addr, Standing E.toEncoding new t ∧ E.find root path = some addr ∧
    E.find new path = none

theorem loses_of_bareDir (ht : Standing E.toEncoding (bareDir E).1 t)
    (hoccupied : Occupied (E.find root) []) : Loses E root t := by
  obtain ⟨path, addr, hpath, -, hne⟩ := hoccupied
  exact ⟨_, path, addr, ht, hpath, find_bareDir hne⟩

/-- The round for `.` empties the root. -/
theorem mkdirPart_dot (hdense : E.sparse = false) (h : Inv E.toEncoding holders s) {force : Bool}
    (hpasses : DotPasses E.toEncoding force (E.find s.rootAddr))
    (hoccupied : Occupied (E.find s.rootAddr) []) :
    ∃ t, mkdirPart E bareShell force ['/', '.'] (bareDir E) s = (.ok (), t) ∧
      Standing E.toEncoding (bareDir E).1 t := by
  obtain ⟨_, ⟨⟩, hroot⟩ := hoccupied.isDir
  have hvalue := mkdirEmpty_ne_nil E.toEncoding [] ∅
  have htarget : ∀ assert, Targets E.toEncoding ⟨['.'], (bareDir E).1, [], assert⟩ s.rootAddr :=
    fun assert => ⟨hvalue, hroot⟩
  have hvalid : validRelativePath ['.'] = true := by decide
  rw [mkdirPart]
  cases hdot : E.walk (some s.rootAddr) [['.']] with
  | none =>
      obtain ⟨t, new, hrun, ht, hwrites⟩ := tryMultiLink_linked hdense h ['/', '.']
        hvalid (htarget _) (checkAssertions_dot_new hdense h hdot hroot)
      have hnew := hwrites.root_of_dot hvalue rfl
      subst hnew
      exact ⟨t, by rw [hrun], ht⟩
  | some addr =>
      obtain ⟨hforce, hfile⟩ := hpasses addr hdot
      have hfirst := tryMultiLink_assertion ['/', '.'] hvalid
        (checkAssertions_dot_found hdense h hdot)
      obtain ⟨t, new, hrun, ht, hwrites⟩ := tryMultiLink_linked hdense h ['/', '.']
        hvalid (htarget _) (checkAssertions_dot_file hdense h hdot hfile)
      have hnew := hwrites.root_of_dot hvalue rfl
      subst hnew
      refine ⟨t, ?_, ht⟩
      rw [hfirst]
      simp only [if_pos hforce]
      rw [hrun]

theorem checkAssertions_unasserted (s : NameStore) {request : LinkRequest}
    (hvalue : request.newAddr ≠ []) (hassert : request.assert = 0) :
    checkAssertions E request s = (.ok (), s) := by
  rw [checkAssertions, if_neg (fun hunlinks => hvalue hunlinks.2), if_pos hassert]
  rfl

/-- The link of `mkdir` to the path `.` empties the root. -/
theorem linkDot_loses (hdense : E.sparse = false) (h : Inv E.toEncoding holders s)
    {path : GoString} {force : Bool} (hdot : normalizePath path = ['.'])
    (hpasses : force = true ∨ E.find s.rootAddr ['.'] = none)
    (hoccupied : Occupied (E.find s.rootAddr) []) :
    ∃ t, tryMultiLink E bareShell (bareDir E).2 ⟨path, (bareDir E).1, [],
      if force then 0 else assertPrevValueMatches⟩ s = (.linked, t) ∧ Loses E s.rootAddr t := by
  obtain ⟨_, ⟨⟩, hroot⟩ := hoccupied.isDir
  have hvalue := mkdirEmpty_ne_nil E.toEncoding [] ∅
  have hcheck : checkAssertions E ⟨normalizePath path, (bareDir E).1, [],
      if force then 0 else assertPrevValueMatches⟩ s = (.ok (), s) := by
    by_cases hforce : force = true
    · exact checkAssertions_unasserted s hvalue (if_pos hforce)
    · rw [hdot, if_neg hforce]
      exact checkAssertions_dot_new hdense h (hpasses.resolve_left hforce) hroot
  have htarget : Targets E.toEncoding ⟨normalizePath path, (bareDir E).1, [],
      if force then 0 else assertPrevValueMatches⟩ s.rootAddr := by
    rw [hdot]
    exact ⟨hvalue, hroot⟩
  obtain ⟨t, new, hrun, ht, hwrites⟩ := tryMultiLink_linked hdense h
    path (show validRelativePath (normalizePath path) = true by rw [hdot]; decide) htarget hcheck
  have hnew := hwrites.root_of_dot hvalue (by rw [trimRight_normalizePath, hdot])
  subst hnew
  exact ⟨t, hrun, loses_of_bareDir ht hoccupied⟩

/-- Without an assertion the link replaces a directory at the target. -/
theorem linkForced_loses (hdense : E.sparse = false) (h : Inv E.toEncoding holders s)
    {path : GoString} (hdot : normalizePath path ≠ ['.']) (hplain : Plain (normalizePath path))
    (hvalid : validRelativePath (normalizePath path) = true)
    (hoccupied : Occupied (E.find s.rootAddr) (components path)) :
    ∃ t, tryMultiLink E bareShell (bareDir E).2 ⟨path, (bareDir E).1, [], 0⟩ s = (.linked, t) ∧
      Loses E s.rootAddr t := by
  have hvalue := mkdirEmpty_ne_nil E.toEncoding [] ∅
  have hsegments : LinkRequest.segments ⟨normalizePath path, (bareDir E).1, [], 0⟩ =
      components path := by
    have hagrees : Agrees (normalizePath path) := by
      rw [Agrees, trimRight_normalizePath]
      exact ⟨hdot, hplain⟩
    rw [LinkRequest.segments_of_agrees hagrees]
    exact components_normalizePath path
  obtain ⟨addr, hwalk, hdir⟩ := hoccupied.isDir
  have htarget : Targets E.toEncoding ⟨normalizePath path, (bareDir E).1, [], 0⟩ s.rootAddr := by
    rw [Targets, hsegments]
    split
    next hnil =>
      rw [hnil] at hwalk
      cases hwalk
      exact ⟨hvalue, hdir⟩
    next hne =>
      rw [← List.dropLast_append_getLast hne] at hwalk
      exact Encoding.exists_dir_of_walk (List.cons_ne_nil _ _) hwalk
  obtain ⟨t, new, hrun, ht, hwrites⟩ := tryMultiLink_linked hdense h path hvalid htarget
    (checkAssertions_unasserted s hvalue rfl)
  refine ⟨t, hrun, ?_⟩
  obtain ⟨below, lost, hbelow, ⟨rest, hrest⟩, hne⟩ := hoccupied
  refine ⟨new, below, lost, ht, hbelow, ?_⟩
  have hupdated := hwrites.linked.updated
  rw [hsegments, LinkRequest.value_of_ne hvalue] at hupdated
  have hempty := hupdated.walk_below (h.heldTree.wellFormedTree.exactAlong _) rest
  have hnone : E.walk (some (bareDir E).1) rest = none := by
    cases rest with
    | nil =>
        rw [List.append_nil] at hrest
        exact absurd hrest.symm hne
    | cons name rest =>
        rw [Encoding.walk, PathTree.walk_cons, (mkdirEmpty_dirAt E.toEncoding [] ∅).child,
          Finmap.lookup_empty, PathTree.walk_none]
  rw [Encoding.find]
  split
  · rfl
  · rw [← hrest]
    exact hempty.trans hnone

theorem mkdirParts_ok {W : Shell} {force : Bool} {n : ℕ} {cur : GoString} {cache : BlobCache}
    {part : GoString} {parts : List GoString} {result : Unit}
    (hrun : mkdirPart E W force (cur ++ '/' :: part) (mkdirEmpty E.toEncoding (W.isoNow n) cache) s =
      (.ok result, t)) :
    mkdirParts E W force n cur cache (part :: parts) s = mkdirParts E W force (n + 1)
      (cur ++ '/' :: part) (mkdirEmpty E.toEncoding (W.isoNow n) cache).2 parts t := by
  rw [mkdirParts]
  simp only [hrun]

theorem mkdir_linked {W : Shell} {path : GoString} {opts : MkdirOptions} (hp : ¬ opts.p = true)
    (hrun : tryMultiLink E W (mkdirEmpty E.toEncoding (W.isoNow 0) W.cache).2 ⟨path,
      (mkdirEmpty E.toEncoding (W.isoNow 0) W.cache).1, [],
        if opts.f then 0 else assertPrevValueMatches⟩ s = (.linked, t)) :
    mkdir E W path opts s = (.ok (), t) := by
  rw [mkdir, if_neg hp]
  simp only [hrun]

/-- Where a directory is at risk, a bare shell destroys it. -/
theorem mkdir_loses (hdense : E.sparse = false) (h : Inv E.toEncoding holders s)
    {path : GoString} {opts : MkdirOptions}
    (hrisk : Destroys E.toEncoding (E.find s.rootAddr) path opts) :
    Loses E s.rootAddr (mkdir E bareShell path opts s).2 := by
  have hvalue := mkdirEmpty_ne_nil E.toEncoding [] ∅
  rw [Destroys] at hrisk
  split at hrisk
  next hp =>
    obtain ⟨hhead, hpasses, hoccupied⟩ := hrisk
    rw [mkdir, if_pos hp]
    have hnames := names_components path
    obtain ⟨rest, hrest⟩ : ∃ rest, components path = ['.'] :: rest :=
      ⟨_, (List.cons_head?_tail hhead).symm⟩
    rw [hrest] at hnames ⊢
    obtain ⟨t, hrun, ht⟩ := mkdirPart_dot hdense h hpasses hoccupied
    refine loses_of_bareDir ?_ hoccupied
    have hparts := mkdirParts_bareDir hdense ht [['.']] hnames (by simp) opts.f 1
      (bareDir E).2
    have hfirst : mkdirParts E bareShell opts.f 0 [] bareShell.cache (['.'] :: rest) s =
        mkdirParts E bareShell opts.f 1 ['/', '.'] (bareDir E).2 rest t := mkdirParts_ok hrun
    rw [hfirst]
    exact hparts
  next hp =>
    have hloses : ∃ t, tryMultiLink E bareShell (bareDir E).2 ⟨path, (bareDir E).1, [],
        if opts.f then 0 else assertPrevValueMatches⟩ s = (.linked, t) ∧ Loses E s.rootAddr t := by
      split at hrisk
      next hdot => exact linkDot_loses hdense h hdot hrisk.1 hrisk.2
      next hdot =>
        obtain ⟨hforce, hplain, hvalid, hoccupied⟩ := hrisk
        rw [if_pos hforce]
        exact linkForced_loses hdense h hdot hplain hvalid hoccupied
    obtain ⟨t, hrun, hlost⟩ := hloses
    rw [mkdir_linked hp hrun]
    exact hlost

end Bare

/-! ## The exact condition -/

/-- Whatever the callbacks of the server decide, the client has in its caches and the
options are: `mkdir` keeps every directory on the way to its target, and all entries
that are not on the way, exactly where no directory is at risk. -/
theorem mkdir_keepsDirectories_iff (hdense : E.sparse = false) (hs : Reachable E holders s)
    (path : GoString) (opts : MkdirOptions) :
    (∀ W : Shell, W.hooks.ReadOnly E.toEncoding →
      KeepsDirectories E.toEncoding (components path) opts.f (fun path => resolvedAddr E path s)
        (fun path' => resolvedAddr E path' (mkdir E W path opts s).2)) ↔
      ¬ Destroys E.toEncoding (fun path => resolvedAddr E path s) path opts := by
  have hinv := hs.inv hdense
  have hstanding : Standing E.toEncoding s.rootAddr s := ⟨holders, hinv, rfl⟩
  rw [hstanding.find_eq hdense]
  constructor
  · intro hkeeps hrisk
    obtain ⟨new, lost, addr, ht, hbefore, hafter⟩ := mkdir_loses hdense hinv hrisk
    have hresolves := (hkeeps bareShell (Hooks.none_readOnly _)).resolves hbefore
    have hfind := congrFun (ht.find_eq hdense) lost
    exact hresolves (hfind.trans hafter)
  · intro hsafe W hH
    obtain ⟨new, ht, hkeeps⟩ := mkdir_keeps hdense hH hstanding hsafe (W := W)
    rw [ht.find_eq hdense]
    exact hkeeps

/-! ### A directory with a file -/

/-- A directory `a` with a file `x`. -/
def nestedTable : List KnownBlob :=
  Table.shortDirectory 'e' 'E' 0o755 [] ++ Table.shortFile 'f' 'F' ++
    Table.shortDirectory 'i' 'I' 0o755 [('x', ['Q', 'm', 'F'])] ++
    Table.shortDirectory 'd' 'D' 0o755 [('a', ['Q', 'm', 'I'])]

theorem proper_nestedTable : Table.Proper nestedTable := by decide +kernel

abbrev nestedEnv : Env := Table.shortEnv nestedTable proper_nestedTable

abbrev nestedVolume : NameStore := Table.shortVolume proper_nestedTable ['Q', 'm', 'D']

theorem reachable_nestedVolume : Reachable nestedEnv 0 nestedVolume :=
  Table.reachable_shortVolume proper_nestedTable (by decide +kernel) (by decide +kernel)

/-- With `{p:1}` too, the directory is at no risk. -/
theorem mkdir_keepsDirectories_parents :
    KeepsDirectories nestedEnv.toEncoding (components ['/', 'a']) true
      (fun path => resolvedAddr nestedEnv path nestedVolume)
      (fun path => resolvedAddr nestedEnv path
        (mkdir nestedEnv bareShell ['/', 'a'] ⟨true, true⟩ nestedVolume).2) := by
  refine (mkdir_keepsDirectories_iff rfl reachable_nestedVolume ['/', 'a'] ⟨true, true⟩).mpr ?_
    bareShell (Hooks.none_readOnly _)
  intro hrisk
  rw [Destroys, if_pos rfl] at hrisk
  have hhead : (components ['/', 'a']).head? = some ['a'] := by decide +kernel
  cases hhead.symm.trans hrisk.1

/-- `mkdir({f:1})` on a directory with a file takes the file away. -/
theorem mkdir_forced_loses_file : ∃ W : Shell, W.hooks.ReadOnly nestedEnv.toEncoding ∧
    ¬ KeepsDirectories nestedEnv.toEncoding (components ['/', 'a']) true
      (fun path => resolvedAddr nestedEnv path nestedVolume)
      (fun path => resolvedAddr nestedEnv path
        (mkdir nestedEnv W ['/', 'a'] ⟨false, true⟩ nestedVolume).2) := by
  have hinv := reachable_nestedVolume.inv rfl
  have hstanding : Standing nestedEnv.toEncoding nestedVolume.rootAddr nestedVolume :=
    ⟨0, hinv, rfl⟩
  have hfile : resolvedAddr nestedEnv ['a', '/', 'x'] nestedVolume = some ['Q', 'm', 'F'] := by
    decide +kernel
  have hrisk : Destroys nestedEnv.toEncoding (nestedEnv.find nestedVolume.rootAddr) ['/', 'a']
      ⟨false, true⟩ := by
    rw [Destroys, if_neg Bool.false_ne_true, if_neg (by decide +kernel), ← hstanding.find_eq rfl]
    refine ⟨rfl, by decide +kernel, by decide +kernel, ['a', '/', 'x'], _, hfile, ?_, ?_⟩
    · decide +kernel
    · decide +kernel
  obtain ⟨new, lost, addr, ht, hbefore, hafter⟩ := mkdir_loses rfl hinv hrisk
  refine ⟨bareShell, Hooks.none_readOnly _, fun hkeeps => ?_⟩
  rw [hstanding.find_eq rfl, ht.find_eq rfl] at hkeeps
  exact hkeeps.resolves hbefore hafter

end Grits
