import Grits.Client.LinkAttempt

/-!
# The shell's `mkdir`

`client/lib/mkdir/main.js`: one link of an empty directory, or with `{p:1}` one for each
part of the path.  What `mkdir` may change is the way to its target: the directories
there get an entry, everything beside them and below the target stays what it was.

The server is modelled with the tree it serves.  What `vol.lookup` answers, from the
caches of the client or from the server, is left open; it only reads.
-/

namespace Grits

open SlashPath

/-! ## The tool -/

/-- `vol.mkdir({})`: the address of the metadata of an empty directory, and the blob
cache with its two blobs.  `JSON.stringify` writes here what `json.Marshal` writes. -/
def mkdirEmpty (E : Encoding) (timestamp : GoString) (cache : BlobCache) :
    BlobAddr × BlobCache :=
  let dirBytes := E.marshalDir ∅
  let dirCID := E.sum dirBytes
  let metaBytes := E.marshalMetadata
    { type := .directory, size := .ofNat dirBytes.length, contentHash := dirCID,
      mode := 0o755, timestamp := timestamp }
  let metaCID := E.sum metaBytes
  (metaCID, (cache.insert dirCID dirBytes).insert metaCID metaBytes)

/-- The options object of `mkdir`. -/
structure MkdirOptions where
  p : Bool
  f : Bool
  deriving DecidableEq

/-- What a `mkdir` works with. -/
structure Shell where
  /-- The callbacks of the server. -/
  hooks : Hooks
  principal : PrincipalRef
  /-- The blob cache of the client. -/
  cache : BlobCache
  /-- `_isoNow()`, at the directories made one after another. -/
  isoNow : ℕ → GoString
  /-- The type of what `vol.lookup` finds at a path. -/
  lookup : GoString → NameStore → Option GNodeType
  /-- How many times a link is posted at most. -/
  posts : ℕ

/-- How `mkdir` fails. -/
inductive MkdirError where
  /-- `mkdir: already exists`. -/
  | alreadyExists
  /-- `mkdir: not a directory`. -/
  | notDirectory (path : GoString)
  /-- What `multiLink` threw, or nothing if it is still posting. -/
  | link (thrown : Option (Resupply.Ending (Option LookupResponse) BlobAddr LinkError))

/-- What a `try` around `vol.multiLink` sees. -/
inductive Tried where
  | linked
  /-- An `AssertionError`. -/
  | assertion
  | thrown (error : MkdirError)

/-- `try { await vol.multiLink([request]) }`. -/
def tryMultiLink (E : Env) (W : Shell) (cache : BlobCache) (request : LinkRequest)
    (s : NameStore) : Tried × NameStore :=
  let outcome := serverMultiLink E W.hooks cache [request] W.principal W.posts s
  (match outcome.ending with
    | some (.done _) => .linked
    | some (.refused .assertion) => .assertion
    | thrown => .thrown (.link thrown), outcome.state)

/-- The end of one round of the loop: a file in the way. -/
def checkExisting (W : Shell) (cur : GoString) (s : NameStore) : Except MkdirError Unit :=
  match W.lookup cur s with
  | some type => if type = .directory then .ok () else .error (.notDirectory cur)
  | none => .ok ()

/-- One round of the loop of `mkdir({p:1})`. -/
def mkdirPart (E : Env) (W : Shell) (force : Bool) (cur : GoString)
    (dir : BlobAddr × BlobCache) (s : NameStore) : Except MkdirError Unit × NameStore :=
  match tryMultiLink E W dir.2 ⟨cur, dir.1, [], assertPrevValueMatches⟩ s with
  | (.linked, t) => (.ok (), t)
  | (.thrown e, t) => (.error e, t)
  | (.assertion, t) =>
      if force then
        match tryMultiLink E W dir.2 ⟨cur, dir.1, [], assertIsBlob⟩ t with
        | (.linked, u) => (.ok (), u)
        | (.thrown e, u) => (.error e, u)
        | (.assertion, u) => (checkExisting W cur u, u)
      else (checkExisting W cur t, t)

/-- The loop of `mkdir({p:1})`, from the directory number `n` on. -/
def mkdirParts (E : Env) (W : Shell) (force : Bool) :
    ℕ → GoString → BlobCache → List GoString → NameStore → Except MkdirError Unit × NameStore
  | _, _, _, [], s => (.ok (), s)
  | n, cur, cache, part :: parts, s =>
      let cur := cur ++ '/' :: part
      let dir := mkdirEmpty E.toEncoding (W.isoNow n) cache
      match mkdirPart E W force cur dir s with
      | (.ok _, t) => mkdirParts E W force (n + 1) cur dir.2 parts t
      | (.error e, t) => (.error e, t)

/-- `mkdir`, for a target that `resolvePath` takes to `path` on the volume. -/
def mkdir (E : Env) (W : Shell) (path : GoString) (opts : MkdirOptions) (s : NameStore) :
    Except MkdirError Unit × NameStore :=
  if opts.p then mkdirParts E W opts.f 0 [] W.cache (components path) s
  else
    let dir := mkdirEmpty E.toEncoding (W.isoNow 0) W.cache
    let assert := if opts.f then 0 else assertPrevValueMatches
    match tryMultiLink E W dir.2 ⟨path, dir.1, [], assert⟩ s with
    | (.linked, t) => (.ok (), t)
    | (.assertion, t) => (.error .alreadyExists, t)
    | (.thrown e, t) => (.error e, t)

/-! ## What `mkdir` leaves alone -/

variable {E : Env} {holders : Multiset BlobAddr} {s t : NameStore} {root root' : BlobAddr}

/-- What a `mkdir` with the target `way` may do to the paths that resolve: those on the
way to the target and the target itself are directories and stay directories, or they
are files, which only `force` replaces; all others resolve to the address they had. -/
structure KeepsDirectories (E : Encoding) (way : List GoString) (force : Bool)
    (before after : GoString → Option BlobAddr) : Prop where
  elsewhere : ∀ path addr, before path = some addr → ¬ components path <+: way →
    after path = some addr
  directories : ∀ path addr, before path = some addr → components path <+: way →
    E.IsDir addr → ∃ addr', after path = some addr' ∧ E.IsDir addr'
  files : ∀ path addr, before path = some addr → components path <+: way → ¬ E.IsDir addr →
    after path = some addr ∨ force = true ∧ ∃ addr', after path = some addr' ∧ E.IsDir addr'

section KeepsDirectories

variable {E : Encoding} {way : List GoString} {force : Bool}
  {before middle after : GoString → Option BlobAddr}

theorem KeepsDirectories.refl : KeepsDirectories E way force before before where
  elsewhere := fun _ _ h _ => h
  directories := fun _ addr h _ hdir => ⟨addr, h, hdir⟩
  files := fun _ _ h _ _ => .inl h

theorem KeepsDirectories.trans (h : KeepsDirectories E way force before middle)
    (h' : KeepsDirectories E way force middle after) :
    KeepsDirectories E way force before after where
  elsewhere := by
    intro path addr hpath hway
    exact h'.elsewhere path addr (h.elsewhere path addr hpath hway) hway
  directories := by
    intro path addr hpath hway hdir
    obtain ⟨addr', hmiddle, hdir'⟩ := h.directories path addr hpath hway hdir
    exact h'.directories path addr' hmiddle hway hdir'
  files := by
    intro path addr hpath hway hfile
    rcases h.files path addr hpath hway hfile with hmiddle | ⟨hforce, addr', hmiddle, hdir⟩
    · exact h'.files path addr hmiddle hway hfile
    · exact .inr ⟨hforce, h'.directories path addr' hmiddle hway hdir⟩

end KeepsDirectories

/-- What the paths resolve to in the tree at `root`. -/
noncomputable def Encoding.find (E : Encoding) (root : BlobAddr) (path : GoString) :
    Option BlobAddr :=
  if isRooted (trimRight path) then none else E.walk (some root) (components path)

theorem Standing.find_eq (hdense : E.sparse = false) (h : Standing E.toEncoding root s) :
    (fun path => resolvedAddr E path s) = E.find root := by
  obtain ⟨holders, hinv, rfl⟩ := h
  funext path
  rw [Encoding.find]
  split
  next hrooted => exact resolvedAddr_rooted hrooted
  next hrel => exact hinv.resolvedAddr_eq hdense (Bool.eq_false_iff.mpr hrel)

theorem Encoding.find_eq_some {E : Encoding} {path : GoString} {addr : BlobAddr}
    (h : E.find root path = some addr) : E.walk (some root) (components path) = some addr := by
  rw [Encoding.find] at h
  split at h
  · cases h
  · exact h

theorem Encoding.find_of_walk {E : Encoding} {path : GoString} {addr addr' : BlobAddr}
    (h : E.find root path = some addr)
    (hwalk : E.walk (some root') (components path) = some addr') :
    E.find root' path = some addr' := by
  rw [Encoding.find] at h ⊢
  split at h
  · cases h
  next hrel => rw [if_neg hrel, hwalk]

/-- A write spares the entries of directories if nothing is found below the place it
writes to. -/
theorem Writes.keepsDirectories {E : Encoding} {request : LinkRequest} {way : List GoString}
    {force : Bool} (h : Writes E request root root') (htree : E.WellFormedTree (some root))
    (hdir : E.IsDir request.newAddr) (hvalue : request.newAddr ≠ [])
    (hway : ∀ parts, Names parts → parts <+: request.segments → parts <+: way)
    (hbelow : ∀ parts, Names parts → request.segments <+: parts → parts ≠ request.segments →
      E.walk (some root) parts = none)
    (hfile : Names request.segments → ∀ addr, E.walk (some root) request.segments = some addr →
      ¬ E.IsDir addr → force = true) :
    KeepsDirectories E way force (E.find root) (E.find root') := by
  have hupdated := h.linked.updated
  have hexact : ∀ path, PathTree.ExactAlong E.entries E.Reads (some root) path :=
    htree.exactAlong
  -- where a path that resolves can lie
  have hcases : ∀ path addr, E.find root path = some addr →
      (components path = request.segments ∧ E.walk (some root') request.segments =
          some request.newAddr) ∨
        (components path <+: request.segments ∧ E.IsDir addr ∧
          ∃ addr', E.walk (some root') (components path) = some addr' ∧ E.IsDir addr') ∨
        (¬ components path <+: request.segments ∧
          E.walk (some root') (components path) = some addr) := by
    intro path addr hpath
    have hwalk := Encoding.find_eq_some hpath
    have hnames := names_components path
    by_cases hbefore : components path <+: request.segments
    · obtain ⟨rest, hrest⟩ := hbefore
      cases rest with
      | nil =>
          rw [List.append_nil] at hrest
          refine .inl ⟨hrest, ?_⟩
          rw [← LinkRequest.value_of_ne hvalue]
          exact hupdated.walk_eq (hexact _)
      | cons name rest =>
          refine .inr (.inl ⟨⟨_, hrest⟩, ?_⟩)
          rw [← hrest] at hupdated
          obtain ⟨a, a', children, children', hold, hnew, hkids, hkids'⟩ :=
            hupdated.kids_above (hexact _)
          have ha : addr = a := Option.some.inj (hwalk.symm.trans hold)
          subst ha
          obtain ⟨map, hmap, -⟩ := Encoding.exists_dirAt_of_entries hkids
          obtain ⟨map', hmap', -⟩ := Encoding.exists_dirAt_of_entries hkids'
          exact ⟨hmap.isDir, a', hnew, hmap'.isDir⟩
    · refine .inr (.inr ⟨hbefore, ?_⟩)
      by_cases hextends : request.segments <+: components path
      · have hne : components path ≠ request.segments := by
          intro heq
          rw [heq] at hbefore
          exact hbefore (List.prefix_refl _)
        rw [hbelow _ hnames hextends hne] at hwalk
        cases hwalk
      · rw [← hwalk]
        exact (hupdated.walk_unrelated Encoding.reads_unique ⟨hextends, hbefore⟩ (hexact _)).1
  constructor
  · intro path addr hpath hoff
    rcases hcases path addr hpath with ⟨heq, -⟩ | ⟨hbefore, -⟩ | ⟨-, hwalk⟩
    · refine absurd (hway _ (names_components path) ?_) hoff
      rw [heq]
    · exact absurd (hway _ (names_components path) hbefore) hoff
    · exact Encoding.find_of_walk hpath hwalk
  · intro path addr hpath hon hisdir
    rcases hcases path addr hpath with ⟨heq, hwalk⟩ | ⟨-, -, addr', hwalk, hdir'⟩ | ⟨-, hwalk⟩
    · rw [← heq] at hwalk
      exact ⟨_, Encoding.find_of_walk hpath hwalk, hdir⟩
    · exact ⟨addr', Encoding.find_of_walk hpath hwalk, hdir'⟩
    · exact ⟨addr, Encoding.find_of_walk hpath hwalk, hisdir⟩
  · intro path addr hpath hon hisfile
    rcases hcases path addr hpath with ⟨heq, hwalk⟩ | ⟨-, hisdir, -⟩ | ⟨-, hwalk⟩
    · have hwalk₀ := Encoding.find_eq_some hpath
      rw [heq] at hwalk₀
      have hnames : Names request.segments := heq ▸ names_components path
      rw [← heq] at hwalk
      exact .inr ⟨hfile hnames addr hwalk₀ hisfile, _, Encoding.find_of_walk hpath hwalk, hdir⟩
    · exact absurd hisdir hisfile
    · exact .inl (Encoding.find_of_walk hpath hwalk)

/-! ## Single writes -/

/-- Something resolves below this place. -/
def Occupied (before : GoString → Option BlobAddr) (way : List GoString) : Prop :=
  ∃ path addr, before path = some addr ∧ way <+: components path ∧ components path ≠ way

theorem walk_of_not_occupied {E : Encoding} {way parts : List GoString}
    (h : ¬ Occupied (E.find root) way) (hnames : Names parts) (hway : way <+: parts)
    (hne : parts ≠ way) : E.walk (some root) parts = none := by
  by_contra hsome
  obtain ⟨addr, hwalk⟩ := Option.ne_none_iff_exists'.mp hsome
  have hcomponents := components_join hnames
  refine h ⟨join parts, addr, ?_, ?_, ?_⟩
  · rw [Encoding.find, (plain_join hnames).trimRight_eq, isRooted_join hnames, hcomponents]
    exact hwalk
  · rwa [hcomponents]
  · rwa [hcomponents]

section Writes

variable {E : Encoding} {request : LinkRequest} {way : List GoString} {force : Bool}

/-- Names above the place written are components of the path. -/
theorem LinkRequest.components_of_segments (hdot : trimRight request.path ≠ ['.'])
    {parts : List GoString} (hnames : Names parts) (hbefore : parts <+: request.segments) :
    parts <+: components request.path := by
  have hname : linkName request.path = trimRight request.path := if_neg hdot
  rw [LinkRequest.segments, hname] at hbefore
  split at hbefore
  · rw [List.prefix_nil.mp hbefore]
    exact List.nil_prefix
  · rw [← components_trimRight]
    have hfilter := hbefore.filter fun part => decide (part ≠ [])
    rwa [List.filter_eq_self.mpr fun part hpart => by simpa using (hnames part hpart).1] at hfilter

/-- A place written that has only names is the place the components lead to. -/
theorem LinkRequest.segments_of_all_names (hdot : trimRight request.path ≠ ['.'])
    (hnames : Names request.segments) : request.segments = components request.path := by
  have hname : linkName request.path = trimRight request.path := if_neg hdot
  rw [← components_trimRight]
  rw [LinkRequest.segments, hname] at hnames ⊢
  split
  next hnil =>
    rw [hnil]
    rfl
  next hne =>
    rw [if_neg hne] at hnames
    symm
    exact List.filter_eq_self.mpr fun part hpart => by simpa using (hnames part hpart).1

/-- A write to a path other than `.` is harmless if nothing is found below the path, and
no file at it unless by force. -/
theorem Writes.keeps (h : Writes E request root root') (htree : E.WellFormedTree (some root))
    (hdir : E.IsDir request.newAddr) (hvalue : request.newAddr ≠ [])
    (hdot : trimRight request.path ≠ ['.']) (hway : components request.path <+: way)
    (hbelow : Names request.segments → ∀ parts, Names parts → components request.path <+: parts →
      parts ≠ components request.path → E.walk (some root) parts = none)
    (hfile : ∀ addr, E.walk (some root) (components request.path) = some addr →
      ¬ E.IsDir addr → force = true) :
    KeepsDirectories E way force (E.find root) (E.find root') := by
  refine h.keepsDirectories htree hdir hvalue ?_ ?_ ?_
  · intro parts hnames hbefore
    exact (LinkRequest.components_of_segments hdot hnames hbefore).trans hway
  · intro parts hnames hbefore hne
    have hall : Names request.segments := fun part hpart => hnames part (hbefore.subset hpart)
    rw [LinkRequest.segments_of_all_names hdot hall] at hbefore hne
    exact hbelow hall parts hnames hbefore hne
  · intro hall addr hwalk hisfile
    rw [LinkRequest.segments_of_all_names hdot hall] at hwalk
    exact hfile addr hwalk hisfile

/-- A new directory where nothing was is harmless. -/
theorem Writes.keeps_new (h : Writes E request root root')
    (htree : E.WellFormedTree (some root)) (hdir : E.IsDir request.newAddr)
    (hvalue : request.newAddr ≠ []) (hdot : trimRight request.path ≠ ['.'])
    (hway : components request.path <+: way) (hassert : request.assert = assertPrevValueMatches)
    (hprev : request.prevAddr = []) :
    KeepsDirectories E way force (E.find root) (E.find root') := by
  have hnone : E.walk (some root) (components request.path) = none := by
    have hmatches := h.asserted.prevValueMatches (by rw [hassert]; decide)
    rwa [if_pos hprev] at hmatches
  refine h.keeps htree hdir hvalue hdot hway ?_ ?_
  · rintro - _ - ⟨rest, rfl⟩ -
    rw [Encoding.walk, PathTree.walk_append]
    rw [Encoding.walk] at hnone
    rw [hnone, PathTree.walk_none]
  · intro addr hwalk
    rw [hnone] at hwalk
    cases hwalk

/-- A directory in the place of a file is harmless by force. -/
theorem Writes.keeps_file (h : Writes E request root root')
    (htree : E.WellFormedTree (some root)) (hdir : E.IsDir request.newAddr)
    (hvalue : request.newAddr ≠ []) (hdot : trimRight request.path ≠ ['.'])
    (hway : components request.path <+: way) (hassert : request.assert = assertIsBlob) :
    KeepsDirectories E way true (E.find root) (E.find root') := by
  obtain ⟨addr, metadata, hwalk, hmetadata, htype⟩ :=
    h.asserted.isBlob (by rw [hassert]; decide)
  have hisfile : ¬ E.IsDir addr := by
    rintro ⟨metadata', hmetadata', htype'⟩
    rw [hmetadata.unique hmetadata', htype'] at htype
    cases htype
  refine h.keeps htree hdir hvalue hdot hway ?_ (fun _ _ _ => rfl)
  rintro - _ - ⟨rest, rfl⟩ hne
  cases rest with
  | nil =>
      rw [List.append_nil] at hne
      exact absurd rfl hne
  | cons name rest =>
      rw [Encoding.walk, PathTree.walk_append]
      rw [Encoding.walk] at hwalk
      rw [hwalk, PathTree.walk_cons, PathTree.child, Option.bind_some,
        Encoding.entries_eq_none hisfile, Option.bind_none, PathTree.walk_none]

/-- A write to the path `.` replaces the root. -/
theorem Writes.keeps_dot (h : Writes E request root root')
    (htree : E.WellFormedTree (some root)) (hdir : E.IsDir request.newAddr)
    (hvalue : request.newAddr ≠ []) (hdot : trimRight request.path = ['.'])
    (hempty : ¬ Occupied (E.find root) []) :
    KeepsDirectories E way force (E.find root) (E.find root') := by
  have hsegments : request.segments = [] := by
    rw [LinkRequest.segments, linkName, if_pos hdot]
    rfl
  refine h.keepsDirectories htree hdir hvalue ?_ ?_ ?_
  · intro parts _ hbefore
    rw [hsegments, List.prefix_nil] at hbefore
    rw [hbefore]
    exact List.nil_prefix
  · intro parts hnames hbefore hne
    rw [hsegments] at hbefore hne
    exact walk_of_not_occupied hempty hnames hbefore hne
  · intro _ addr hwalk hisfile
    obtain ⟨_, children, ⟨⟩, hreads⟩ := h.linked.readable
    rw [hsegments] at hwalk
    cases hwalk
    exact absurd hreads.isDir hisfile

end Writes

end Grits
