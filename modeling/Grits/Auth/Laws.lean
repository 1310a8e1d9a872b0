import Grits.Auth.Levels

/-!
# Laws of the effective permission

What `resolvePermissionAtRoot` returns in a loaded tree: the least permission
that contains what every grant on the way contributes; more grants never allow
less, and capabilities are kept on the way down.
-/

namespace Grits

open Prog SlashPath

variable {E : Env} {holders : Multiset BlobAddr} {s t : NameStore} {m : AuthModule}

/-! ## A volume with grants -/

namespace Table

/-- An `access.json` with one grant for the user `u` from any origin. -/
def accessText (permission : String) : String :=
  "\x7b\"allow\":[\x7b\"user\":\"u\",\"origin\":\"*\",\"permission\":\"" ++ permission ++ "\"\x7d]\x7d"

/-- The digests of an `access.json`, of the directory with it, of the one with that as its
`.grits`, and of the roots with the last as their entry `.grits` and as their entry `d`. -/
def accessDigest : ℕ := 0xd1683f09455aba5040020054184b0ffe76e00bc3a6b822650652b6b35f75a727
def gritsDigest : ℕ := 0x7f8a129fb22fab4c331ea0c7c7b8a75877ed9f7fa1aece85982a3c0ed233e268
def grantedDigest : ℕ := 0x0a8508cb925cbb9ef2b1dfa2a7b662d1f373a1e8813a06e58929f366ff45a663
def gritsRootDigest : ℕ := 0x2629a6622c7f334aa9926a983476aca311efd1e56509ec7cf58b6c72905b374a
def writeRootDigest : ℕ := 0xc67ec9726200b007c2fdc46420ae7bb880be8160788586c7044d116ccb18ddaf

/-- The empty directory; an `access.json` that grants reading and writing, the
`.grits` directory with it and the directory that has this one; and as roots the
directories that have the last as their entry `.grits` and as their entry `d`. -/
def authTable : List KnownBlob :=
  digestDirectory 0x44136fa355b3678a1146ad16f7e8649e94fb4fc21fe77e8310c060f61caaff8a
      0x9f4185ec7ff434f93c5d00ae28289306bfbd25fb306289e28840b24fe750974f [] ++
    digestFile 0x23556808711cbd5a8bf203aca994db03bece8fe5b68d2faddc7707dc4f249e72
      accessDigest (accessText "read+write").toList ++
    digestDirectory 0xab86d0e8242460e920d4372d7bd3d2cb5a2a4b91b71e4b97af0ad8dcad73dff0
      gritsDigest [("access.json".toList, accessDigest)] ++
    digestDirectory 0x594fb16520d763eecfb31c4cdd921304a890971ee24393722693ccd34b44c711
      grantedDigest [(".grits".toList, gritsDigest)] ++
    digestDirectory 0xd5e43d04a8ed8c402bbe90f0bee85627a53fc31ac4f7ca8b86d542efe8fad142
      gritsRootDigest [(".grits".toList, grantedDigest)] ++
    digestDirectory 0x464fae002d39d52dcec95a64667a0535d04adc9c8a370eac6afcdbc003758475
      writeRootDigest [("d".toList, grantedDigest)]

theorem proper_authTable : Proper authTable := by decide +kernel

abbrev authEnv : Env := env authTable proper_authTable

/-- The user of the grants, from the page of an app. -/
def authPrincipal : Principal := ⟨"u".toList, "https://app.example.org".toList⟩

/-- The grant of `accessText`. -/
def authGrant (permission : Permission) : Grant :=
  ⟨"u".toList, none, none, ['*'], permission⟩

/-- `json.Unmarshal` on the one text `expected`. -/
def readGrant (expected : Bytes) (permission : Permission) (data : Bytes) : Option AccessConfig :=
  if data = expected then some ⟨[authGrant permission]⟩ else none

theorem readGrant_allow {expected data : Bytes} {permission : Permission} {cfg : AccessConfig}
    (h : readGrant expected permission data = some cfg) : cfg.allow = [authGrant permission] := by
  rw [readGrant] at h
  split at h
  next => exact congrArg AccessConfig.allow (Option.some.inj h).symm
  next => exact absurd h (Option.some_ne_none cfg).symm

/-- An `AuthModule` that reads the `access.json` with this permission. -/
def grantModule (text : String) (permission : Permission) : AuthModule where
  coreVhost := "example.org".toList
  urlHostname := fun raw =>
    if raw = "https://example.org".toList then some "example.org".toList else none
  unmarshalAccess := readGrant (ascii (accessText text).toList) permission

theorem grantModule_permission {text : String} {permission : Permission} {E : Encoding}
    {root : BlobAddr} {dir : List GoString} {g : Grant}
    (hg : g ∈ (grantModule text permission).policyAt E root dir) : g.permission = permission := by
  rw [AuthModule.policyAt, AuthModule.grantsIn] at hg
  split at hg
  next cfg hcfg =>
    obtain ⟨data, -, hread⟩ := Option.bind_eq_some_iff.mp hcfg
    obtain ⟨granted, hgranted, rfl⟩ := List.mem_map.mp hg
    rw [readGrant_allow hread, List.mem_singleton] at hgranted
    rw [hgranted]
    exact rfl
  next => exact absurd hg List.not_mem_nil

/-- The module that reads the `access.json` of the table. -/
abbrev authModule : AuthModule := grantModule "read+write" .readWrite

/-- The volume in which `d` grants reading and writing. -/
abbrev writeVolume : NameStore :=
  volume proper_authTable (cid writeRootDigest)

/-- The volume in which `.grits` grants reading and writing. -/
abbrev gritsVolume : NameStore :=
  volume proper_authTable (cid gritsRootDigest)

theorem reachable_authVolumes :
    Reachable authEnv 0 writeVolume ∧ Reachable authEnv 0 gritsVolume :=
  ⟨reachable_volume proper_authTable (by decide +kernel) (by decide +kernel),
    reachable_volume proper_authTable (by decide +kernel) (by decide +kernel)⟩

theorem reachable_writeVolume : Reachable authEnv 0 writeVolume := reachable_authVolumes.1

theorem reachable_gritsVolume : Reachable authEnv 0 gritsVolume := reachable_authVolumes.2

end Table

/-! ## The least permission -/

/-- What a grant at `dir` means at the path that goes on from there with `below`. -/
def contribution (dir below : List GoString) (granted : Permission) : Permission :=
  match below, granted with
  -- at a directory that is itself named `.grits`, writing is only reading
  | [], .readWrite => if dir.getLast? = some gritsDir then .read else .readWrite
  | [], p => p
  | _ :: _, .insert => .empty
  | _ :: _, .readInsert => .read
  | next :: _, .readWrite => if next = gritsDir then .read else .owner
  | _ :: _, p => p

/-- A matching grant on the way to the path contributes `p`. -/
def Policy.Granted (policy : Policy) (principal : Principal) (path : GoString) (p : Permission) :
    Prop :=
  ∃ dir below, components path = dir ++ below ∧
    ∃ g ∈ policy.matching principal dir, contribution dir below g.permission = p

theorem carries_iff_contribution (dir back : List GoString) (granted : Permission)
    (c : Capability) :
    (levelOf back).Carries (dir.getLast? == some gritsDir) granted c ↔
      (contribution dir back granted).allows c = true := by
  cases back with
  | nil =>
      by_cases hgrits : dir.getLast? = some gritsDir
      · cases granted <;> cases c <;> simp [levelOf, Level.Carries, Level.part, localPerm,
          contribution, hgrits]
      · cases granted <;> cases c <;> simp [levelOf, Level.Carries, Level.part, localPerm,
          contribution, hgrits]
  | cons next back =>
      by_cases hgrits : next = gritsDir
      · cases granted <;> cases c <;> simp [levelOf, Level.Carries, Level.part, gritsParentPerm,
          contribution, hgrits]
      · cases granted <;> cases c <;> simp [levelOf, Level.Carries, Level.part, inheritedPerm,
          contribution, hgrits]

/-- Along a path without empty segments the effective permission is the least one
above all contributions, as long as the root grants nothing at the root itself or
inside its `.grits`. -/
theorem Policy.effective_least (policy : Policy) (principal : Principal) {path : GoString}
    (hplain : Plain path) (hroot : components path ≠ [] ∧ (components path).head? ≠ some gritsDir ∨
      policy.matching principal [] = []) :
    LeastAbove (policy.Granted principal path) (policy.effective principal path) := by
  apply leastAbove_of_allows_iff
  intro c
  rw [Policy.allows_iff]
  constructor
  · rintro (⟨g, hg, hcarries⟩ | ⟨front, name, back, hpath, hname, g, hg, hcarries⟩)
    · rcases hroot with ⟨hne, hhead⟩ | hnone
      · refine ⟨_, ⟨[], components path, rfl, g, hg, rfl⟩, ?_⟩
        rw [← carries_iff_contribution]
        have hlevel : levelOf (components path) = .inherited := by
          obtain ⟨next, rest, hcons⟩ := List.exists_cons_of_ne_nil hne
          rw [hcons, levelOf, if_neg (by simpa [hcons] using hhead)]
        rw [hlevel]
        exact hcarries
      · rw [hnone] at hg
        cases hg
    · obtain ⟨hfront, hback⟩ := filter_of_plain hplain hpath hname
      have hnames := components_of_segments hpath hname
      rw [hfront] at hg
      rw [hfront, hback] at hnames
      refine ⟨_, ⟨front ++ [name], back, by simpa using hnames, g, hg, rfl⟩, ?_⟩
      rw [← carries_iff_contribution]
      simpa using hcarries
  · rintro ⟨_, ⟨dir, below, hpath, g, hg, rfl⟩, hc⟩
    rw [← carries_iff_contribution] at hc
    rcases List.eq_nil_or_concat dir with rfl | ⟨above, name, rfl⟩
    · rcases hroot with ⟨hne, hhead⟩ | hnone
      · rw [List.nil_append] at hpath
        subst hpath
        obtain ⟨next, rest, hcons⟩ := List.exists_cons_of_ne_nil hne
        rw [hcons, levelOf, if_neg (by simpa [hcons] using hhead)] at hc
        exact .inl ⟨g, hg, hc⟩
      · rw [hnone] at hg
        cases hg
    · rw [List.concat_eq_append] at hg hc hpath
      rw [List.append_assoc, List.singleton_append] at hpath
      obtain ⟨front, back, hsplit, hname, hfront, hback⟩ := exists_segment hpath
      have hplainBack := (filter_of_plain hplain hsplit hname).2
      rw [hplainBack] at hback
      subst hback
      refine .inr ⟨front, name, back, hsplit, hname, g, ?_, by simpa using hc⟩
      rwa [hfront]

/-- In every loaded tree the effective permission at a path without empty segments
is the least one above what the grants on the way contribute.  A grant at the root
is inherited: this speaks of paths below the root and outside its `.grits`, or of
a root that grants nothing. -/
theorem resolvePermissionAtRoot_least (hdense : E.sparse = false) (hs : Reachable E holders s)
    (m : AuthModule) {root : BlobAddr} (hheld : HeldTree E.toEncoding s root)
    (principal : Principal) {path : GoString} (hplain : Plain path)
    (hroot : components path ≠ [] ∧ (components path).head? ≠ some gritsDir ∨
      (m.policyAt E.toEncoding root).matching principal [] = []) :
    ∃ p, resolvePermissionAtRoot m E (some root) path principal s = (.ok p, s) ∧
      LeastAbove ((m.policyAt E.toEncoding root).Granted principal path) p := by
  refine ⟨_, resolvePermissionAtRoot_held (hs.inv hdense).sound hdense hheld path principal, ?_⟩
  exact Policy.effective_least _ principal hplain hroot

/-- The contributions to the entry `a` of the directory `d` that grants writing. -/
theorem resolvePermissionAtRoot_least_below :
    LeastAbove ((Table.authModule.policyAt Table.authEnv.toEncoding
      Table.writeVolume.rootAddr).Granted Table.authPrincipal "d/a".toList) .owner := by
  have hs := Table.reachable_writeVolume
  have hplain : Plain "d/a".toList := by decide
  obtain ⟨p, hrun, hleast⟩ := resolvePermissionAtRoot_least rfl hs Table.authModule
    (hs.inv rfl).heldTree Table.authPrincipal hplain (.inl (by decide))
  have hresult : (resolvePermissionAtRoot Table.authModule Table.authEnv
      (some Table.writeVolume.rootAddr) "d/a".toList Table.authPrincipal Table.writeVolume).1 =
      .ok .owner := by decide +kernel
  rw [hrun] at hresult
  cases hresult
  exact hleast

/-- At a directory named `.grits`, the permission to write granted there is not above
what it grants. -/
theorem resolvePermissionAtRoot_grits_reads :
    ∃ s g p, Reachable Table.authEnv 0 s ∧
      g ∈ (Table.authModule.policyAt Table.authEnv.toEncoding s.rootAddr).matching
        Table.authPrincipal [gritsDir] ∧
      (resolvePermissionAtRoot Table.authModule Table.authEnv (some s.rootAddr) gritsDir
        Table.authPrincipal s).1 = .ok p ∧
      ¬ g.permission.Le p := by
  have hs := Table.reachable_gritsVolume
  have hinv := hs.inv (E := Table.authEnv) rfl
  refine ⟨Table.gritsVolume, Table.authGrant .readWrite, .read, hs, ?_, by decide +kernel, ?_⟩
  · have hrel : isRooted gritsDir = false := rfl
    have hrun := matchingGrants_held (m := Table.authModule) hinv.sound rfl hinv.heldTree
      Table.authPrincipal hrel
    have hresult : (matchingGrants Table.authModule Table.authEnv
        (some Table.gritsVolume.rootAddr) Table.authPrincipal gritsDir Table.gritsVolume).1 =
        .ok [Table.authGrant .readWrite] := by decide +kernel
    rw [hrun] at hresult
    have hdir : components gritsDir = [gritsDir] := by decide
    rw [hdir] at hresult
    rw [Except.ok.injEq] at hresult
    rw [hresult]
    exact List.mem_singleton_self _
  · intro h
    exact absurd (h .write rfl) (by decide)

/-! ## Monotonicity -/

/-- Adding grants removes no capability anywhere; reading is kept on the way down,
and writing becomes owning below, except through `.grits`. -/
theorem resolvePermissionAtRoot_monotone (hdense : E.sparse = false) (hs : Reachable E holders s)
    (m : AuthModule) {root : BlobAddr} (hheld : HeldTree E.toEncoding s root)
    (principal : Principal) :
    (∀ (holders' : Multiset BlobAddr) (t : NameStore) (root' : BlobAddr) (path : GoString),
      Reachable E holders' t → HeldTree E.toEncoding t root' →
      (∀ dir, ∀ g ∈ m.policyAt E.toEncoding root dir, g ∈ m.policyAt E.toEncoding root' dir) →
      ∃ p q, resolvePermissionAtRoot m E (some root) path principal s = (.ok p, s) ∧
        resolvePermissionAtRoot m E (some root') path principal t = (.ok q, t) ∧ p.Le q) ∧
    ∀ (dir path : GoString) (below : List GoString), components path = components dir ++ below →
      ∃ p q, resolvePermissionAtRoot m E (some root) dir principal s = (.ok p, s) ∧
        resolvePermissionAtRoot m E (some root) path principal s = (.ok q, s) ∧
        (p.allows .read = true → q.allows .read = true) ∧
        (below ≠ [] → below.head? ≠ some gritsDir → Policy.Extends dir path →
          p.allows .write = true → q.allows .own = true) := by
  have hrun := fun path =>
    resolvePermissionAtRoot_held (m := m) (hs.inv hdense).sound hdense hheld path principal
  constructor
  · intro holders' t root' path ht hheld' hgrants
    have hrun' := resolvePermissionAtRoot_held (m := m) (ht.inv hdense).sound hdense hheld' path
      principal
    exact ⟨_, _, hrun path, hrun', Policy.effective_le principal hgrants path⟩
  · intro dir path below hbelow
    refine ⟨_, _, hrun dir, hrun path, Policy.allows_read_below hbelow, ?_⟩
    intro hne hhead hextends
    exact Policy.allows_own_below hextends hbelow hne hhead

/-- The directory `d` may be written, so what is below it is owned. -/
theorem resolvePermissionAtRoot_monotone_below :
    ∃ p q, resolvePermissionAtRoot Table.authModule Table.authEnv
        (some Table.writeVolume.rootAddr) "d".toList Table.authPrincipal Table.writeVolume =
        (.ok p, Table.writeVolume) ∧
      resolvePermissionAtRoot Table.authModule Table.authEnv
        (some Table.writeVolume.rootAddr) "d/a".toList Table.authPrincipal Table.writeVolume =
        (.ok q, Table.writeVolume) ∧
      (p.allows .write = true → q.allows .own = true) := by
  have hs := Table.reachable_writeVolume
  obtain ⟨-, hdown⟩ := resolvePermissionAtRoot_monotone rfl hs Table.authModule
    (hs.inv rfl).heldTree Table.authPrincipal
  obtain ⟨p, q, hp, hq, -, hown⟩ := hdown "d".toList "d/a".toList ["a".toList] (by decide)
  exact ⟨p, q, hp, hq, hown (by decide) (by decide) (.inl (by decide))⟩

end Grits
