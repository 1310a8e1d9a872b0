import Grits.Server.ImportLocalDir

/-!
# What an import leaves in the volume

A successful import shows the local tree below the volume path and nothing else there, if that
path is one of those that a link and a lookup take for the same place.
-/

namespace Grits

namespace LocalTree

open Prog SlashPath

/-! ## The property -/

/-- The node at an address is of the same kind, content, size and mode as the local one. -/
def Shows (E : Encoding) (s : NameStore) (addr : BlobAddr) : LocalNode → Prop
  | .file data mode _ => ∃ metadata file, E.MetadataAt addr metadata ∧ metadata.type = .file ∧
      metadata.size = Int64.ofNat data.length ∧ metadata.mode = mode ∧
      s.blobStore.lookup metadata.contentHash = some file ∧ file.data = data
  | .dir _ mode _ => ∃ metadata, E.MetadataAt addr metadata ∧ metadata.type = .directory ∧
      metadata.mode = mode
  | .unreadable _ _ => False

/-- The volume shows the local tree below a path, and nothing else there. -/
structure Mirrors (E : Env) (tree : LocalNode) (volumePath : GoString) (s : NameStore) : Prop where
  found : ∀ path rel node, isRooted (trimRight path) = false →
    components path = components volumePath ++ rel → tree.at rel = some node →
    ∃ addr, resolvedAddr E path s = some addr ∧ Shows E.toEncoding s addr node
  absent : ∀ path rel, components path = components volumePath ++ rel → tree.at rel = none →
    resolvedAddr E path s = none

/-- Wherever and whenever a local volume imports the tree, it arrives at this address. -/
def Repeatable (E : Env) (tree : LocalNode) (addr : BlobAddr) : Prop :=
  ∀ (E' : Env) (readOnly : Bool) (others : Op Unit) (holders : Multiset BlobAddr) (s : NameStore)
    (localPath : GoString) (addr' : BlobAddr) (y : RefHolder × NameStore),
    E'.toEncoding = E.toEncoding → E'.rfc3339 = E.rfc3339 → E'.sparse = false →
    Harmless E' others → Reachable E' holders s →
    importNode E' readOnly others tree localPath (⟨[], []⟩, s) = (.ok addr', y) → addr' = addr

/-- The names that the link writes along. -/
def written (volumePath : GoString) : List GoString :=
  LinkRequest.segments ⟨volumePath, [], [], 0⟩

/-- An import that took `s` to `t` is faithful and repeatable. -/
structure Faithful (E : Env) (tree : LocalNode) (volumePath : GoString) (s t : NameStore) :
    Prop where
  mirrored : Mirrors E tree volumePath t
  unchanged : ∀ path, PathTree.Unrelated (components volumePath) (components path) →
    resolvedAddr E path t = resolvedAddr E path s
  /-- The address that the import has linked. -/
  repeatable : ∃ addr, E.walk (some t.rootAddr) (written volumePath) = some addr ∧
    Repeatable E tree addr

variable {E : Env} {H : Hooks} {readOnly : Bool} {others : Op Unit} {holders : Multiset BlobAddr}
  {s t : NameStore} {tree : LocalNode} {localPath volumePath : GoString}

/-! ## Showing a node -/

/-- What the metadata at an address has to say for the node there to show a local one. -/
def Described (E : Encoding) (addr : BlobAddr) : LocalNode → Prop
  | .file data mode _ => ∃ metadata, E.MetadataAt addr metadata ∧ metadata.type = .file ∧
      metadata.size = Int64.ofNat data.length ∧ metadata.mode = mode ∧
      metadata.contentHash = E.sum data
  | .dir _ mode _ => ∃ metadata, E.MetadataAt addr metadata ∧ metadata.type = .directory ∧
      metadata.mode = mode
  | .unreadable _ _ => False

theorem described_addr {node : LocalNode} (h : node.Readable) :
    Described E.toEncoding (node.addr E.toEncoding E.rfc3339) node := by
  cases node with
  | file data mode modTime => exact ⟨_, metadataAt_file data mode modTime, rfl, rfl, rfl, rfl⟩
  | dir entries mode modTime => exact ⟨_, metadataAt_dir entries mode modTime, rfl, rfl⟩
  | unreadable failure text => exact h.elim

/-- The content of a node of the tree is stored, so its hash says what it is. -/
theorem shows_iff (hdense : E.sparse = false) (h : Inv E.toEncoding holders s) {path : GoString}
    {addr : BlobAddr} (haddr : resolvedAddr E path s = some addr) (node : LocalNode) :
    Shows E.toEncoding s addr node ↔ Described E.toEncoding addr node := by
  have hrel : isRooted (trimRight path) = false := by
    cases hrooted : isRooted (trimRight path) with
    | true =>
        rw [resolvedAddr_rooted hrooted] at haddr
        cases haddr
    | false => rfl
  rw [h.resolvedAddr_eq hdense hrel] at haddr
  obtain ⟨cached, hcached⟩ := (h.heldTree _ addr haddr).cached
  have hmetadata := (h.sound.nodes addr cached hcached).metadata
  obtain ⟨stored, hstored⟩ := h.sound.exists_content hcached
  have hhash := h.sound.hashed _ stored hstored
  cases node with
  | file data mode modTime =>
      constructor
      · rintro ⟨metadata, file, hat, htype, hsize, hmode, hfile, rfl⟩
        exact ⟨metadata, hat, htype, hsize, hmode, (h.sound.hashed _ file hfile).symm⟩
      · rintro ⟨metadata, hat, htype, hsize, hmode, hcontent⟩
        rw [← hat.unique hmetadata] at hstored hhash
        refine ⟨metadata, stored, hat, htype, hsize, hmode, hstored, ?_⟩
        exact E.sum_injective (hhash.trans hcontent)
  | dir entries mode modTime => rfl
  | unreadable failure text => rfl

/-- Whether a volume mirrors a tree is told by where the paths below lead. -/
theorem Mirrors.of_resolvedAddr_eq {holders' : Multiset BlobAddr} (hdense : E.sparse = false)
    (hs : Inv E.toEncoding holders s) (ht : Inv E.toEncoding holders' t)
    (heq : ∀ path rel, components path = components volumePath ++ rel →
      resolvedAddr E path t = resolvedAddr E path s)
    (h : Mirrors E tree volumePath s) : Mirrors E tree volumePath t where
  found := by
    intro path rel node hrel hpath hnode
    obtain ⟨addr, haddr, hshows⟩ := h.found path rel node hrel hpath hnode
    have haddr' := (heq path rel hpath).trans haddr
    refine ⟨addr, haddr', ?_⟩
    rw [shows_iff hdense ht haddr']
    exact (shows_iff hdense hs haddr node).mp hshows
  absent := by
    intro path rel hpath hnode
    exact (heq path rel hpath).trans (h.absent path rel hpath hnode)

/-! ## Where the tree is put -/

theorem named_components (path : GoString) : ∀ name ∈ components path, decide (name ≠ []) = true :=
  fun _ hname => (List.mem_filter.mp hname).2

/-- The tree is where the link has written it. -/
theorem Imported.walk_written (h : Imported E holders tree volumePath s t) (rel : List GoString) :
    E.walk (some t.rootAddr) (written volumePath ++ rel) =
      E.walk (some (tree.addr E.toEncoding E.rfc3339)) rel := by
  have hne : tree.addr E.toEncoding E.rfc3339 ≠ [] := by
    intro hnil
    have hcid := @LocalNode.isCid_addr E.toEncoding E.rfc3339 _ h.readable
    rw [hnil] at hcid
    exact not_isCid_nil hcid
  have hupdated := h.linked.updated
  rw [LinkRequest.value_of_ne hne] at hupdated
  exact hupdated.walk_below (h.before.heldTree.wellFormedTree.exactAlong _) rel

/-- What is at a path after an import. -/
theorem Imported.resolvedAddr_written (h : Imported E holders tree volumePath s t)
    (hdense : E.sparse = false) (hproper : tree.Proper) {path : GoString} {rel : List GoString}
    (hrel : isRooted (trimRight path) = false) (hpath : components path = written volumePath ++ rel) :
    resolvedAddr E path t = (tree.at rel).map (LocalNode.addr E.toEncoding E.rfc3339) := by
  rw [h.after.resolvedAddr_eq hdense hrel, hpath, h.walk_written, walk_addr hproper h.readable]

/-- A path that is unrelated to what the link writes leads where it led. -/
theorem Imported.resolvedAddr_unrelated (h : Imported E holders tree volumePath s t)
    (hdense : E.sparse = false) {path : GoString}
    (hpath : PathTree.Unrelated (written volumePath) (components path)) :
    resolvedAddr E path t = resolvedAddr E path s := by
  cases hrooted : isRooted (trimRight path) with
  | true => rw [resolvedAddr_rooted hrooted, resolvedAddr_rooted hrooted]
  | false =>
      rw [h.after.resolvedAddr_eq hdense hrooted, h.before.resolvedAddr_eq hdense hrooted]
      exact (h.linked.updated.walk_unrelated Encoding.reads_unique hpath
        (h.before.heldTree.wellFormedTree.exactAlong _)).1

theorem written_eq_split (h : ¬ Plain (trimRight volumePath)) :
    written volumePath = split (trimRight volumePath) := by
  have hdot : trimRight volumePath ≠ ['.'] := by
    intro hdot
    rw [hdot] at h
    exact h (by decide)
  have hname : linkName volumePath = trimRight volumePath := by rw [linkName, if_neg hdot]
  rw [written, LinkRequest.segments, hname, if_neg (not_or.mp h).1]

theorem filter_written (h : ¬ Plain (trimRight volumePath)) :
    (written volumePath).filter (· ≠ []) = components volumePath := by
  rw [written_eq_split h, ← components_trimRight]
  rfl

/-- A path with an empty name in it is written along that name, which no lookup follows. -/
theorem unrelated_of_not_plain (h : ¬ Plain (trimRight volumePath)) {rel : List GoString}
    (hrel : ∀ name ∈ rel, decide (name ≠ []) = true) :
    PathTree.Unrelated (written volumePath) (components volumePath ++ rel) := by
  obtain ⟨hne, hempty⟩ := not_or.mp h
  rw [not_not, ← written_eq_split h] at hempty
  have hlast := List.getLast?_eq_some_getLast (List.ne_nil_of_mem hempty)
  rw [← filter_written h]
  refine PathTree.unrelated_filter_of_getLast? ?_ hlast ?_ hrel
  · intro hall
    have hname := List.filter_eq_self.mp hall [] hempty
    simp at hname
  · have hsplit := getLast?_split_ne_nil hne (getLast?_trimRight_ne_slash volumePath)
    rw [← written_eq_split h, hlast] at hsplit
    simpa using hsplit

/-! ## Faithful imports -/

theorem at_nil (node : LocalNode) : node.at [] = some node := by
  cases node <;> rfl

theorem repeatable_addr : Repeatable E tree (tree.addr E.toEncoding E.rfc3339) := by
  intro E' readOnly others holders s localPath addr y hencoding hrfc3339 hdense hothers hs hrun
  obtain ⟨-, haddr, -⟩ := importNode_run hdense hothers (holding_start (hs.inv hdense)) hrun
  rw [haddr, hencoding, hrfc3339]

/-- A volume path whose write goes where its reads go shows the tree. -/
theorem Imported.mirrors (h : Imported E holders tree volumePath s t) (hdense : E.sparse = false)
    (hproper : tree.Proper) (hwritten : written volumePath = components volumePath) :
    Mirrors E tree volumePath t where
  found := by
    intro path rel node hrel hpath hnode
    rw [← hwritten] at hpath
    have haddr := h.resolvedAddr_written hdense hproper hrel hpath
    rw [hnode] at haddr
    refine ⟨_, haddr, (shows_iff hdense h.after haddr node).mpr ?_⟩
    exact described_addr (LocalNode.at_good hproper h.readable hnode).2.2
  absent := by
    intro path rel hpath hnode
    cases hrooted : isRooted (trimRight path) with
    | true => exact resolvedAddr_rooted hrooted
    | false =>
        rw [← hwritten] at hpath
        rw [h.resolvedAddr_written hdense hproper hrooted hpath, hnode]
        rfl

/-- A tree that is put in the place of the root is not below an entry `.`. -/
theorem Imported.not_mirrors (h : Imported E holders tree volumePath s t)
    (hdense : E.sparse = false) (hproper : tree.Proper) (hdot : trimRight volumePath = ['.']) :
    ¬ Mirrors E tree volumePath t := by
  intro hmirrors
  have hwritten : written volumePath = [] := by
    rw [written, LinkRequest.segments, linkName, if_pos hdot, if_pos rfl]
  have hpath : components ['.'] = components volumePath ++ [] := by
    rw [← components_trimRight volumePath, hdot, List.append_nil]
  obtain ⟨addr, haddr, -⟩ := hmirrors.found ['.'] [] tree rfl hpath (at_nil tree)
  have hroot : components ['.'] = written volumePath ++ [['.']] := by
    rw [hwritten]
    rfl
  rw [h.resolvedAddr_written hdense hproper rfl hroot, Option.map_eq_some_iff] at haddr
  obtain ⟨node, hnode, -⟩ := haddr
  have hname := (LocalNode.at_good hproper h.readable hnode).1 ['.'] List.mem_cons_self
  exact hname.2.1 rfl

/-- A successful import is faithful and repeatable if and only if the write goes where the lookups
go, or the volume showed the tree at a path with empty names before. -/
theorem importLocalDir_faithful_iff (hdense : E.sparse = false) (hs : Reachable E holders s)
    (hH : H.ReadOnly E.toEncoding) (hothers : Harmless E others) (hproper : tree.Proper)
    (hrun : importLocalDir E H readOnly others localPath tree volumePath s = (.ok (), t)) :
    Faithful E tree volumePath s t ↔
      Agrees volumePath ∨ ¬ Plain (trimRight volumePath) ∧ Mirrors E tree volumePath s := by
  have himported := importLocalDir_run hdense hH hothers (hs.inv hdense) hrun
  have hsame (h : ¬ Plain (trimRight volumePath)) (path : GoString) (rel : List GoString)
      (hpath : components path = components volumePath ++ rel) :
      resolvedAddr E path t = resolvedAddr E path s := by
    apply himported.resolvedAddr_unrelated hdense
    rw [hpath]
    apply unrelated_of_not_plain h
    intro name hname
    apply named_components path
    rw [hpath]
    exact List.mem_append_right _ hname
  constructor
  · intro h
    by_cases hplain : Plain (trimRight volumePath)
    · by_cases hdot : trimRight volumePath = ['.']
      · exact absurd h.mirrored (himported.not_mirrors hdense hproper hdot)
      · exact .inl ⟨hdot, hplain⟩
    · refine .inr ⟨hplain, ?_⟩
      exact h.mirrored.of_resolvedAddr_eq hdense himported.after himported.before
        fun path rel hpath => (hsame hplain path rel hpath).symm
  · intro h
    have hwalk := himported.walk_written []
    rw [List.append_nil] at hwalk
    refine ⟨?_, ?_, _, hwalk, repeatable_addr⟩
    · rcases h with hagrees | ⟨hplain, hbefore⟩
      · exact himported.mirrors hdense hproper (LinkRequest.segments_of_agrees hagrees)
      · exact hbefore.of_resolvedAddr_eq hdense himported.before himported.after (hsame hplain)
    · intro path hpath
      apply himported.resolvedAddr_unrelated hdense
      rcases h with hagrees | ⟨hplain, -⟩
      · rwa [written, LinkRequest.segments_of_agrees hagrees]
      · rw [← filter_written hplain] at hpath
        exact hpath.of_filter (named_components path)

/-! ## A directory with a file -/

/-- A directory whose only entry is the file `a`. -/
def source : LocalNode := .dir (.cons ['a'] (.file [102] 0o644 0) .nil) 0o755 0

theorem proper_source : source.Proper := by
  refine ⟨?_, ?_, trivial, trivial⟩
  · simp [IsName]
  · simp [LocalEntries.names]

/-- The blobs of an empty directory, of the directory above and of one with that as its entry
`b`. -/
def sourceTable : List KnownBlob :=
  Table.shortTable ++ Table.shortDirectory 'r' 'R' 0o755 [('b', ['Q', 'm', 'D'])]

theorem proper_sourceTable : Table.Proper sourceTable := by decide +kernel

/-- Surroundings in which these blobs are known. -/
abbrev targetEnv : Env := Table.shortEnv sourceTable proper_sourceTable

/-- An empty volume. -/
abbrev target : NameStore := Table.shortVolume proper_sourceTable ['Q', 'm', 'E']

theorem reachable_target : Reachable targetEnv 0 target :=
  Table.reachable_shortVolume proper_sourceTable (by decide +kernel) (by decide +kernel)

theorem importLocalDir_source :
    ∃ t, importLocalDir targetEnv Hooks.none false (pure ()) "/src".toList source ['b'] target =
        (.ok (), t) ∧ Faithful targetEnv source ['b'] target t := by
  have hresult : (importLocalDir targetEnv Hooks.none false (pure ()) "/src".toList source ['b']
      target).1 = .ok () := by decide +kernel
  refine ⟨_, run_eq hresult, ?_⟩
  refine (importLocalDir_faithful_iff rfl reachable_target (Hooks.none_readOnly _)
    (harmless_pure _) proper_source (run_eq hresult)).mpr (.inl ?_)
  decide

/-- Imported at `.`, the directory takes the place of the root and is not found at `.`. -/
theorem importLocalDir_dot_not_faithful :
    ∃ t, importLocalDir targetEnv Hooks.none false (pure ()) "/src".toList source ['.'] target =
        (.ok (), t) ∧ ¬ Faithful targetEnv source ['.'] target t := by
  have hresult : (importLocalDir targetEnv Hooks.none false (pure ()) "/src".toList source ['.']
      target).1 = .ok () := by decide +kernel
  refine ⟨_, run_eq hresult, fun h => ?_⟩
  obtain ⟨addr, haddr, -⟩ := h.mirrored.found ['.'] [] source rfl rfl (at_nil source)
  have hnone : resolvedAddr targetEnv ['.'] (importLocalDir targetEnv Hooks.none false (pure ())
      "/src".toList source ['.'] target).2 = none := by decide +kernel
  rw [hnone] at haddr
  cases haddr

end LocalTree

end Grits
