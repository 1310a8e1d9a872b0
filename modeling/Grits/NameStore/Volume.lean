import Grits.NameStore.Reachable
import Grits.NameStore.TableEncoding

/-!
# Volumes given by a table

A name store over the blobs of a table, whose root is a directory of the table:
concrete reachable states, on which the definitions can be run.
-/

namespace Grits

open Prog

/-- No watchers and no callbacks. -/
def Hooks.none : Hooks := ⟨[], [], []⟩

theorem Hooks.none_readOnly (E : Encoding) : Hooks.none.ReadOnly E where
  lookupCallbacks := by
    intro callback h
    cases h
  linkCallbacks := by
    intro callback h
    cases h

instance {α : Type} (r : Except Halt α) : Decidable (Returned r) :=
  match r with
  | .ok _ => .isTrue trivial
  | .error (.err _) => .isTrue trivial
  | .error (.crash _) => .isFalse id
  | .error (.dangling _) => .isFalse id
  | .error .outOfFuel => .isFalse id

/-- A tree without directories is a single node. -/
theorem Encoding.walk_of_not_isDir {E : Encoding} {addr other : BlobAddr} {path : List GoString}
    (h : ¬ E.IsDir addr) (hwalk : E.walk (some addr) path = some other) : other = addr := by
  cases path with
  | nil =>
      cases hwalk
      rfl
  | cons name path =>
      rw [Encoding.walk, PathTree.walk_cons, PathTree.child, Option.bind_some,
        entries_eq_none h] at hwalk
      simp at hwalk

/-- A tree without directories is well formed. -/
theorem Encoding.wellFormedTree_of_not_isDir {E : Encoding} {addr : BlobAddr}
    (h : ¬ E.IsDir addr) : E.WellFormedTree (some addr) := by
  intro path other hwalk
  rw [walk_of_not_isDir h hwalk]
  exact exact_of_not_isDir h

namespace Table

variable {table : List KnownBlob} (h : Proper table)

theorem properBlobs : ProperBlobs (encoding table h) (blobStore table) := by
  intro addr file hfile
  rw [blobStore, Finmap.dlookup_list_toFinmap] at hfile
  have hmem := List.of_mem_dlookup (Option.mem_def.mpr hfile)
  obtain ⟨blob, hblob, heq⟩ := List.mem_map.mp hmem
  cases heq
  exact ⟨sum_of_mem h hblob, le_rfl⟩

/-- The empty name store over the blobs of the table. -/
def emptyVolume : NameStore := (emptyNameStore (env table h) (blobStore table)).2

/-- Link the requests in a volume without callbacks. -/
def link (requests : List LinkRequest) (s : NameStore) :
    Except Halt (Option LookupResponse) × NameStore :=
  multiLink (env table h) Hooks.none requests false .backend s

/-- The name store over the blobs of the table with this root. -/
def volume (root : BlobAddr) : NameStore := (link h [⟨[], root, [], 0⟩] (emptyVolume h)).2

theorem reachable_emptyVolume
    (hrun : (emptyNameStore (env table h) (blobStore table)).1 = .ok ()) :
    Reachable (env table h) 0 (emptyVolume h) :=
  .empty (properBlobs h) (Prod.ext hrun rfl)

theorem reachable_volume {root : BlobAddr}
    (hrun : (emptyNameStore (env table h) (blobStore table)).1 = .ok ())
    (hlink : Returned (link h [⟨[], root, [], 0⟩] (emptyVolume h)).1) :
    Reachable (env table h) 0 (volume h root) :=
  .link (reachable_emptyVolume h hrun) (Hooks.none_readOnly _) rfl hlink

/-- The metadata of a row. -/
theorem metadataAt_of_mem (blob : KnownBlob) (hblob : blob ∈ table) {addr : BlobAddr}
    {metadata : GNodeMetadata} (haddr : blob.addr = addr) (hkind : blob.kind = .metadata metadata) :
    (encoding table h).MetadataAt addr metadata := by
  refine ⟨blob.data, (sum_of_mem h hblob).trans haddr, ?_⟩
  change unmarshal table 1 BlobKind.asMetadata blob.data = some metadata
  unfold unmarshal
  rw [find?_data h hblob]
  simp only [hkind, BlobKind.asMetadata]

/-- A row of a file names no directory. -/
theorem not_isDir_of_file (blob : KnownBlob) (hblob : blob ∈ table) {addr : BlobAddr}
    {metadata : GNodeMetadata} (haddr : blob.addr = addr) (hkind : blob.kind = .metadata metadata)
    (htype : metadata.type = .file) : ¬ (encoding table h).IsDir addr := by
  rintro ⟨metadata', hmetadata', htype'⟩
  rw [hmetadata'.unique (metadataAt_of_mem h blob hblob haddr hkind), htype] at htype'
  cases htype'

/-- A row of a directory names a directory. -/
theorem isDir_of_directory (blob : KnownBlob) (hblob : blob ∈ table) {addr : BlobAddr}
    {metadata : GNodeMetadata} (haddr : blob.addr = addr) (hkind : blob.kind = .metadata metadata)
    (htype : metadata.type = .directory) : (encoding table h).IsDir addr :=
  ⟨metadata, metadataAt_of_mem h blob hblob haddr hkind, htype⟩

/-- The two rows of a directory. -/
theorem dirAt_of_rows (content blob : KnownBlob) (hcontent : content ∈ table) (hblob : blob ∈ table)
    {addr : BlobAddr} {children : Children} {metadata : GNodeMetadata} (haddr : blob.addr = addr)
    (hentry : content.kind = .directory children)
    (hkind : blob.kind = .metadata metadata) (htype : metadata.type = .directory)
    (hhash : metadata.contentHash = content.addr) (hwf : children.WellFormed) :
    (encoding table h).DirAt addr children := by
  refine ⟨metadata, metadataAt_of_mem h blob hblob haddr hkind, htype,
    ⟨content.data, (sum_of_mem h hcontent).trans hhash.symm, ?_, hwf⟩⟩
  change unmarshal table 0 BlobKind.asDirectory content.data = some _
  unfold unmarshal
  rw [find?_data h hcontent]
  simp only [hentry, BlobKind.asDirectory]

/-- The two rows of a directory with one entry. -/
theorem dirAt_of_entry (content blob : KnownBlob) (hcontent : content ∈ table) (hblob : blob ∈ table)
    {addr child : BlobAddr} {name : GoString} {metadata : GNodeMetadata} (haddr : blob.addr = addr)
    (hentry : content.kind = .directory (.single name child))
    (hkind : blob.kind = .metadata metadata) (htype : metadata.type = .directory)
    (hhash : metadata.contentHash = content.addr) (hcid : IsCid child) :
    (encoding table h).DirAt addr (.single name child) := by
  refine dirAt_of_rows h content blob hcontent hblob haddr hentry hkind htype hhash ?_
  intro other addr hlookup
  rw [Children.lookup_single] at hlookup
  split at hlookup
  next =>
    cases hlookup
    exact hcid
  next => cases hlookup

/-- A directory map given by its entries. -/
theorem wellFormed_toFinmap {entries : List (Σ _ : GoString, BlobAddr)}
    (h : ∀ entry ∈ entries, IsCid entry.2) :
    Children.WellFormed entries.toFinmap := by
  intro name addr hname
  rw [Finmap.dlookup_list_toFinmap] at hname
  exact h ⟨name, addr⟩ (List.of_mem_dlookup (Option.mem_def.mpr hname))

/-! ### A small volume -/

/-- The empty directory, a file, and the directories with that file as their
entry `a` and as their entries `a` and `b`. -/
def smallTable : List KnownBlob :=
  directoryRows "QmSvPd3sHK7iWgZuW47fyLy4CaZQe2DwxvRhrJ39VpBVMK"
      "QmZ4KUwK6CkEiGa6skJmQ1EaLPzwZffTjeRCUDSJGtiV8J" [] ++
    fileRows "QmRN6wdp1S2A5EtjW9A3M1vKSBuQQGcgvuhoMUoEz4iiT5"
      "QmXMd71RUBu5UnkncYmc8YJUX9unQjxZhJXaivhu1zozLT" "hello" ++
    directoryRows "QmZzN78axytj5CBEM4G2tkq117TTVyaDnxBR14CFxYPg4n"
      "QmbyNhhLdM3dUAuqiYFhpDqToXuojbuCeVd4UNS7cEVLgR"
      [("a", "QmXMd71RUBu5UnkncYmc8YJUX9unQjxZhJXaivhu1zozLT")] ++
    directoryRows "QmSHyddtgYKKgoCFqx7qMLJRwTgmE5SpbN1KqTkBtNoAUC"
      "QmWQv3ePo9G8LsmVZqFFSZagY5QuMimbJD7aCvWgis8xKp"
      [("a", "QmXMd71RUBu5UnkncYmc8YJUX9unQjxZhJXaivhu1zozLT"),
        ("b", "QmXMd71RUBu5UnkncYmc8YJUX9unQjxZhJXaivhu1zozLT")]

theorem proper_smallTable : Proper smallTable := by decide +kernel

/-- The address of the file. -/
def smallFile : BlobAddr := "QmXMd71RUBu5UnkncYmc8YJUX9unQjxZhJXaivhu1zozLT".toList

/-- The address of the directory with one entry. -/
def smallDirectory : BlobAddr := "QmbyNhhLdM3dUAuqiYFhpDqToXuojbuCeVd4UNS7cEVLgR".toList

/-- The surroundings of the small volume. -/
abbrev smallEnv : Env := env smallTable proper_smallTable

/-- The small volume, with the entry `a`. -/
abbrev smallVolume : NameStore := volume proper_smallTable smallDirectory

theorem reachable_smallVolume : Reachable smallEnv 0 smallVolume :=
  reachable_volume proper_smallTable (by decide +kernel) (by decide +kernel)

theorem isDir_smallVolume : smallEnv.IsDir smallVolume.rootAddr := by
  have hroot : smallVolume.rootAddr = smallDirectory := by decide +kernel
  rw [hroot]
  exact isDir_of_directory proper_smallTable smallTable[5] (List.getElem_mem _) rfl rfl rfl

theorem wellFormedTree_smallFile : smallEnv.WellFormedTree (some smallFile) :=
  Encoding.wellFormedTree_of_not_isDir
    (not_isDir_of_file proper_smallTable smallTable[3] (List.getElem_mem _) rfl rfl rfl)

/-! ### Short words

Tables whose blobs are single bytes and whose hashes are three letters are run fast. -/

/-- The two blobs of a directory. -/
def shortDirectory (content addr : Char) (mode : UInt32) (entries : List (Char × GoString)) :
    List KnownBlob :=
  [⟨[UInt8.ofNat content.toNat], ['Q', 'm', content], .directory
      (entries.map fun entry => (⟨[entry.1], entry.2⟩ : Σ _ : GoString, BlobAddr)).toFinmap⟩,
    ⟨[UInt8.ofNat addr.toNat], ['Q', 'm', addr],
      .metadata ⟨.directory, 1, ['Q', 'm', content], mode, []⟩⟩]

/-- The two blobs of a file. -/
def shortFile (content addr : Char) : List KnownBlob :=
  [⟨[UInt8.ofNat content.toNat], ['Q', 'm', content], .content⟩,
    ⟨[UInt8.ofNat addr.toNat], ['Q', 'm', addr],
      .metadata ⟨.file, 1, ['Q', 'm', content], 0o644, []⟩⟩]

/-- The empty directory, a file, and the directory with that file as its entry `a`. -/
def shortTable : List KnownBlob :=
  shortDirectory 'e' 'E' 0o755 [] ++ shortFile 'f' 'F' ++
    shortDirectory 'd' 'D' 0o755 [('a', ['Q', 'm', 'F'])]

theorem proper_shortTable : Proper shortTable := by decide +kernel

/-- Surroundings in which every time of day is the empty text. -/
abbrev shortEnv (table : List KnownBlob) (h : Proper table) : Env :=
  { env table h with rfc3339 := fun _ => [] }

/-- The empty name store over these blobs. -/
def shortEmpty (blobs : Finmap fun _ : BlobAddr => LocalCachedFile) : NameStore :=
  (emptyNameStore (shortEnv table h) blobs).2

/-- The name store over the blobs of the table with this root. -/
def shortVolume (root : BlobAddr) : NameStore :=
  (multiLink (shortEnv table h) Hooks.none [⟨[], root, [], 0⟩] false .backend
    (shortEmpty h (blobStore table))).2

theorem reachable_shortEmpty {blobs : Finmap fun _ : BlobAddr => LocalCachedFile}
    (hblobs : ProperBlobs (encoding table h) blobs)
    (hrun : (emptyNameStore (shortEnv table h) blobs).1 = .ok ()) :
    Reachable (shortEnv table h) 0 (shortEmpty h blobs) :=
  .empty hblobs (Prod.ext hrun rfl)

theorem reachable_shortVolume {root : BlobAddr}
    (hrun : (emptyNameStore (shortEnv table h) (blobStore table)).1 = .ok ())
    (hlink : Returned (multiLink (shortEnv table h) Hooks.none [⟨[], root, [], 0⟩] false .backend
      (shortEmpty h (blobStore table))).1) :
    Reachable (shortEnv table h) 0 (shortVolume h root) :=
  .link (reachable_shortEmpty h (properBlobs h) hrun) (Hooks.none_readOnly _) rfl hlink

example : (shortVolume proper_shortTable ['Q', 'm', 'D']).rootAddr = ['Q', 'm', 'D'] := by
  decide +kernel

end Table

end Grits
