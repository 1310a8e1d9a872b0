import Grits.NameStore.Labels

/-!
# The attributes of rebuilt directories

A link replaces every directory above the place it writes, and `createMetadataBlob` gives
each new one the mode `0755`: the old mode, which `Setattr` of a mount can set, is lost.
-/

namespace Grits

open Prog

variable {E : Env} {H : Hooks} {holders : Multiset BlobAddr} {s t : NameStore}

/-- Over a batch that does not replace it, a directory is a new one if a request went
through it, and else the old one. -/
theorem LinkedAll.walk_dir {E : Encoding} {requests : List LinkRequest}
    {old new : Option BlobAddr} (h : LinkedAll E requests old new) {dir : List GoString}
    {addr : BlobAddr} (hold : E.walk old dir = some addr)
    (hkept : ∀ request ∈ requests, ¬ request.segments <+: dir) :
    ∃ addr', E.walk new dir = some addr' ∧
      ((∃ request ∈ requests, dir <+: request.segments) → E.MadeDirectory addr') ∧
      ((∀ request ∈ requests, ¬ dir <+: request.segments) → addr' = addr) := by
  induction requests generalizing old addr with
  | nil =>
      rw [LinkedAll] at h
      subst h
      refine ⟨addr, hold, ?_, fun _ => rfl⟩
      rintro ⟨request, hrequest, -⟩
      cases hrequest
  | cons request requests ih =>
      obtain ⟨middle, hfirst, hrest⟩ := h
      obtain ⟨next, hnext, hmade, hsame⟩ :=
        hfirst.rebuilt.walk hold (hkept request List.mem_cons_self)
      obtain ⟨addr', hnew, hmade', hsame'⟩ := ih hrest hnext fun other hother =>
        hkept other (List.mem_cons_of_mem _ hother)
      refine ⟨addr', hnew, ?_, ?_⟩
      · rintro ⟨other, hother, hprefix⟩
        by_cases hlater : ∃ later ∈ requests, dir <+: later.segments
        · exact hmade' hlater
        · -- nothing after the first request touches the directory
          rw [hsame' fun later hmem habove => hlater ⟨later, hmem, habove⟩]
          rcases List.mem_cons.mp hother with rfl | hother
          · exact hmade hprefix
          · exact absurd ⟨other, hother, hprefix⟩ hlater
      · intro hnone
        rw [hsame' fun later hmem => hnone later (List.mem_cons_of_mem _ hmem)]
        exact hsame (hnone request List.mem_cons_self)

/-- The path leads to a node of this type and mode. -/
def AttributesAt (E : Encoding) (root : BlobAddr) (dir : List GoString) (type : GNodeType)
    (mode : UInt32) : Prop :=
  ∃ addr metadata, E.walk (some root) dir = some addr ∧ E.MetadataAt addr metadata ∧
    metadata.type = type ∧ metadata.mode = mode

theorem AttributesAt.unique {E : Encoding} {root : BlobAddr} {dir : List GoString}
    {type type' : GNodeType} {mode mode' : UInt32} (h : AttributesAt E root dir type mode)
    (h' : AttributesAt E root dir type' mode') : mode = mode' := by
  obtain ⟨addr, metadata, hwalk, hmetadata, -, rfl⟩ := h
  obtain ⟨addr', metadata', hwalk', hmetadata', -, rfl⟩ := h'
  rw [hwalk] at hwalk'
  cases hwalk'
  rw [hmetadata.unique hmetadata']

/-- A directory above a requested path, not itself replaced or removed, keeps its type and
its mode if and only if the mode is `0755`. -/
theorem multiLink_keepsAttributes_iff (hdense : E.sparse = false) (hs : Reachable E holders s)
    (hH : H.ReadOnly E.toEncoding) {requests : List LinkRequest} {returnResults : Bool}
    {principal : PrincipalRef} {response : Option LookupResponse}
    (hrun : multiLink E H requests returnResults principal s = (.ok response, t))
    {dir : List GoString} {mode : UInt32}
    (hdir : AttributesAt E.toEncoding s.rootAddr dir .directory mode)
    (habove : ∃ request ∈ requests, dir <+: request.segments)
    (hkept : ∀ request ∈ requests, ¬ request.segments <+: dir) :
    AttributesAt E.toEncoding t.rootAddr dir .directory mode ↔ mode = 0o755 := by
  obtain ⟨-, hlinked, -⟩ := wp_of_run
    (multiLink_spec hdense hH (hs.inv hdense) requests returnResults principal) hrun
  obtain ⟨addr, metadata, hwalk, hmetadata, htype, hmode⟩ := hdir
  obtain ⟨addr', hwalk', hmade, -⟩ := hlinked.walk_dir hwalk hkept
  obtain ⟨metadata', hmetadata', htype', hmode'⟩ := hmade habove
  constructor
  · rintro ⟨other, metadata'', hother, hmetadata'', -, hsame⟩
    rw [hwalk'] at hother
    cases hother
    rw [← hsame, hmetadata''.unique hmetadata', hmode']
  · intro hmode755
    exact ⟨addr', metadata', hwalk', hmetadata', htype', by rw [hmode', hmode755]⟩

namespace Table

/-- A file, directories with the modes `0755` and `0700` and no entries, and one with the
file as its entry `a`. -/
def modesTable : List KnownBlob :=
  shortDirectory 'e' 'E' 0o755 [] ++ shortFile 'f' 'F' ++
    shortDirectory 'd' 'D' 0o755 [('a', ['Q', 'm', 'F'])] ++
    [⟨[112], ['Q', 'm', 'P'], .metadata ⟨.directory, 1, ['Q', 'm', 'e'], 0o700, []⟩⟩]

theorem proper_modesTable : Proper modesTable := by decide +kernel

abbrev modesEnv : Env := shortEnv modesTable proper_modesTable

/-- The volume whose root has this mode and no entries. -/
abbrev modesVolume (root : BlobAddr) : NameStore := shortVolume proper_modesTable root

/-- The link of the file as the entry `a`. -/
def modesLink : Op (Option LookupResponse) :=
  multiLink modesEnv Hooks.none [⟨['a'], ['Q', 'm', 'F'], [], 0⟩] false .backend

/-- The attributes in a row that describes the root. -/
theorem attributesAt_root {table : List KnownBlob} (h : Proper table) {root : BlobAddr}
    (blob : KnownBlob) (hblob : blob ∈ table) {metadata : GNodeMetadata}
    (hroot : root = blob.addr)
    (hkind : blob.kind = .metadata metadata) {type : GNodeType} (htype : metadata.type = type)
    {mode : UInt32} (hmode : metadata.mode = mode) :
    AttributesAt (shortEnv table h).toEncoding root [] type mode :=
  ⟨root, metadata, rfl, metadataAt_of_mem h blob hblob hroot.symm hkind, htype, hmode⟩

end Table

/-- A link into a directory with the mode `0755`. -/
theorem multiLink_keepsAttributes_0755 :
    ∃ t, Table.modesLink (Table.modesVolume ['Q', 'm', 'E']) = (.ok none, t) ∧
      AttributesAt Table.modesEnv.toEncoding t.rootAddr [] .directory 0o755 := by
  have hresult : (Table.modesLink (Table.modesVolume ['Q', 'm', 'E'])).1 = .ok none := by
    decide +kernel
  have hroot : (Table.modesVolume ['Q', 'm', 'E']).rootAddr = ['Q', 'm', 'E'] := by decide +kernel
  have hreachable : Reachable Table.modesEnv 0 (Table.modesVolume ['Q', 'm', 'E']) :=
    Table.reachable_shortVolume Table.proper_modesTable (by decide +kernel) (by decide +kernel)
  have hdir : AttributesAt Table.modesEnv.toEncoding (Table.modesVolume ['Q', 'm', 'E']).rootAddr
      [] .directory 0o755 :=
    Table.attributesAt_root Table.proper_modesTable Table.modesTable[1] (List.getElem_mem _) hroot
      rfl rfl rfl
  have hrun := run_eq hresult
  refine ⟨_, hrun, (multiLink_keepsAttributes_iff rfl hreachable (Hooks.none_readOnly _) hrun hdir
    ?_ ?_).mpr rfl⟩
  · exact ⟨_, List.mem_singleton.mpr rfl, List.nil_prefix⟩
  · intro request hrequest
    rw [List.mem_singleton.mp hrequest]
    decide

/-- A link into a directory with the mode `0700` makes it `0755`. -/
theorem multiLink_losesMode :
    ∃ t, Reachable Table.modesEnv 0 (Table.modesVolume ['Q', 'm', 'P']) ∧
      AttributesAt Table.modesEnv.toEncoding (Table.modesVolume ['Q', 'm', 'P']).rootAddr []
        .directory 0o700 ∧
      Table.modesLink (Table.modesVolume ['Q', 'm', 'P']) = (.ok none, t) ∧
      ¬ AttributesAt Table.modesEnv.toEncoding t.rootAddr [] .directory 0o700 := by
  have hresult : (Table.modesLink (Table.modesVolume ['Q', 'm', 'P'])).1 = .ok none := by
    decide +kernel
  have hold : (Table.modesVolume ['Q', 'm', 'P']).rootAddr = ['Q', 'm', 'P'] := by decide +kernel
  have hnew : (Table.modesLink (Table.modesVolume ['Q', 'm', 'P'])).2.rootAddr =
      ['Q', 'm', 'D'] := by decide +kernel
  have hdir : AttributesAt Table.modesEnv.toEncoding (Table.modesVolume ['Q', 'm', 'P']).rootAddr
      [] .directory 0o700 :=
    Table.attributesAt_root Table.proper_modesTable Table.modesTable[6] (List.getElem_mem _) hold
      rfl rfl rfl
  have hdir' : AttributesAt Table.modesEnv.toEncoding
      (Table.modesLink (Table.modesVolume ['Q', 'm', 'P'])).2.rootAddr [] .directory 0o755 :=
    Table.attributesAt_root Table.proper_modesTable Table.modesTable[5] (List.getElem_mem _) hnew
      rfl rfl rfl
  have hreachable : Reachable Table.modesEnv 0 (Table.modesVolume ['Q', 'm', 'P']) :=
    Table.reachable_shortVolume Table.proper_modesTable (by decide +kernel) (by decide +kernel)
  refine ⟨_, hreachable, hdir, run_eq hresult, fun hkept => ?_⟩
  exact absurd (hkept.unique hdir') (by decide)

end Grits
