import Grits.BlobStore.Safety
import Grits.Library.SlashPath

/-!
# Opening the directory of a blob store again

The path of a blob is its address with two separators in it, and the scan of the
directory takes them out again.  What it finds are the blobs of the store that
wrote the directory, with their sizes, and with the expiry times that `Touch` has
written.  A blob that nobody has touched has no expiry time in memory; its file
has the time at which it was written.
-/

namespace Grits

namespace BlobStore

open Runs

variable {H : BlobHash} {bs bs' : LocalBlobStore} {held : Multiset ℕ} {id : ℕ}
  {addr other : BlobAddr} {file : LocalCachedFile} {u w : Usage}

/-! ## Addresses and paths -/

/-- The characters of base58. -/
def base58 : GoString := "123456789ABCDEFGHJKLMNPQRSTUVWXYZabcdefghijkmnopqrstuvwxyz".toList

/-- A CID of version 0: the 34 bytes of a SHA2-256 multihash in base58. -/
structure ValidCid (addr : BlobAddr) : Prop where
  isCid : IsCid addr
  length : addr.length = 46
  chars : ∀ c ∈ addr, c ∈ base58

/-- The path of a blob relative to the directory of the store. -/
def relativePath (addr : BlobAddr) : GoString := SlashPath.join (blobToPath addr)

theorem ValidCid.blobToPath_eq (h : ValidCid addr) :
    blobToPath addr = [addr.take 3, (addr.drop 3).take 1, addr.drop 4] := by
  rw [blobToPath, h.length]
  rfl

theorem ValidCid.subset (h : ValidCid addr) {name : GoString} (hname : name ∈ blobToPath addr) :
    name ≠ [] ∧ ∀ c ∈ name, c ∈ base58 := by
  have hlength := h.length
  rw [h.blobToPath_eq, List.mem_cons, List.mem_cons, List.mem_singleton] at hname
  rcases hname with rfl | rfl | rfl
  · refine ⟨fun hnil => ?_, fun c hc => h.chars c (List.mem_of_mem_take hc)⟩
    have := congrArg List.length hnil
    simp [hlength] at this
  · refine ⟨fun hnil => ?_, fun c hc => h.chars c (List.mem_of_mem_drop (List.mem_of_mem_take hc))⟩
    have := congrArg List.length hnil
    simp [hlength] at this
  · refine ⟨fun hnil => ?_, fun c hc => h.chars c (List.mem_of_mem_drop hc)⟩
    have := congrArg List.length hnil
    simp [hlength] at this

theorem ValidCid.names (h : ValidCid addr) : SlashPath.Names (blobToPath addr) := by
  intro name hname
  refine ⟨(h.subset hname).1, fun hslash => ?_⟩
  exact absurd ((h.subset hname).2 '/' hslash) (by decide)

/-- `filepath.Join` and `filepath.Rel` leave the path as it is. -/
theorem ValidCid.clean_relativePath (h : ValidCid addr) :
    SlashPath.clean (relativePath addr) = relativePath addr := by
  have hne : blobToPath addr ≠ [] := by
    rw [h.blobToPath_eq]
    nofun
  refine (SlashPath.settled_of_no_dots fun name hname => ⟨?_, ?_⟩).clean_join h.names hne
  · rintro rfl
    exact absurd ((h.subset hname).2 '.' List.mem_cons_self) (by decide)
  · rintro rfl
    exact absurd ((h.subset hname).2 '.' List.mem_cons_self) (by decide)

/-- Taking the separators out of joined names. -/
theorem filter_join {parts : List GoString} (h : SlashPath.Names parts) :
    (SlashPath.join parts).filter (· ≠ '/') = parts.flatten := by
  have hname : ∀ name ∈ parts, name.filter (· ≠ '/') = name := by
    intro name hmem
    rw [List.filter_eq_self]
    intro c hc
    rw [decide_eq_true_eq]
    rintro rfl
    exact (h name hmem).2 hc
  induction parts with
  | nil => rfl
  | cons name rest ih =>
      have hrest := ih (fun other hother => h other (List.mem_cons_of_mem _ hother))
        fun other hother => hname other (List.mem_cons_of_mem _ hother)
      cases rest with
      | nil =>
          rw [SlashPath.join_singleton, hname name List.mem_cons_self, List.flatten_singleton]
      | cons next rest =>
          rw [SlashPath.join_cons_cons, List.filter_append, List.filter_cons_of_neg (by simp),
            hname name List.mem_cons_self, hrest]
          rfl

/-- `strings.ReplaceAll(relativePath, string(filepath.Separator), "")` -/
theorem ValidCid.filter_relativePath (h : ValidCid addr) :
    (relativePath addr).filter (· ≠ '/') = addr := by
  rw [relativePath, filter_join h.names, flatten_blobToPath]

/-- No blob is in a directory that is the path of another blob. -/
theorem ValidCid.eq_of_prefix (h : ValidCid addr) (h' : ValidCid other)
    (hpath : blobToPath addr <+: blobToPath other) : addr = other := by
  apply blobToPath_injective
  apply hpath.eq_of_length
  rw [h.blobToPath_eq, h'.blobToPath_eq]
  rfl

/-! ## What the disk says of the blobs -/

/-- The file of each blob in the map has its size, and its expiry time where it has one. -/
def Recorded (bs : LocalBlobStore) : Prop :=
  ∀ addr id file, bs.files.lookup addr = some id → bs.heap[id]? = some file →
    ∃ disk, bs.disk.files.lookup (blobToPath addr) = some disk ∧ file.size = disk.data.length ∧
      ∀ time, file.expiresAt = some time → disk.modTime = time

/-- A write that changes neither sizes nor times. -/
theorem Recorded.update (h : Recorded bs) {f : LocalCachedFile → LocalCachedFile}
    (hsize : ∀ file, (f file).size = file.size)
    (htime : ∀ file, (f file).expiresAt = file.expiresAt) : Recorded (bs.update id f) := by
  intro addr other file hentry hfile
  rw [getElem?_update] at hfile
  split at hfile
  case isTrue heq =>
    obtain ⟨before, hbefore, rfl⟩ := Option.map_eq_some_iff.mp hfile
    rw [hsize, htime]
    exact h addr other before hentry hbefore
  case isFalse => exact h addr other file hentry hfile

theorem Recorded.take (h : Recorded bs) (id : ℕ) : Recorded (bs.take id) :=
  h.update (fun _ => rfl) fun _ => rfl

theorem Recorded.addNew (h : Recorded bs) (hbs : Consistent H bs held) (addr : BlobAddr)
    (disk : DiskFile) : Recorded (bs.addNew addr disk).2 := by
  intro other id file hentry hfile
  change (bs.files.insert addr bs.heap.length).lookup other = some id at hentry
  change (bs.heap ++ [_])[id]? = some file at hfile
  change ∃ found, (bs.disk.files.insert (blobToPath addr) disk).lookup (blobToPath other) =
    some found ∧ _
  by_cases hother : other = addr
  · subst hother
    rw [Finmap.lookup_insert] at hentry
    cases hentry
    rw [List.getElem?_concat_length] at hfile
    cases hfile
    exact ⟨disk, Finmap.lookup_insert _, rfl, nofun⟩
  · rw [Finmap.lookup_insert_of_ne _ hother] at hentry
    rw [Finmap.lookup_insert_of_ne _ fun hpath => hother (blobToPath_injective hpath)]
    obtain ⟨before, hbefore, -⟩ := hbs.entry other id hentry
    rw [List.getElem?_append_left (List.getElem?_eq_some_iff.mp hbefore).1] at hfile
    exact h other id file hentry hfile

theorem Recorded.add (h : Recorded bs) (hbs : Consistent H bs held) (disk : DiskFile)
    (hrun : (match bs.files.lookup (H.sum disk.data) with
      | some id => (id, bs.take id)
      | none => bs.addNew (H.sum disk.data) disk) = (id, bs')) : Recorded bs' := by
  have hsnd := congrArg Prod.snd hrun
  cases hentry : bs.files.lookup (H.sum disk.data) with
  | some found =>
      rw [hentry] at hsnd
      have hbs' : bs.take found = bs' := hsnd
      exact hbs' ▸ h.take found
  | none =>
      rw [hentry] at hsnd
      have hbs' : (bs.addNew (H.sum disk.data) disk).2 = bs' := hsnd
      exact hbs' ▸ h.addNew hbs _ disk

theorem Recorded.discard (h : Recorded bs) (hpath : file.path = blobToPath file.address) :
    Recorded (bs.discard file) := by
  intro addr id cached hentry hcached
  change (bs.files.erase file.address).lookup addr = some id at hentry
  change ∃ disk, (((bs.disk.removeFile file.path).tryRmdirParents file.path).files).lookup
    (blobToPath addr) = some disk ∧ _
  have hne : addr ≠ file.address := by
    rintro rfl
    rw [Finmap.lookup_erase] at hentry
    cases hentry
  rw [Finmap.lookup_erase_ne hne] at hentry
  rw [Disk.files_tryRmdirParents, hpath]
  change ∃ disk, (bs.disk.files.erase (blobToPath file.address)).lookup (blobToPath addr) =
    some disk ∧ _
  rw [Finmap.lookup_erase_ne fun heq => hne (blobToPath_injective heq)]
  exact h addr id cached hentry hcached

/-- The path and the place of a cached file in the map. -/
theorem Consistent.path_eq (h : Consistent H bs held) (hentry : bs.files.lookup file.address = some id)
    (hfile : bs.heap[id]? = some file) : file.path = blobToPath file.address := by
  obtain ⟨file', hfile', -, hpath⟩ := h.entry file.address id hentry
  cases hfile.symm.trans hfile'
  exact hpath

theorem Recorded.release (h : Recorded bs) (hbs : Consistent H bs held) (hid : id ∈ held) {now : ℤ}
    (hrun : bs.release id now = .ok bs') : Recorded bs' := by
  obtain ⟨file, hfile, -, hentry⟩ := hbs.exists_file hid
  have hpath := hbs.path_eq hentry hfile
  have hupdated : Recorded
      (bs.update id fun file => { file with refCount := file.refCount - 1 }) :=
    h.update (fun _ => rfl) fun _ => rfl
  unfold LocalBlobStore.release at hrun
  rw [hfile] at hrun
  simp only at hrun
  split at hrun
  next => cases hrun
  next =>
    split at hrun
    next =>
      cases hrun
      exact hupdated
    next =>
      split at hrun
      next =>
        cases hrun
        exact hupdated.discard hpath
      next =>
        cases hrun
        exact hupdated

theorem Recorded.touch (h : Recorded bs) (hbs : Consistent H bs held) (hid : id ∈ held)
    (now duration : ℤ) : Recorded (bs.touch id now duration) := by
  obtain ⟨file, hfile, -, hentry⟩ := hbs.exists_file hid
  have hpath := hbs.path_eq hentry hfile
  obtain ⟨disk, hdisk, hsize, -⟩ := h file.address id file hentry hfile
  unfold LocalBlobStore.touch
  rw [hfile]
  intro addr other cached hother hcached
  change (bs.update id _).heap[other]? = some cached at hcached
  change ∃ found, (bs.disk.chtimes file.path (now + duration)).files.lookup (blobToPath addr) =
    some found ∧ _
  have hfiles : (bs.disk.chtimes file.path (now + duration)).files =
      bs.disk.files.insert (blobToPath file.address) { disk with modTime := now + duration } := by
    unfold Disk.chtimes
    rw [hpath, hdisk]
  rw [hfiles]
  rw [getElem?_update] at hcached
  by_cases haddr : addr = file.address
  · subst haddr
    cases hentry.symm.trans hother
    rw [if_pos rfl, hfile] at hcached
    cases hcached
    refine ⟨_, Finmap.lookup_insert _, hsize, fun time htime => ?_⟩
    exact Option.some.inj htime
  · have hne : id ≠ other := by
      rintro rfl
      obtain ⟨file', hfile', heq, -⟩ := hbs.entry addr id hother
      cases hfile.symm.trans hfile'
      exact haddr heq.symm
    rw [if_neg hne] at hcached
    rw [Finmap.lookup_insert_of_ne _ fun heq => haddr (blobToPath_injective heq)]
    exact h addr other cached hother hcached

theorem Recorded.evictAt (h : Recorded bs) (hbs : Consistent H bs held) (now : ℤ)
    (addr : BlobAddr) : Recorded (bs.evictAt now addr) := by
  unfold LocalBlobStore.evictAt
  cases hentry : bs.files.lookup addr with
  | none => exact h
  | some found =>
      obtain ⟨file, hfile, rfl, hpath⟩ := hbs.entry addr found hentry
      simp only [hfile]
      split
      · exact h
      · split
        · exact h.discard hpath
        · exact h

theorem Recorded.evictOldFiles (h : Recorded bs) (hbs : Consistent H bs held) (now : ℤ)
    (order : List BlobAddr) : Recorded (bs.evictOldFiles now order) := by
  induction order generalizing bs with
  | nil => exact h
  | cons addr order ih => exact ih (h.evictAt hbs now addr) (hbs.evictAt now addr).1

/-! ## The scan -/

/-- Every blob in the map is as its file says. -/
def Loaded (disk : Disk) (bs : LocalBlobStore) : Prop :=
  ∀ addr id, bs.files.lookup addr = some id → ∃ found,
    disk.files.lookup (blobToPath addr) = some found ∧
      bs.heap[id]? =
        some ⟨blobToPath addr, 0, addr, found.data.length, some found.modTime⟩

theorem Loaded.scanFile {disk : Disk} (h : Loaded disk bs) (hproper : Proper H disk)
    (hdisk : bs.disk = disk) {validateBlobs : Bool} {path : Path} (hpath : path ∈ disk.files)
    (hscan : bs.scanFile H validateBlobs path = some bs') : Loaded disk bs' ∧ bs'.disk = disk := by
  obtain ⟨found, hfound⟩ := Finmap.mem_iff.mp hpath
  rw [scanFile_eq hproper hdisk validateBlobs hfound] at hscan
  cases hscan
  refine ⟨fun addr id hentry => ?_, hdisk⟩
  change (bs.files.insert _ bs.heap.length).lookup addr = some id at hentry
  change ∃ found', _ ∧ (bs.heap ++ [_])[id]? = _
  have heq := hproper.path path found hfound
  by_cases haddr : addr = H.sum found.data
  · subst haddr
    rw [Finmap.lookup_insert] at hentry
    cases hentry
    rw [← heq]
    exact ⟨found, hfound, List.getElem?_concat_length⟩
  · rw [Finmap.lookup_insert_of_ne _ haddr] at hentry
    obtain ⟨before, hbefore, hfile⟩ := h addr id hentry
    refine ⟨before, hbefore, ?_⟩
    rw [List.getElem?_append_left (List.getElem?_eq_some_iff.mp hfile).1]
    exact hfile

theorem Loaded.foldlM {disk : Disk} (h : Loaded disk bs) (hproper : Proper H disk)
    (hdisk : bs.disk = disk) {validateBlobs : Bool} {order : List Path}
    (horder : ∀ path ∈ order, path ∈ disk.files)
    (hscan : order.foldlM (LocalBlobStore.scanFile H validateBlobs) bs = some bs') :
    Loaded disk bs' ∧ bs'.disk = disk := by
  induction order generalizing bs with
  | nil =>
      cases hscan
      exact ⟨h, hdisk⟩
  | cons path order ih =>
      rw [List.foldlM_cons] at hscan
      obtain ⟨middle, hmiddle, hrest⟩ := Option.bind_eq_some_iff.mp hscan
      obtain ⟨hloaded, hsame⟩ := h.scanFile hproper hdisk (horder path List.mem_cons_self) hmiddle
      exact ih hloaded hsame (fun other hother => horder other (List.mem_cons_of_mem path hother))
        hrest

theorem loaded_newLocalBlobStore {disk : Disk} (hproper : Proper H disk) {validateBlobs : Bool}
    {order : List Path} (horder : (order : Multiset Path) = disk.files.keys.val)
    (hrun : LocalBlobStore.newLocalBlobStore H validateBlobs order disk = some bs) :
    Loaded disk bs ∧ bs.disk = disk := by
  have hempty : Loaded disk ⟨∅, [], disk⟩ := by
    intro addr id hentry
    cases hentry
  refine hempty.foldlM hproper rfl (fun path hpath => ?_) hrun
  rwa [← Finmap.mem_keys, ← Finset.mem_val, ← horder, Multiset.mem_coe]

theorem opened_recorded (h : Opened H u) : Recorded u.store := by
  obtain ⟨validateBlobs, disk, order, hproper, horder, hrun⟩ := h.store
  obtain ⟨hloaded, hdisk⟩ := loaded_newLocalBlobStore hproper horder hrun
  intro addr id file hentry hfile
  obtain ⟨found, hfound, hcached⟩ := hloaded addr id hentry
  cases hcached.symm.trans hfile
  rw [hdisk]
  exact ⟨found, hfound, rfl, fun time htime => Option.some.inj htime⟩

/-! ## Runs -/

theorem Recorded.step (h : Recorded u.store) (hu : Running H u) (hstep : Step H u w) :
    Recorded w.store := by
  have hconsistent := hu.consistent
  cases hstep with
  | readFile hrun =>
      obtain ⟨rfl, -⟩ := hconsistent.readFile hrun
      exact h.take _
  | @readFileElsewhere addr bs hrun =>
      unfold LocalBlobStore.readFile at hrun
      split at hrun
      next => cases hrun
      next =>
        cases hrun
        exact h
  | @addReader data written id bs hrun => exact h.add hconsistent ⟨data, written⟩ hrun
  | @addLocalFile data written id bs hrun => exact h.add hconsistent ⟨data, written⟩ hrun
  | @addDataBlock data id bs hrun => exact h.add hconsistent ⟨data, u.clock⟩ hrun
  | take hheld => exact h.take _
  | release hheld hrun => exact h.release hconsistent hheld hrun
  | touch hheld => exact h.touch hconsistent hheld _ _
  | evictOldFiles => exact h.evictOldFiles hconsistent _ _
  | tick => exact h

/-- What the scan of a directory finds of the store that wrote it. -/
structure Rescanned (bs bs' : LocalBlobStore) : Prop where
  addresses : ∀ addr, addr ∈ bs'.files ↔ addr ∈ bs.files
  blobs : ∀ addr id file, bs.files.lookup addr = some id → bs.heap[id]? = some file →
    ∃ id' file', bs'.files.lookup addr = some id' ∧ bs'.heap[id']? = some file' ∧
      file'.address = addr ∧ file'.path = file.path ∧ file'.size = file.size ∧
      file'.refCount = 0 ∧
      (∀ time, file.expiresAt = some time → file'.expiresAt = some time) ∧
      (file.expiresAt = none → ∃ disk, bs.disk.files.lookup (blobToPath addr) = some disk ∧
        file'.expiresAt = some disk.modTime)

theorem Consistent.proper (h : Consistent H bs held) : Proper H bs.disk where
  rooted := h.rooted
  path := by
    intro path file hfile
    obtain ⟨addr, haddr, rfl⟩ := h.known path (Finmap.mem_of_lookup_eq_some hfile)
    obtain ⟨found, hfound, hsum⟩ := h.stored addr haddr
    cases hfile.symm.trans hfound
    rw [hsum]

theorem Consistent.rescanned (h : Consistent H bs held) (hrecorded : Recorded bs)
    (validateBlobs : Bool) {order : List Path}
    (horder : (order : Multiset Path) = bs.disk.files.keys.val) :
    ∃ bs', LocalBlobStore.newLocalBlobStore H validateBlobs order bs.disk = some bs' ∧
      Rescanned bs bs' := by
  have hmem : ∀ path, path ∈ order ↔ path ∈ bs.disk.files := by
    intro path
    rw [← Finmap.mem_keys, ← Finset.mem_val, ← horder, Multiset.mem_coe]
  obtain ⟨bs', hscan, hscanned⟩ := (scanned_empty bs.disk).foldlM h.proper validateBlobs
    fun path hpath => (hmem path).mp hpath
  obtain ⟨hloaded, -⟩ := loaded_newLocalBlobStore h.proper horder hscan
  have haddresses : ∀ addr, addr ∈ bs'.files ↔ addr ∈ bs.files := by
    intro addr
    constructor
    · intro haddr
      obtain ⟨found, hfound, -⟩ := hscanned.stored addr haddr
      obtain ⟨other, hother, hpath⟩ := h.known _ (Finmap.mem_of_lookup_eq_some hfound)
      rwa [blobToPath_injective hpath]
    · intro haddr
      obtain ⟨found, hfound, -⟩ := h.stored addr haddr
      have hpath := (hmem _).mpr (Finmap.mem_of_lookup_eq_some hfound)
      obtain ⟨other, hother, hpath⟩ := hscanned.known (blobToPath addr) (by simp [hpath])
      rwa [blobToPath_injective hpath]
  refine ⟨bs', hscan, haddresses, fun addr id file hentry hfile => ?_⟩
  obtain ⟨disk, hdisk, hsize, htime⟩ := hrecorded addr id file hentry hfile
  obtain ⟨id', hentry'⟩ :=
    Finmap.mem_iff.mp ((haddresses addr).mpr (Finmap.mem_of_lookup_eq_some hentry))
  obtain ⟨found, hfound, hfile'⟩ := hloaded addr id' hentry'
  cases hdisk.symm.trans hfound
  obtain ⟨file'', hfile'', -, hpath⟩ := h.entry addr id hentry
  cases hfile.symm.trans hfile''
  refine ⟨id', _, hentry', hfile', rfl, hpath.symm, hsize.symm, rfl, fun time hexpires => ?_,
    fun _ => ⟨disk, hdisk, rfl⟩⟩
  rw [htime time hexpires]

/-- The paths of blobs can be read back, and after any run a scan of the directory finds the
blobs of the store again, with the expiry times of those that were touched. -/
theorem rescan_rebuilds {past : List Usage} (h : Run (Opened H) (Step H) past u)
    (validateBlobs : Bool) {order : List Path}
    (horder : (order : Multiset Path) = u.store.disk.files.keys.val) :
    (∀ addr other, ValidCid addr → ValidCid other →
      (relativePath addr).filter (· ≠ '/') = addr ∧
        (relativePath addr = relativePath other → addr = other) ∧
        (blobToPath addr <+: blobToPath other → addr = other)) ∧
    ∃ bs, LocalBlobStore.newLocalBlobStore H validateBlobs order u.store.disk = some bs ∧
      Rescanned u.store bs := by
  have hinv : Running H u ∧ Recorded u.store :=
    h.invariant (I := fun u => Running H u ∧ Recorded u.store) (fun _ hopened => ⟨opened_running hopened, opened_recorded hopened⟩)
      fun _ _ hs hstep => ⟨hs.1.step hstep, hs.2.step hs.1 hstep⟩
  refine ⟨fun addr other hcid hcid' => ⟨hcid.filter_relativePath, fun hpath => ?_,
    hcid.eq_of_prefix hcid'⟩, hinv.1.consistent.rescanned hinv.2 validateBlobs horder⟩
  rw [← hcid.filter_relativePath, hpath, hcid'.filter_relativePath]

/-! ## A blob that is touched, and one that is not -/

/-- One blob is added to an empty store, at the time 7. -/
def addedStore : LocalBlobStore :=
  (LocalBlobStore.addDataBlock helloHash helloData 7 ⟨∅, [], ⟨∅, ∅⟩⟩).2

theorem run_added : ∃ past, Run (Opened helloHash) (Step helloHash) past
    ⟨addedStore, {0}, 7, []⟩ := by
  let start : Usage := ⟨⟨∅, [], ⟨∅, ∅⟩⟩, 0, 7, []⟩
  have hopened : Opened helloHash start := by
    refine ⟨⟨true, ⟨∅, ∅⟩, [], ⟨?_, ?_⟩, rfl, rfl⟩, rfl, rfl⟩
    · exact fun path hpath => absurd hpath Finmap.notMem_empty
    · rintro path file ⟨⟩
  exact ⟨_, (Run.start hopened).step (@Step.addDataBlock helloHash start helloData 0 _ rfl)⟩

theorem rescan_rebuilds_touched : ∃ past u, Run (Opened helloHash) (Step helloHash) past u ∧
    (u.store.heap.map LocalCachedFile.expiresAt) = [some 67] ∧
    ∃ bs, LocalBlobStore.newLocalBlobStore helloHash true [blobToPath helloAddr] u.store.disk =
      some bs ∧ Rescanned u.store bs := by
  obtain ⟨past, hadded⟩ := run_added
  have htouched := hadded.step (@Step.touch helloHash _ 0 60 (by decide))
  exact ⟨_, _, htouched, by decide +kernel, (rescan_rebuilds htouched true (by decide +kernel)).2⟩

theorem isSome_scan_added : (LocalBlobStore.newLocalBlobStore helloHash true
    [blobToPath helloAddr] addedStore.disk).isSome := by decide +kernel

/-- The blob that was only added has no expiry time before the scan, and one after it. -/
theorem rescan_rebuilds_fails : ∃ past u bs, Run (Opened helloHash) (Step helloHash) past u ∧
    LocalBlobStore.newLocalBlobStore helloHash true [blobToPath helloAddr] u.store.disk = some bs ∧
    u.store.files.lookup helloAddr = some 0 ∧ bs.files.lookup helloAddr = some 0 ∧
    (u.store.heap.map LocalCachedFile.expiresAt) = [none] ∧
    (bs.heap.map LocalCachedFile.expiresAt) = [some 7] := by
  obtain ⟨past, hadded⟩ := run_added
  exact ⟨past, _, _, hadded, (Option.some_get isSome_scan_added).symm, by decide +kernel,
    by decide +kernel, by decide +kernel, by decide +kernel⟩

end BlobStore

end Grits
