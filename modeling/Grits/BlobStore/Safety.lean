import Grits.BlobStore.Store

/-!
# Counts, map and disk agree

Every operation of the blob store is one of three changes: a cached file is written
to and keeps its address, a new blob is added, or a blob without references is
discarded.
-/

namespace Grits

namespace BlobStore

open Runs

variable {H : BlobHash} {bs : LocalBlobStore} {held held' : Multiset ℕ} {id : ℕ}
  {addr : BlobAddr} {file : LocalCachedFile} {u w : Usage}

/-! ## Paths -/

theorem flatten_blobToPath (addr : BlobAddr) : (blobToPath addr).flatten = addr := by
  unfold blobToPath
  split
  · simp
  · have hrest : (addr.drop 3).take 1 ++ addr.drop 4 = addr.drop 3 := by
      rw [show addr.drop 4 = (addr.drop 3).drop 1 by rw [List.drop_drop],
        List.take_append_drop]
    simp [hrest]

theorem blobToPath_injective : Function.Injective blobToPath := by
  intro addr other h
  rw [← flatten_blobToPath addr, h, flatten_blobToPath]

/-! ## What holds between calls -/

/-- The map, the disk and the counts say the same. -/
structure Consistent (H : BlobHash) (bs : LocalBlobStore) (held : Multiset ℕ) : Prop where
  entry : ∀ addr id, bs.files.lookup addr = some id → ∃ file,
    bs.heap[id]? = some file ∧ file.address = addr ∧ file.path = blobToPath addr
  stored : ∀ addr, addr ∈ bs.files → ∃ file,
    bs.disk.files.lookup (blobToPath addr) = some file ∧ H.sum file.data = addr
  known : ∀ path ∈ bs.disk.files, ∃ addr ∈ bs.files, path = blobToPath addr
  rooted : bs.disk.Rooted
  counted : ∀ id file, bs.heap[id]? = some file → file.refCount = (held.count id : ℤ)
  live : ∀ id file, bs.heap[id]? = some file → 0 < file.refCount →
    bs.files.lookup file.address = some id
  within : ∀ id ∈ held, id < bs.heap.length

/-- A blob without references that is still in the map. -/
structure Idle (bs : LocalBlobStore) (addr : BlobAddr) (id : ℕ) (file : LocalCachedFile) : Prop where
  entry : bs.files.lookup addr = some id
  heap : bs.heap[id]? = some file
  refCount : file.refCount = 0

theorem Consistent.exists_file (h : Consistent H bs held) (hid : id ∈ held) :
    ∃ file, bs.heap[id]? = some file ∧ 0 < file.refCount ∧
      bs.files.lookup file.address = some id := by
  obtain ⟨file, hfile⟩ : ∃ file, bs.heap[id]? = some file :=
    ⟨_, List.getElem?_eq_getElem (h.within id hid)⟩
  have hcount := h.counted id file hfile
  have hpos : 0 < file.refCount := by
    have := Multiset.count_pos.mpr hid
    omega
  exact ⟨file, hfile, hpos, h.live id file hfile hpos⟩

theorem getElem?_update (id other : ℕ) (f : LocalCachedFile → LocalCachedFile)
    (bs : LocalBlobStore) :
    (bs.update id f).heap[other]? =
      if id = other then bs.heap[other]?.map f else bs.heap[other]? := by
  unfold LocalBlobStore.update
  rw [List.getElem?_modify]
  split <;> simp

/-- A cached file is written to. -/
theorem Consistent.update (h : Consistent H bs held) {f : LocalCachedFile → LocalCachedFile}
    (haddress : ∀ file, (f file).address = file.address) (hpath : ∀ file, (f file).path = file.path)
    (hcount : ∀ file, bs.heap[id]? = some file → (f file).refCount = (held'.count id : ℤ))
    (hothers : ∀ other, other ≠ id → held'.count other = held.count other)
    (hentry : ∀ file, bs.heap[id]? = some file → bs.files.lookup file.address = some id)
    (hid : id < bs.heap.length) : Consistent H (bs.update id f) held' where
  entry := by
    intro addr other hother
    obtain ⟨file, hfile, haddr, hfilePath⟩ := h.entry addr other hother
    rw [getElem?_update]
    split
    · exact ⟨f file, by simp [hfile], (haddress file).trans haddr, (hpath file).trans hfilePath⟩
    · exact ⟨file, hfile, haddr, hfilePath⟩
  stored := h.stored
  known := h.known
  rooted := h.rooted
  counted := by
    intro other file hfile
    rw [getElem?_update] at hfile
    split at hfile
    case isTrue heq =>
      subst heq
      obtain ⟨before, hbefore, rfl⟩ := Option.map_eq_some_iff.mp hfile
      exact hcount before hbefore
    case isFalse hne =>
      rw [hothers other (Ne.symm hne)]
      exact h.counted other file hfile
  live := by
    intro other file hfile hpos
    rw [getElem?_update] at hfile
    split at hfile
    case isTrue heq =>
      subst heq
      obtain ⟨before, hbefore, rfl⟩ := Option.map_eq_some_iff.mp hfile
      rw [haddress]
      exact hentry before hbefore
    case isFalse => exact h.live other file hfile hpos
  within := by
    intro other hother
    have hlength : (bs.update id f).heap.length = bs.heap.length := List.length_modify ..
    rw [hlength]
    by_cases heq : other = id
    · exact heq ▸ hid
    · refine h.within other (Multiset.count_pos.mp ?_)
      rw [← hothers other heq]
      exact Multiset.count_pos.mpr hother

theorem Consistent.take (h : Consistent H bs held) (hentry : bs.files.lookup addr = some id) :
    Consistent H (bs.take id) (id ::ₘ held) := by
  obtain ⟨file, hfile, haddr, -⟩ := h.entry addr id hentry
  refine h.update (fun _ => rfl) (fun _ => rfl) ?_ ?_ ?_ ?_
  · intro file hfile
    rw [Multiset.count_cons_self, h.counted id file hfile]
    push_cast
    ring
  · exact fun other hne => Multiset.count_cons_of_ne hne held
  · intro file' hfile'
    rw [hfile] at hfile'
    cases hfile'
    rwa [haddr]
  · exact (List.getElem?_eq_some_iff.mp hfile).1

/-- A blob that is not in the map is added to it. -/
theorem Consistent.addNew (h : Consistent H bs held) {disk : DiskFile}
    (hnone : bs.files.lookup (H.sum disk.data) = none) :
    Consistent H (bs.addNew (H.sum disk.data) disk).2 (bs.heap.length ::ₘ held) where
  entry := by
    intro addr id hid
    change (bs.files.insert (H.sum disk.data) bs.heap.length).lookup addr = some id at hid
    by_cases haddr : addr = H.sum disk.data
    · subst haddr
      rw [Finmap.lookup_insert] at hid
      cases hid
      exact ⟨_, List.getElem?_concat_length, rfl, rfl⟩
    · rw [Finmap.lookup_insert_of_ne _ haddr] at hid
      obtain ⟨file, hfile, hrest⟩ := h.entry addr id hid
      exact ⟨file, (List.getElem?_append_left (List.getElem?_eq_some_iff.mp hfile).1).trans hfile,
        hrest⟩
  stored := by
    intro addr haddr
    change ∃ file, (bs.disk.files.insert _ disk).lookup (blobToPath addr) = some file ∧ _
    rcases Finmap.mem_insert.mp haddr with rfl | haddr
    · exact ⟨disk, Finmap.lookup_insert _, rfl⟩
    · obtain ⟨file, hfile, hsum⟩ := h.stored addr haddr
      refine ⟨file, ?_, hsum⟩
      rw [Finmap.lookup_insert_of_ne]
      · exact hfile
      · intro heq
        rw [blobToPath_injective heq] at haddr
        exact Finmap.lookup_eq_none.mp hnone haddr
  known := by
    intro path hpath
    rcases Finmap.mem_insert.mp hpath with rfl | hpath
    · exact ⟨_, Finmap.mem_insert.mpr (.inl rfl), rfl⟩
    · obtain ⟨addr, haddr, rfl⟩ := h.known path hpath
      exact ⟨addr, Finmap.mem_insert.mpr (.inr haddr), rfl⟩
  rooted := h.rooted.writeFile _ _
  counted := by
    intro id file hfile
    change (bs.heap ++ [_])[id]? = some file at hfile
    have hnew : held.count bs.heap.length = 0 := by
      rw [Multiset.count_eq_zero]
      exact fun hmem => (h.within _ hmem).ne rfl
    rcases lt_trichotomy id bs.heap.length with hlt | rfl | hgt
    · rw [List.getElem?_append_left hlt] at hfile
      rw [Multiset.count_cons_of_ne hlt.ne]
      exact h.counted id file hfile
    · rw [List.getElem?_concat_length] at hfile
      cases hfile
      rw [Multiset.count_cons_self, hnew]
      rfl
    · rw [List.getElem?_eq_none (by simp; omega)] at hfile
      cases hfile
  live := by
    intro id file hfile hpos
    change (bs.heap ++ [_])[id]? = some file at hfile
    change (bs.files.insert (H.sum disk.data) bs.heap.length).lookup file.address = some id
    rcases lt_trichotomy id bs.heap.length with hlt | rfl | hgt
    · rw [List.getElem?_append_left hlt] at hfile
      have hentry := h.live id file hfile hpos
      rw [Finmap.lookup_insert_of_ne]
      · exact hentry
      · intro heq
        rw [heq, hnone] at hentry
        cases hentry
    · rw [List.getElem?_concat_length] at hfile
      cases hfile
      exact Finmap.lookup_insert _
    · rw [List.getElem?_eq_none (by simp; omega)] at hfile
      cases hfile
  within := by
    intro id hid
    have hlength : (bs.addNew (H.sum disk.data) disk).2.heap.length = bs.heap.length + 1 := by
      simp [LocalBlobStore.addNew]
    rw [hlength]
    rcases Multiset.mem_cons.mp hid with rfl | hid
    · omega
    · have := h.within id hid
      omega

/-- A blob without references is discarded. -/
theorem Consistent.discard (h : Consistent H bs held) (hfile : bs.heap[id]? = some file)
    (hentry : bs.files.lookup file.address = some id) (hzero : file.refCount = 0) :
    Consistent H (bs.discard file) held := by
  obtain ⟨file', hfile', -, hpath⟩ := h.entry file.address id hentry
  rw [hfile] at hfile'
  cases hfile'
  have hfiles : (bs.discard file).disk.files = bs.disk.files.erase (blobToPath file.address) := by
    change ((bs.disk.removeFile file.path).tryRmdirParents file.path).files = _
    rw [Disk.files_tryRmdirParents, hpath]
    rfl
  refine ⟨?_, ?_, ?_, ?_, h.counted, ?_, h.within⟩
  · intro addr other hother
    change (bs.files.erase file.address).lookup addr = some other at hother
    by_cases haddr : addr = file.address
    · rw [haddr, Finmap.lookup_erase] at hother
      cases hother
    · rw [Finmap.lookup_erase_ne haddr] at hother
      exact h.entry addr other hother
  · intro addr haddr
    obtain ⟨hne, hmem⟩ := Finmap.mem_erase.mp haddr
    obtain ⟨data, hdata, hsum⟩ := h.stored addr hmem
    refine ⟨data, ?_, hsum⟩
    rw [hfiles, Finmap.lookup_erase_ne fun heq => hne (blobToPath_injective heq)]
    exact hdata
  · intro path hpath
    rw [hfiles] at hpath
    obtain ⟨hne, hmem⟩ := Finmap.mem_erase.mp hpath
    obtain ⟨addr, haddr, rfl⟩ := h.known path hmem
    refine ⟨addr, Finmap.mem_erase.mpr ⟨?_, haddr⟩, rfl⟩
    rintro rfl
    exact hne rfl
  · exact (h.rooted.removeFile file.path).tryRmdirParents file.path
  · intro other file' hfile' hpos
    have hlive := h.live other file' hfile' hpos
    change (bs.files.erase file.address).lookup file'.address = some other
    rw [Finmap.lookup_erase_ne]
    · exact hlive
    · intro heq
      rw [heq, hentry] at hlive
      cases hlive
      cases hfile.symm.trans hfile'
      omega

/-! ## The operations -/

theorem Consistent.readFile (h : Consistent H bs held) {bs' : LocalBlobStore}
    (hrun : bs.readFile addr = (some id, bs')) :
    bs' = bs.take id ∧ Consistent H bs' (id ::ₘ held) := by
  unfold LocalBlobStore.readFile at hrun
  cases hentry : bs.files.lookup addr with
  | none =>
      rw [hentry] at hrun
      cases hrun
  | some found =>
      rw [hentry] at hrun
      cases hrun
      exact ⟨rfl, h.take hentry⟩

theorem Consistent.release (h : Consistent H bs held) (hid : id ∈ held) (now : ℤ) :
    ∃ bs', bs.release id now = .ok bs' ∧ Consistent H bs' (held.erase id) ∧
      ∀ addr other file, Idle bs' addr other file →
        Idle bs addr other file ∨ isAfter now file.expiresAt = false := by
  obtain ⟨file, hfile, hpos, hentry⟩ := h.exists_file hid
  let released := { file with refCount := file.refCount - 1 }
  have hcount := h.counted id file hfile
  have herase : (held.erase id).count id = held.count id - 1 := Multiset.count_erase_self id held
  have hupdated : Consistent H
      (bs.update id fun file => { file with refCount := file.refCount - 1 }) (held.erase id) := by
    refine h.update (fun _ => rfl) (fun _ => rfl) ?_ ?_ ?_ (h.within id hid)
    · intro file' hfile'
      cases hfile.symm.trans hfile'
      change file.refCount - 1 = _
      omega
    · exact fun other hne => Multiset.count_erase_of_ne hne held
    · intro file' hfile'
      cases hfile.symm.trans hfile'
      exact hentry
  have hreleased : (bs.update id fun file => { file with refCount := file.refCount - 1 }).heap[id]? =
      some released := by
    rw [getElem?_update, if_pos rfl, hfile]
    rfl
  -- the other blobs are as they were
  have hidle : ∀ addr other file', Idle (bs.update id fun file =>
      { file with refCount := file.refCount - 1 }) addr other file' →
      Idle bs addr other file' ∨ file' = released := by
    rintro addr other file' ⟨hother, hheap, hzero⟩
    by_cases heq : id = other
    · subst heq
      cases hreleased.symm.trans hheap
      exact .inr rfl
    · rw [getElem?_update, if_neg heq] at hheap
      exact .inl ⟨hother, hheap, hzero⟩
  unfold LocalBlobStore.release
  rw [hfile]
  change ∃ bs', (if released.refCount < 0 then _ else _) = _ ∧ _
  rw [if_neg (by change ¬ file.refCount - 1 < 0; omega)]
  by_cases hmore : 0 < released.refCount
  · rw [if_pos hmore]
    refine ⟨_, rfl, hupdated, fun addr other file' hother => ?_⟩
    rcases hidle addr other file' hother with hother' | rfl
    · exact .inl hother'
    · have := hother.refCount
      omega
  · rw [if_neg hmore]
    have hzero : released.refCount = 0 := by
      change file.refCount - 1 = 0
      change ¬ 0 < file.refCount - 1 at hmore
      omega
    cases hafter : isAfter now released.expiresAt with
    | false =>
        rw [if_neg (by simp)]
        refine ⟨_, rfl, hupdated, fun addr other file' hother => ?_⟩
        rcases hidle addr other file' hother with hother' | rfl
        · exact .inl hother'
        · exact .inr hafter
    | true =>
        rw [if_pos rfl]
        refine ⟨_, rfl, hupdated.discard hreleased hentry hzero, fun addr other file' hother => ?_⟩
        obtain ⟨hlookup, hheap, hrefs⟩ := hother
        change (bs.files.erase file.address).lookup addr = some other at hlookup
        have hne : addr ≠ file.address := by
          rintro rfl
          rw [Finmap.lookup_erase] at hlookup
          cases hlookup
        rw [Finmap.lookup_erase_ne hne] at hlookup
        rcases hidle addr other file' ⟨hlookup, hheap, hrefs⟩ with hother' | rfl
        · exact .inl hother'
        · -- the released blob is at its own address only
          obtain ⟨file'', hfile'', haddr, -⟩ := hupdated.entry addr other hlookup
          cases hheap.symm.trans hfile''
          exact absurd haddr.symm hne

theorem Consistent.touch (h : Consistent H bs held) (hid : id ∈ held) (now duration : ℤ) :
    Consistent H (bs.touch id now duration) held ∧
      ∀ addr other file, Idle (bs.touch id now duration) addr other file →
        Idle bs addr other file := by
  obtain ⟨file, hfile, hpos, hentry⟩ := h.exists_file hid
  obtain ⟨file', hfile', -, hpath⟩ := h.entry _ id hentry
  cases hfile.symm.trans hfile'
  have hupdated : Consistent H
      (bs.update id fun file => { file with expiresAt := some (now + duration) }) held := by
    refine h.update (fun _ => rfl) (fun _ => rfl) (h.counted id) (fun _ _ => rfl) ?_ (h.within id hid)
    intro file' hfile'
    cases hfile.symm.trans hfile'
    exact hentry
  obtain ⟨disk, hdisk, hsum⟩ := h.stored file.address (Finmap.mem_of_lookup_eq_some hentry)
  have hfiles : (bs.disk.chtimes file.path (now + duration)).files =
      bs.disk.files.insert (blobToPath file.address) { disk with modTime := now + duration } := by
    unfold Disk.chtimes
    rw [hpath, hdisk]
  unfold LocalBlobStore.touch
  rw [hfile]
  refine ⟨⟨hupdated.entry, ?_, ?_, h.rooted.chtimes _ _, hupdated.counted, hupdated.live,
    hupdated.within⟩, ?_⟩
  · intro addr haddr
    change ∃ f, (bs.disk.chtimes file.path (now + duration)).files.lookup (blobToPath addr) =
      some f ∧ _
    rw [hfiles]
    by_cases heq : addr = file.address
    · subst heq
      exact ⟨_, Finmap.lookup_insert _, hsum⟩
    · rw [Finmap.lookup_insert_of_ne _ fun hpaths => heq (blobToPath_injective hpaths)]
      exact h.stored addr haddr
  · intro path hmem
    change path ∈ (bs.disk.chtimes file.path (now + duration)).files at hmem
    rw [hfiles] at hmem
    rcases Finmap.mem_insert.mp hmem with rfl | hmem
    · exact ⟨_, Finmap.mem_of_lookup_eq_some hentry, rfl⟩
    · exact h.known path hmem
  · rintro addr other file' ⟨hother, hheap, hzero⟩
    change (bs.update id _).heap[other]? = some file' at hheap
    rw [getElem?_update] at hheap
    split at hheap
    case isTrue heq =>
      subst heq
      rw [hfile] at hheap
      cases hheap
      exact absurd hzero (ne_of_gt hpos)
    case isFalse => exact ⟨hother, hheap, hzero⟩

theorem Consistent.evictAt (h : Consistent H bs held) (now : ℤ) (addr : BlobAddr) :
    Consistent H (bs.evictAt now addr) held ∧
      ∀ other id file, Idle (bs.evictAt now addr) other id file →
        Idle bs other id file ∧ (other = addr → isAfter now file.expiresAt = false) := by
  unfold LocalBlobStore.evictAt
  cases hentry : bs.files.lookup addr with
  | none =>
      refine ⟨h, fun other id file hidle => ⟨hidle, ?_⟩⟩
      rintro rfl
      rw [hidle.entry] at hentry
      cases hentry
  | some found =>
      obtain ⟨file, hfile, rfl, -⟩ := h.entry addr found hentry
      simp only [hfile]
      by_cases hpos : 0 < file.refCount
      · rw [if_pos hpos]
        refine ⟨h, fun other id file' hidle => ⟨hidle, ?_⟩⟩
        rintro rfl
        cases hentry.symm.trans hidle.entry
        cases hfile.symm.trans hidle.heap
        exact absurd hidle.refCount (ne_of_gt hpos)
      · rw [if_neg hpos]
        cases hafter : isAfter now file.expiresAt with
        | false =>
            rw [if_neg (by simp)]
            refine ⟨h, fun other id file' hidle => ⟨hidle, ?_⟩⟩
            rintro rfl
            cases hentry.symm.trans hidle.entry
            cases hfile.symm.trans hidle.heap
            exact hafter
        | true =>
            rw [if_pos rfl]
            have hzero : file.refCount = 0 := by
              have := h.counted found file hfile
              omega
            refine ⟨h.discard hfile hentry hzero, fun other id file' hidle => ?_⟩
            have hlookup : (bs.files.erase file.address).lookup other = some id := hidle.entry
            have hne : other ≠ file.address := by
              rintro rfl
              rw [Finmap.lookup_erase] at hlookup
              cases hlookup
            rw [Finmap.lookup_erase_ne hne] at hlookup
            exact ⟨⟨hlookup, hidle.heap, hidle.refCount⟩, fun heq => absurd heq hne⟩

theorem Consistent.evictOldFiles (h : Consistent H bs held) (now : ℤ) (order : List BlobAddr) :
    Consistent H (bs.evictOldFiles now order) held ∧
      ∀ other id file, Idle (bs.evictOldFiles now order) other id file →
        Idle bs other id file ∧ (other ∈ order → isAfter now file.expiresAt = false) := by
  induction order generalizing bs with
  | nil => exact ⟨h, fun other id file hidle => ⟨hidle, fun hmem => absurd hmem List.not_mem_nil⟩⟩
  | cons addr order ih =>
      obtain ⟨hstep, hidle⟩ := h.evictAt now addr
      obtain ⟨hrest, hidleRest⟩ := ih hstep
      refine ⟨hrest, fun other id file hother => ?_⟩
      obtain ⟨hmiddle, horder⟩ := hidleRest other id file hother
      obtain ⟨hbefore, haddr⟩ := hidle other id file hmiddle
      refine ⟨hbefore, fun hmem => ?_⟩
      rcases List.mem_cons.mp hmem with hmem | hmem
      · exact haddr hmem
      · exact horder hmem

/-- Taking a reference leaves no blob without one that had one. -/
theorem Consistent.idle_take (h : Consistent H bs held) {other : ℕ}
    (hidle : Idle (bs.take id) addr other file) : Idle bs addr other file := by
  obtain ⟨hother, hheap, hzero⟩ := hidle
  unfold LocalBlobStore.take at hheap
  rw [getElem?_update] at hheap
  split at hheap
  case isTrue heq =>
    subst heq
    obtain ⟨before, hbefore, rfl⟩ := Option.map_eq_some_iff.mp hheap
    have hcount := h.counted id before hbefore
    change before.refCount + 1 = 0 at hzero
    omega
  case isFalse => exact ⟨hother, hheap, hzero⟩

theorem Consistent.idle_addNew (h : Consistent H bs held) {disk : DiskFile} {other : ℕ}
    (hidle : Idle (bs.addNew (H.sum disk.data) disk).2 addr other file) :
    Idle bs addr other file := by
  obtain ⟨hother, hheap, hzero⟩ := hidle
  change (bs.files.insert (H.sum disk.data) bs.heap.length).lookup addr = some other at hother
  change (bs.heap ++ [_])[other]? = some file at hheap
  by_cases haddr : addr = H.sum disk.data
  · rw [haddr, Finmap.lookup_insert] at hother
    cases hother
    rw [List.getElem?_concat_length] at hheap
    cases hheap
    cases hzero
  · rw [Finmap.lookup_insert_of_ne _ haddr] at hother
    obtain ⟨file', hfile', -⟩ := h.entry addr other hother
    rw [List.getElem?_append_left (List.getElem?_eq_some_iff.mp hfile').1] at hheap
    exact ⟨hother, hheap, hzero⟩

/-- `AddReader`, `AddLocalFile` and `AddDataBlock`. -/
theorem Consistent.add (h : Consistent H bs held) (disk : DiskFile) {bs' : LocalBlobStore}
    (hrun : (match bs.files.lookup (H.sum disk.data) with
      | some id => (id, bs.take id)
      | none => bs.addNew (H.sum disk.data) disk) = (id, bs')) :
    Consistent H bs' (id ::ₘ held) ∧
      ∀ addr other file, Idle bs' addr other file → Idle bs addr other file := by
  cases hentry : bs.files.lookup (H.sum disk.data) with
  | some found =>
      rw [hentry] at hrun
      cases hrun
      exact ⟨h.take hentry, fun _ _ _ => h.idle_take⟩
  | none =>
      rw [hentry] at hrun
      have hid : id = bs.heap.length := (congrArg Prod.fst hrun).symm
      have hbs : bs' = (bs.addNew (H.sum disk.data) disk).2 := (congrArg Prod.snd hrun).symm
      subst hid
      subst hbs
      exact ⟨h.addNew hentry, fun _ _ _ => h.idle_addNew⟩

/-! ## Opening -/

/-- The files of the disk on the way, as the scan has found them. -/
structure Scanned (H : BlobHash) (disk : Disk) (found : List Path) (bs : LocalBlobStore) : Prop where
  sameDisk : bs.disk = disk
  entry : ∀ addr id, bs.files.lookup addr = some id → ∃ file,
    bs.heap[id]? = some file ∧ file.address = addr ∧ file.path = blobToPath addr
  stored : ∀ addr, addr ∈ bs.files → ∃ file,
    disk.files.lookup (blobToPath addr) = some file ∧ H.sum file.data = addr
  known : ∀ path ∈ found, ∃ addr ∈ bs.files, path = blobToPath addr
  counted : ∀ (id : ℕ) file, bs.heap[id]? = some file → file.refCount = 0

theorem scanFile_eq {disk : Disk} (hproper : Proper H disk) (hdisk : bs.disk = disk)
    (validateBlobs : Bool) {path : Path} {found : DiskFile}
    (hfound : disk.files.lookup path = some found) :
    bs.scanFile H validateBlobs path = some { bs with
      files := bs.files.insert (H.sum found.data) bs.heap.length
      heap := bs.heap ++
        [⟨path, 0, H.sum found.data, found.data.length, some found.modTime⟩] } := by
  have haddr : path.flatten = H.sum found.data := by
    rw [hproper.path path found hfound, flatten_blobToPath]
  unfold LocalBlobStore.scanFile
  rw [hdisk, hfound]
  simp only [haddr, H.isCid_sum, not_true_eq_false, if_false, ne_eq, and_false]

theorem scanned_empty (disk : Disk) : Scanned H disk [] ⟨∅, [], disk⟩ := by
  refine ⟨rfl, ?_, ?_, ?_, ?_⟩
  · intro addr id hid
    cases hid
  · intro addr haddr
    exact absurd haddr Finmap.notMem_empty
  · exact fun path hpath => absurd hpath List.not_mem_nil
  · intro id file hfile
    cases hfile

theorem Scanned.scanFile {disk : Disk} {found : List Path} (h : Scanned H disk found bs)
    (hproper : Proper H disk) (validateBlobs : Bool) {path : Path} (hpath : path ∈ disk.files) :
    ∃ bs', bs.scanFile H validateBlobs path = some bs' ∧ Scanned H disk (path :: found) bs' := by
  obtain ⟨file, hfile⟩ := Finmap.mem_iff.mp hpath
  have heq := hproper.path path file hfile
  refine ⟨_, scanFile_eq hproper h.sameDisk validateBlobs hfile, h.sameDisk, ?_, ?_, ?_, ?_⟩
  · intro addr id hid
    change (bs.files.insert _ bs.heap.length).lookup addr = some id at hid
    by_cases hself : addr = H.sum file.data
    · subst hself
      rw [Finmap.lookup_insert] at hid
      cases hid
      exact ⟨_, List.getElem?_concat_length, rfl, heq⟩
    · rw [Finmap.lookup_insert_of_ne _ hself] at hid
      obtain ⟨before, hbefore, hrest⟩ := h.entry addr id hid
      exact ⟨before,
        (List.getElem?_append_left (List.getElem?_eq_some_iff.mp hbefore).1).trans hbefore, hrest⟩
  · intro addr hmem
    rcases Finmap.mem_insert.mp hmem with rfl | hmem
    · exact ⟨file, heq ▸ hfile, rfl⟩
    · exact h.stored addr hmem
  · intro other hother
    rcases List.mem_cons.mp hother with rfl | hother
    · exact ⟨_, Finmap.mem_insert.mpr (.inl rfl), heq⟩
    · obtain ⟨addr, hmem, rfl⟩ := h.known other hother
      exact ⟨addr, Finmap.mem_insert.mpr (.inr hmem), rfl⟩
  · intro id cached hcached
    change (bs.heap ++ [_])[id]? = some cached at hcached
    rcases lt_trichotomy id bs.heap.length with hlt | rfl | hgt
    · rw [List.getElem?_append_left hlt] at hcached
      exact h.counted id cached hcached
    · rw [List.getElem?_concat_length] at hcached
      cases hcached
      rfl
    · rw [List.getElem?_eq_none (by simp; omega)] at hcached
      cases hcached

theorem Scanned.foldlM {disk : Disk} {found : List Path} (h : Scanned H disk found bs)
    (hproper : Proper H disk) (validateBlobs : Bool) {order : List Path}
    (horder : ∀ path ∈ order, path ∈ disk.files) :
    ∃ bs', order.foldlM (LocalBlobStore.scanFile H validateBlobs) bs = some bs' ∧
      Scanned H disk (order.reverse ++ found) bs' := by
  induction order generalizing bs found with
  | nil => exact ⟨bs, rfl, h⟩
  | cons path order ih =>
      obtain ⟨middle, hscan, hmiddle⟩ :=
        h.scanFile hproper validateBlobs (horder path List.mem_cons_self)
      obtain ⟨bs', hrest, hbs'⟩ := ih hmiddle fun other hother =>
        horder other (List.mem_cons_of_mem path hother)
      refine ⟨bs', ?_, by simpa using hbs'⟩
      rw [List.foldlM_cons, hscan]
      exact hrest

theorem opened_consistent (h : Opened H u) : Consistent H u.store u.held := by
  obtain ⟨validateBlobs, disk, order, hproper, horder, hrun⟩ := h.store
  have hmem : ∀ path, path ∈ order ↔ path ∈ disk.files := by
    intro path
    rw [← Finmap.mem_keys, ← Finset.mem_val, ← horder, Multiset.mem_coe]
  obtain ⟨bs', hscan, hscanned⟩ :=
    (scanned_empty disk).foldlM hproper validateBlobs fun path hpath => (hmem path).mp hpath
  have hstore : bs' = u.store := Option.some.inj (hscan.symm.trans hrun)
  subst hstore
  have hdisk := hscanned.sameDisk
  rw [h.held]
  refine ⟨hscanned.entry, ?_, ?_, ?_, ?_, ?_, ?_⟩
  · rw [hdisk]
    exact hscanned.stored
  · intro path hpath
    rw [hdisk] at hpath
    exact hscanned.known path (by simp [hmem, hpath])
  · rw [hdisk]
    exact hproper.rooted
  · intro id file hfile
    rw [Multiset.count_zero]
    exact hscanned.counted id file hfile
  · intro id file hfile hpos
    exact absurd (hscanned.counted id file hfile) (ne_of_gt hpos)
  · exact fun id hid => absurd hid (Multiset.notMem_zero id)

/-! ## Runs -/

/-- What a blob store keeps while its clients release what they hold. -/
structure Safe (H : BlobHash) (u : Usage) : Prop where
  /-- The counts are those of the references outstanding. -/
  counted : ∀ id file, u.store.heap[id]? = some file → file.refCount = (u.held.count id : ℤ)
  /-- No release of a reference that is held ends the process. -/
  noFatal : ∀ id ∈ u.held, ∀ now, ∃ bs, u.store.release id now = .ok bs
  /-- A blob with references is in the map. -/
  kept : ∀ id file, u.store.heap[id]? = some file → 0 < file.refCount →
    u.store.files.lookup file.address = some id
  /-- The map has the addresses whose files are there, with their content. -/
  onDisk : ∀ addr, addr ∈ u.store.files ↔ ∃ file,
    u.store.disk.files.lookup (blobToPath addr) = some file ∧ H.sum file.data = addr
  /-- There are no other files, and every file has its directories. -/
  noOther : ∀ path ∈ u.store.disk.files, ∃ addr ∈ u.store.files, path = blobToPath addr
  rooted : u.store.disk.Rooted
  /-- A blob without references has lived through no eviction after its time. -/
  waits : ∀ addr id file, Idle u.store addr id file →
    ∀ now ∈ u.evictions, isAfter now file.expiresAt = false

/-- The invariant of a run. -/
structure Running (H : BlobHash) (u : Usage) : Prop where
  consistent : Consistent H u.store u.held
  past : ∀ now ∈ u.evictions, now ≤ u.clock
  waits : ∀ addr id file, Idle u.store addr id file →
    ∀ now ∈ u.evictions, isAfter now file.expiresAt = false

theorem isAfter_mono {now later : ℤ} (hle : now ≤ later) {expiresAt : Option ℤ}
    (h : isAfter later expiresAt = false) : isAfter now expiresAt = false := by
  cases expiresAt with
  | none => cases h
  | some time =>
      simp only [isAfter, decide_eq_false_iff_not, not_lt] at h ⊢
      exact hle.trans h

theorem Running.step (h : Running H u) (hstep : Step H u w) : Running H w := by
  obtain ⟨hconsistent, hpast, hwaits⟩ := h
  cases hstep with
  | readFile hrun =>
      obtain ⟨rfl, hread⟩ := hconsistent.readFile hrun
      exact ⟨hread, hpast, fun addr id file hidle => hwaits addr id file (hconsistent.idle_take hidle)⟩
  | @readFileElsewhere addr bs hrun =>
      have hbs : bs = u.store := by
        unfold LocalBlobStore.readFile at hrun
        cases hentry : u.store.files.lookup addr with
        | none =>
            rw [hentry] at hrun
            exact (congrArg Prod.snd hrun).symm
        | some found =>
            rw [hentry] at hrun
            cases hrun
      subst hbs
      exact ⟨hconsistent, hpast, hwaits⟩
  | @addReader data written id bs hrun =>
      obtain ⟨hadd, hidle⟩ := hconsistent.add ⟨data, written⟩ hrun
      exact ⟨hadd, hpast, fun addr id file h => hwaits addr id file (hidle addr id file h)⟩
  | @addLocalFile data written id bs hrun =>
      obtain ⟨hadd, hidle⟩ := hconsistent.add ⟨data, written⟩ hrun
      exact ⟨hadd, hpast, fun addr id file h => hwaits addr id file (hidle addr id file h)⟩
  | @addDataBlock data id bs hrun =>
      obtain ⟨hadd, hidle⟩ := hconsistent.add ⟨data, u.clock⟩ hrun
      exact ⟨hadd, hpast, fun addr id file h => hwaits addr id file (hidle addr id file h)⟩
  | take hheld =>
      obtain ⟨file, -, -, hentry⟩ := hconsistent.exists_file hheld
      exact ⟨hconsistent.take hentry, hpast,
        fun addr id file hidle => hwaits addr id file (hconsistent.idle_take hidle)⟩
  | release hheld hrun =>
      obtain ⟨bs, hbs, hreleased, hidle⟩ := hconsistent.release hheld u.clock
      cases hbs.symm.trans hrun
      refine ⟨hreleased, hpast, fun addr id file hother now hnow => ?_⟩
      rcases hidle addr id file hother with hbefore | hlater
      · exact hwaits addr id file hbefore now hnow
      · exact isAfter_mono (hpast now hnow) hlater
  | touch hheld =>
      obtain ⟨htouched, hidle⟩ := hconsistent.touch hheld u.clock _
      exact ⟨htouched, hpast, fun addr id file h => hwaits addr id file (hidle addr id file h)⟩
  | @evictOldFiles now order hnow horder =>
      obtain ⟨hevicted, hidle⟩ := hconsistent.evictOldFiles now order
      refine ⟨hevicted, fun time htime => ?_, fun addr id file hother time htime => ?_⟩
      · rcases List.mem_cons.mp htime with rfl | htime
        · exact hnow
        · exact hpast time htime
      · obtain ⟨hbefore, hvisited⟩ := hidle addr id file hother
        rcases List.mem_cons.mp htime with rfl | htime
        · -- the loop comes to every address in the map
          apply hvisited
          rw [← Multiset.mem_coe, horder, Finset.mem_val, Finmap.mem_keys]
          exact Finmap.mem_of_lookup_eq_some hbefore.entry
        · exact hwaits addr id file hbefore time htime
  | tick hclock => exact ⟨hconsistent, fun now hnow => (hpast now hnow).trans hclock, hwaits⟩

theorem opened_running (h : Opened H u) : Running H u := by
  refine ⟨opened_consistent h, ?_, ?_⟩
  · rw [h.evictions]
    exact fun now hnow => absurd hnow List.not_mem_nil
  · rw [h.evictions]
    exact fun _ _ _ _ now hnow => absurd hnow List.not_mem_nil

theorem Running.safe (h : Running H u) : Safe H u where
  counted := h.consistent.counted
  noFatal := fun id hid now =>
    let ⟨bs, hrun, _⟩ := h.consistent.release hid now
    ⟨bs, hrun⟩
  kept := h.consistent.live
  onDisk := by
    intro addr
    refine ⟨h.consistent.stored addr, ?_⟩
    rintro ⟨file, hfile, -⟩
    obtain ⟨other, hother, hpath⟩ :=
      h.consistent.known (blobToPath addr) (Finmap.mem_of_lookup_eq_some hfile)
    rwa [blobToPath_injective hpath]
  noOther := h.consistent.known
  rooted := h.consistent.rooted
  waits := h.waits

/-- Whatever its clients do with the references they hold, the blob store is safe. -/
theorem blobStore_safe {past : List Usage} (h : Run (Opened H) (Step H) past u) : Safe H u :=
  (h.invariant (fun _ => opened_running) (fun _ _ => Running.step)).safe

/-- The blob "hello", and its address. -/
def helloData : Bytes := [104, 101, 108, 108, 111]

def helloAddr : BlobAddr := "QmRN6wdp1S2A5EtjW9A3M1vKSBuQQGcgvuhoMUoEz4iiT5".toList

/-- The hash, where it is known. -/
def helloHash : BlobHash where
  sum := fun data => if data = helloData then helloAddr else "Qmother".toList
  isCid_sum := by
    intro data
    by_cases h : data = helloData
    · rw [if_pos h]
      decide +kernel
    · rw [if_neg h]
      decide +kernel
  le_length_sum := by
    intro data
    by_cases h : data = helloData
    · rw [if_pos h]
      decide +kernel
    · rw [if_neg h]
      decide +kernel

theorem blobStore_safe_evicted :
    ∃ past u, Run (Opened helloHash) (Step helloHash) past u ∧ u.held = {0} ∧
      u.store.files.lookup helloAddr = some 0 ∧ u.evictions = [0] ∧ Safe helloHash u := by
  let start : Usage := ⟨⟨∅, [], ⟨∅, ∅⟩⟩, 0, 0, []⟩
  have hopened : Opened helloHash start := by
    refine ⟨⟨true, ⟨∅, ∅⟩, [], ⟨?_, ?_⟩, rfl, rfl⟩, rfl, rfl⟩
    · exact fun path hpath => absurd hpath Finmap.notMem_empty
    · rintro path file ⟨⟩
  have hadded := (Run.start hopened).step
    (@Step.addDataBlock helloHash start helloData 0 (start.store.addDataBlock helloHash helloData 0).2
      rfl)
  have hevicted := hadded.step
    (@Step.evictOldFiles helloHash _ 0 [helloAddr] le_rfl (by decide +kernel))
  exact ⟨_, _, hevicted, rfl, by decide +kernel, rfl, blobStore_safe hevicted⟩

end BlobStore

end Grits
