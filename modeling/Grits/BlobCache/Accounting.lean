import Grits.BlobCache.Deadlock
import Mathlib.Algebra.BigOperators.Group.Finset.Piecewise
import Mathlib.Algebra.Order.BigOperators.Group.Finset
import Mathlib.Tactic.Ring

/-!
# The books of the blob cache

`currentSize` is kept by hand next to the entries, and so is the one reference
that the cache has of each of them.  A blob that comes from a fetch is entered
in both; a blob that `Get` finds in the blob store becomes an entry without its
size.  What is proved of the sizes and references holds as long as no such blob
has a size, and no fetched blob takes the place of another entry.

The cleanup sorts what it has collected by `lastAccessed`, under no lock, so the
times are added to the state here, and the sorting as a step of its own.
-/

namespace Grits

namespace BlobGet

open Runs

/-! ## Ninety percent -/

/-- The float64 nearest to a number: its first 53 bits, rounded, ties to even. -/
def toFloat64 (n : ℕ) : ℕ :=
  let shift := n.log2 + 1 - 53
  let mantissa := n / 2 ^ shift
  let rest := n % 2 ^ shift
  if 2 * rest < 2 ^ shift then mantissa * 2 ^ shift
  else if 2 ^ shift < 2 * rest then (mantissa + 1) * 2 ^ shift
  else (mantissa + mantissa % 2) * 2 ^ shift

/-- `int64(float64(c.maxSize) * 0.9)`, where 0.9 is 8106479329266893 / 2^53. -/
def targetSizeOf (maxSize : ℕ) : ℕ :=
  toFloat64 (toFloat64 maxSize * 8106479329266893) / 2 ^ 53

/-- The limits of a cache of this size. -/
def Limits.ofMaxSize (maxSize : ℕ) : Limits := ⟨maxSize, targetSizeOf maxSize⟩

theorem toFloat64_of_lt {n : ℕ} (h : n < 2 ^ 53) : toFloat64 n = n := by
  have hlog : n.log2 + 1 - 53 = 0 := by
    by_cases hzero : n = 0
    · subst hzero
      rfl
    · have := (Nat.log2_lt hzero).mpr h
      omega
  simp [toFloat64, hlog, Nat.mod_one]

/-- Rounding adds at most half of what the last bit stands for. -/
theorem two_mul_toFloat64_le (n : ℕ) :
    2 * toFloat64 n ≤ 2 * n + 2 ^ (n.log2 + 1 - 53) := by
  have hdiv := Nat.div_add_mod n (2 ^ (n.log2 + 1 - 53))
  simp only [toFloat64]
  generalize 2 ^ (n.log2 + 1 - 53) = unit at *
  generalize n / unit = mantissa at *
  generalize n % unit = rest at *
  have hcomm : unit * mantissa = mantissa * unit := Nat.mul_comm _ _
  split
  next => omega
  next =>
    have hround : (mantissa + 1) * unit = mantissa * unit + unit := by ring
    have hparity : (mantissa + mantissa % 2) * unit ≤ mantissa * unit + unit := by
      rw [← hround]
      exact Nat.mul_le_mul_right unit (by omega)
    split
    next => omega
    next => omega

theorem targetSizeOf_le {maxSize : ℕ} (h : maxSize < 2 ^ 50) :
    10 * targetSizeOf maxSize ≤ 9 * maxSize := by
  have hround := two_mul_toFloat64_le (maxSize * 8106479329266893)
  have hshift : 2 ^ ((maxSize * 8106479329266893).log2 + 1 - 53) ≤ 2 ^ 50 := by
    apply Nat.pow_le_pow_right (by omega)
    by_cases hzero : maxSize * 8106479329266893 = 0
    · rw [hzero]
      decide
    · have := (Nat.log2_lt hzero).mpr (show maxSize * 8106479329266893 < 2 ^ 103 by omega)
      omega
  rw [targetSizeOf, toFloat64_of_lt (h.trans (by decide))]
  generalize toFloat64 (maxSize * 8106479329266893) = product at *
  generalize 2 ^ ((maxSize * 8106479329266893).log2 + 1 - 53) = unit at *
  omega

example : targetSizeOf 104857600 = 94371840 := by decide

/-! ## Times of access -/

section Aged

variable {Addr File Err : Type}

/-- The cache with the `lastAccessed` of the entry at each address.  `sorted` has the times
by which the cleanup has sorted what it collected. -/
structure Aged (Addr File Err : Type) where
  cache : Cache Addr File Err
  lastAccessed : Addr → ℤ
  sorted : Option (Addr → ℤ)

/-- A call of `Get` enters a file from the blob store, or returns the file of an entry. -/
def Finds (s t : Cache Addr File Err) (addr : Addr) (file : File) : Prop :=
  ∃ id, s.calls id = some (.locked addr) ∧ t.calls id = some (.returning addr (.file file))

/-- A call of `Get` enters a file that it has fetched. -/
def Stores (s t : Cache Addr File Err) (addr : Addr) (file : File) : Prop :=
  ∃ id, s.calls id = some (.fetched addr file) ∧ t.calls id = some (.ended addr (.file file))

/-- The step writes the `lastAccessed` of the entry at `addr`. -/
def Accesses (s t : Cache Addr File Err) (addr : Addr) : Prop :=
  ∃ file, Finds s t addr file ∨ Stores s t addr file

variable [DecidableEq Addr] [DecidableEq File]

/-- The steps of the cache, with the times they write and the sorting. -/
inductive AgedStep (B : Blobs Addr File) (limits : Limits) :
    Aged Addr File Err → Aged Addr File Err → Prop
  | access {s : Aged Addr File Err} {t : Cache Addr File Err} {addr : Addr} (now : ℤ)
      (hstep : Step B limits s.cache t) (haddr : Accesses s.cache t addr) :
      AgedStep B limits s ⟨t, Function.update s.lastAccessed addr now, s.sorted⟩
  /-- `sort.Slice(entries, …)` -/
  | sort {s : Aged Addr File Err} {collected entries : List (Addr × File)}
      (hcleaner : s.cache.cleaner = .collected collected) (hsorted : s.sorted = none)
      (hperm : entries.Perm collected)
      (horder : entries.Pairwise fun entry later =>
        s.lastAccessed entry.1 ≤ s.lastAccessed later.1) :
      AgedStep B limits s
        ⟨{ s.cache with cleaner := .collected entries }, s.lastAccessed, some s.lastAccessed⟩
  | evict {s : Aged Addr File Err} {entries : List (Addr × File)} {times : Addr → ℤ}
      (hcleaner : s.cache.cleaner = .collected entries) (hsorted : s.sorted = some times)
      (hfree : s.cache.mutex = none) :
      AgedStep B limits s ⟨s.cache.evict B limits entries [], s.lastAccessed, none⟩
  | other {s : Aged Addr File Err} {t : Cache Addr File Err} (hstep : Step B limits s.cache t)
      (haddr : ∀ addr, ¬ Accesses s.cache t addr)
      (hcleaner : ∀ entries, s.cache.cleaner = .collected entries →
        t.cleaner = .collected entries) :
      AgedStep B limits s ⟨t, s.lastAccessed, s.sorted⟩

/-- `NewBlobCache` over a blob store in which nothing is referenced. -/
structure AgedStarted (s : Aged Addr File Err) : Prop where
  started : Started s.cache
  currentSize : s.cache.currentSize = 0
  refs : ∀ file, s.cache.refs file .cache = 0
  sorted : s.sorted = none

/-! ## The books -/

variable {B : Blobs Addr File} {limits : Limits} {s t : Cache Addr File Err}

/-- The files that the cleanup has dropped and has still to release. -/
def Cleaner.dropped : Cleaner Addr File → List File
  | .releasing toRemove => toRemove
  | _ => []

/-- How often a file is in a set of entries, or of calls. -/
def copies {Key : Type} (file : File) (set : Finset (Key × File)) : ℕ :=
  (set.filter fun element => element.2 = file).card

/-- With these entries, and these calls about to enter a file that they have fetched:
`currentSize` is the size of the entries, and the cache has one reference for each of them,
next to those that are on their way in or out. -/
structure Books (B : Blobs Addr File) (s : Cache Addr File Err) (entries : Finset (Addr × File))
    (entering : Finset (ℕ × File)) : Prop where
  mem_entries : ∀ addr file, (addr, file) ∈ entries ↔ s.cachedBlobs addr = some file
  mem_entering : ∀ id file, (id, file) ∈ entering ↔ ∃ addr, s.calls id = some (.fetched addr file)
  size : s.currentSize = ∑ entry ∈ entries, B.getSize entry.2
  refs : ∀ file, s.refs file .cache =
    copies file entries + copies file entering + s.cleaner.dropped.count file
  collected : ∀ collected, s.cleaner = .collected collected →
    collected.Nodup ∧ ∀ entry ∈ collected, entry ∈ entries

/-- What a step has to keep to: a file found in the blob store that becomes an entry has no
size, and a fetched file does not take the place of an entry. -/
structure Settles (B : Blobs Addr File) (s t : Cache Addr File Err) : Prop where
  find : ∀ addr file, Finds s t addr file → s.cachedBlobs addr = none → B.getSize file = 0
  store : ∀ addr file, Stores s t addr file → s.cachedBlobs addr = none

omit [DecidableEq Addr] in
theorem copies_insert {Key : Type} [DecidableEq Key] {set : Finset (Key × File)}
    {element : Key × File} (h : element ∉ set) (file : File) :
    copies file (insert element set) = copies file set + if element.2 = file then 1 else 0 := by
  unfold copies
  rw [Finset.filter_insert]
  split
  · rw [Finset.card_insert_of_notMem fun hmem => h (Finset.mem_filter.mp hmem).1]
  · rfl

omit [DecidableEq Addr] in
theorem copies_erase {Key : Type} [DecidableEq Key] {set : Finset (Key × File)}
    {element : Key × File} (h : element ∈ set) (file : File) :
    copies file set = copies file (set.erase element) + if element.2 = file then 1 else 0 := by
  conv_lhs => rw [← Finset.insert_erase h]
  exact copies_insert (Finset.notMem_erase element set) file

omit [DecidableEq Addr] in
/-- Steps that change none of what the books are about. -/
theorem Books.congr {entries : Finset (Addr × File)} {entering : Finset (ℕ × File)}
    (h : Books B s entries entering) (hcached : t.cachedBlobs = s.cachedBlobs)
    (hcalls : ∀ id addr file, t.calls id = some (.fetched addr file) ↔
      s.calls id = some (.fetched addr file))
    (hsize : t.currentSize = s.currentSize)
    (hrefs : ∀ file, t.refs file .cache = s.refs file .cache) (hcleaner : t.cleaner = s.cleaner) : Books B t entries entering where
  mem_entries addr file := by
    rw [hcached]
    exact h.mem_entries addr file
  mem_entering id file := by
    rw [h.mem_entering]
    exact exists_congr fun addr => (hcalls id addr file).symm
  size := hsize.trans h.size
  refs file := by
    rw [hrefs, hcleaner]
    exact h.refs file
  collected := by
    rw [hcleaner]
    exact h.collected

omit [DecidableEq Addr] in
/-- A call goes on that neither enters a file nor is about to. -/
theorem Books.goOn {entries : Finset (Addr × File)} {entering : Finset (ℕ × File)} {id : ℕ}
    {before after : Call Addr File Err} (h : Books B s entries entering)
    (hbefore : s.calls id = some before) (hnot : ∀ addr file, before ≠ .fetched addr file)
    (hnot' : ∀ addr file, after ≠ .fetched addr file) :
    Books B (s.goOn id after) entries entering := by
  refine h.congr rfl (fun id' addr file => ?_) rfl (fun _ => rfl) rfl
  by_cases hid : id' = id
  · subst hid
    rw [goOn_calls_self, hbefore]
    exact iff_of_false (fun heq => hnot' _ _ (Option.some.inj heq))
      fun heq => hnot _ _ (Option.some.inj heq)
  · rw [goOn_calls_of_ne s hid]

omit [DecidableEq Addr] in
/-- A new call goes on. -/
theorem Books.goOn_new {entries : Finset (Addr × File)} {entering : Finset (ℕ × File)} {id : ℕ}
    {after : Call Addr File Err} (h : Books B s entries entering) (hbefore : s.calls id = none)
    (hnot : ∀ addr file, after ≠ .fetched addr file) :
    Books B (s.goOn id after) entries entering := by
  refine h.congr rfl (fun id' addr file => ?_) rfl (fun _ => rfl) rfl
  by_cases hid : id' = id
  · subst hid
    rw [goOn_calls_self, hbefore]
    exact iff_of_false (fun heq => hnot _ _ (Option.some.inj heq)) nofun
  · rw [goOn_calls_of_ne s hid]

omit [DecidableEq Addr] in
theorem Books.take_call {entries : Finset (Addr × File)} {entering : Finset (ℕ × File)}
    (h : Books B s entries entering) (file : File) (id : ℕ) :
    Books B (s.take file (.call id)) entries entering := by
  refine h.congr rfl (fun _ _ _ => Iff.rfl) rfl (fun other => ?_) rfl
  show (if other = file ∧ Owner.cache = .call id then _ else _) = _
  rw [if_neg (by simp)]

/-- The entries that an address without one gets. -/
theorem mem_insert_putEntry {entries : Finset (Addr × File)}
    (hmem : ∀ addr file, (addr, file) ∈ entries ↔ s.cachedBlobs addr = some file) {addr : Addr}
    {file : File} (hnone : s.cachedBlobs addr = none) (addr' : Addr) (file' : File) :
    (addr', file') ∈ insert (addr, file) entries ↔
      (s.putEntry addr file).cachedBlobs addr' = some file' := by
  rw [Finset.mem_insert, hmem, Cache.putEntry]
  by_cases haddr : addr' = addr
  · subst haddr
    simp [hnone, eq_comm]
  · simp [haddr]

/-- A file without a size becomes an entry, with a reference for the cache. -/
theorem Books.find {entries : Finset (Addr × File)} {entering : Finset (ℕ × File)} {addr : Addr}
    {file : File} (h : Books B s entries entering) (hnone : s.cachedBlobs addr = none)
    (hsize : B.getSize file = 0) :
    Books B ((s.take file .cache).putEntry addr file) (insert (addr, file) entries) entering := by
  have hnew : (addr, file) ∉ entries := by
    rw [h.mem_entries, hnone]
    nofun
  refine ⟨mem_insert_putEntry h.mem_entries hnone, h.mem_entering, ?_, fun other => ?_, ?_⟩
  · rw [Finset.sum_insert hnew, hsize, zero_add]
    exact h.size
  · rw [copies_insert hnew]
    have hrefs := h.refs other
    show (if other = file ∧ Owner.cache = .cache then s.refs other .cache + 1
      else s.refs other .cache) = _ + s.cleaner.dropped.count other
    simp only [and_true, eq_comm (a := other)]
    split <;> omega
  · intro collected hcollected
    obtain ⟨hnodup, hmem⟩ := h.collected collected hcollected
    exact ⟨hnodup, fun entry hentry => Finset.mem_insert_of_mem (hmem entry hentry)⟩

omit [DecidableEq Addr] in
/-- A fetch comes to a file, and takes a reference for the entry that is to be. -/
theorem Books.fetchDone {entries : Finset (Addr × File)} {entering : Finset (ℕ × File)} {id : ℕ}
    {addr : Addr} {file : File} (h : Books B s entries entering)
    (hcall : s.calls id = some (.fetching addr)) :
    Books B ((s.take file .cache).goOn id (.fetched addr file)) entries
      (insert (id, file) entering) := by
  have hnew : (id, file) ∉ entering := by
    rw [h.mem_entering, hcall]
    rintro ⟨addr', heq⟩
    cases heq
  refine ⟨h.mem_entries, fun id' file' => ?_, h.size, fun other => ?_, h.collected⟩
  · rw [Finset.mem_insert, h.mem_entering]
    by_cases hid : id' = id
    · subst hid
      simp [hcall, eq_comm]
    · rw [goOn_calls_of_ne _ hid, take_calls]
      simp [hid]
  · rw [copies_insert hnew]
    have hrefs := h.refs other
    show (if other = file ∧ Owner.cache = .cache then s.refs other .cache + 1
      else s.refs other .cache) = _ + s.cleaner.dropped.count other
    simp only [and_true, eq_comm (a := other)]
    split <;> omega

/-- A fetched file becomes an entry at an address that has none. -/
theorem Books.store {entries : Finset (Addr × File)} {entering : Finset (ℕ × File)} {id : ℕ}
    {addr : Addr} {file : File} (h : Books B s entries entering)
    (hcall : s.calls id = some (.fetched addr file)) (hnone : s.cachedBlobs addr = none)
    (cleanupChan : Bool) :
    Books B (({ s with
        currentSize := s.currentSize + B.getSize file
        cleanupChan := cleanupChan }.putEntry addr file).goOn id (.ended addr (.file file)))
      (insert (addr, file) entries) (entering.erase (id, file)) := by
  have hnew : (addr, file) ∉ entries := by
    rw [h.mem_entries, hnone]
    nofun
  have hold : (id, file) ∈ entering := (h.mem_entering id file).mpr ⟨addr, hcall⟩
  refine ⟨mem_insert_putEntry h.mem_entries hnone, fun id' file' => ?_, ?_, fun other => ?_, ?_⟩
  · rw [Finset.mem_erase, h.mem_entering]
    by_cases hid : id' = id
    · subst hid
      simp [hcall, eq_comm]
    · rw [goOn_calls_of_ne _ hid, putEntry_calls]
      simp [hid]
  · rw [Finset.sum_insert hnew, ← h.size]
    show s.currentSize + B.getSize file = B.getSize file + s.currentSize
    exact add_comm _ _
  · have hrefs := h.refs other
    rw [copies_erase hold] at hrefs
    rw [copies_insert hnew]
    show s.refs other .cache = _ + s.cleaner.dropped.count other
    simp only at hrefs ⊢
    omega
  · intro collected hcollected
    obtain ⟨hnodup, hmem⟩ := h.collected collected hcollected
    exact ⟨hnodup, fun entry hentry => Finset.mem_insert_of_mem (hmem entry hentry)⟩

omit [DecidableEq Addr] in
/-- `req.cond.Broadcast()` and what comes before it. -/
theorem Books.broadcast {entries : Finset (Addr × File)} {entering : Finset (ℕ × File)}
    (h : Books B s entries entering) (id : ℕ) : Books B (s.broadcast id) entries entering := by
  refine h.congr rfl (fun id' addr file => ?_) rfl (fun _ => rfl) rfl
  rw [broadcast_calls]
  rcases wake_cases id (s.calls id') with ⟨addr', hwaiting, hwoken⟩ | ⟨-, hsame⟩
  · rw [hwoken, hwaiting]
    exact iff_of_false nofun nofun
  · rw [hsame]

omit [DecidableEq Addr] in
/-- The cleanup gives up the reference of a file that it has dropped. -/
theorem Books.release {entries : Finset (Addr × File)} {entering : Finset (ℕ × File)} {file : File}
    {toRemove : List File} (h : Books B s entries entering)
    (hcleaner : s.cleaner = .releasing (file :: toRemove)) :
    Books B { s.release file .cache with cleaner := .releasing toRemove } entries entering := by
  refine ⟨h.mem_entries, h.mem_entering, h.size, fun other => ?_, nofun⟩
  have hrefs := h.refs other
  rw [hcleaner] at hrefs
  show (if other = file ∧ Owner.cache = .cache then s.refs other .cache - 1
    else s.refs other .cache) = _ + toRemove.count other
  have hdropped : (Cleaner.releasing (file :: toRemove) : Cleaner Addr File).dropped =
    file :: toRemove := rfl
  rw [hdropped, List.count_cons] at hrefs
  simp only [and_true, beq_iff_eq, eq_comm (a := other)] at hrefs ⊢
  split at hrefs <;> simp_all

/-! ## The eviction -/

/-- What `performCleanup` does with the entries that it has collected. -/
structure Evicted (B : Blobs Addr File) (limits : Limits) (s t : Cache Addr File Err)
    (toRemove : List File) (dropped kept : List (Addr × File)) : Prop where
  cached : ∀ addr, t.cachedBlobs addr =
    if addr ∈ dropped.map Prod.fst then none else s.cachedBlobs addr
  size : t.currentSize = s.currentSize - (dropped.map fun entry => B.getSize entry.2).sum
  cleaner : t.cleaner = .releasing (toRemove ++ dropped.map Prod.snd)
  enough : t.currentSize ≤ limits.targetSize ∨ kept = []
  calls : t.calls = s.calls
  refs : t.refs = s.refs

omit [DecidableEq File] in
theorem evict_spec (s : Cache Addr File Err) (entries : List (Addr × File)) (toRemove : List File) :
    ∃ dropped kept, entries = dropped ++ kept ∧
      Evicted B limits s (s.evict B limits entries toRemove) toRemove dropped kept := by
  induction entries generalizing s toRemove with
  | nil =>
      refine ⟨[], [], rfl, ?_⟩
      constructor <;> simp [Cache.evict]
  | cons entry entries ih =>
      obtain ⟨addr, file⟩ := entry
      rw [Cache.evict]
      split
      next hsmall =>
        refine ⟨[], (addr, file) :: entries, rfl, ?_⟩
        constructor <;> simp [hsmall]
      next hlarge =>
        obtain ⟨dropped, kept, rfl, hcached, hsize, hcleaner, henough, hcalls, hrefs⟩ := ih
          { s with
            cachedBlobs := Function.update s.cachedBlobs addr none
            currentSize := s.currentSize - B.getSize file } (toRemove ++ [file])
        refine ⟨(addr, file) :: dropped, kept, rfl, fun addr' => ?_, ?_, ?_, henough, hcalls, hrefs⟩
        · rw [hcached]
          by_cases haddr : addr' = addr
          · subst haddr
            simp
          · simp only [List.map_cons, List.mem_cons, haddr, false_or]
            rw [Function.update_of_ne haddr]
        · rw [hsize, List.map_cons, List.sum_cons]
          show s.currentSize - B.getSize file - _ = s.currentSize - (B.getSize file + _)
          omega
        · rw [hcleaner]
          simp

omit [DecidableEq Addr] in
theorem count_map_snd {Key : Type} (list : List (Key × File)) (file : File) :
    (list.map fun element => if element.2 = file then 1 else 0).sum =
      (list.map Prod.snd).count file := by
  induction list with
  | nil => rfl
  | cons element list ih =>
      rw [List.map_cons, List.sum_cons, ih, List.map_cons, List.count_cons]
      simp only [beq_iff_eq]
      omega

omit [DecidableEq Addr] in
theorem copies_sdiff {Key : Type} [DecidableEq Key] {set : Finset (Key × File)}
    {list : List (Key × File)} (hsub : list.toFinset ⊆ set) (hnodup : list.Nodup) (file : File) :
    copies file set = copies file (set \ list.toFinset) + (list.map Prod.snd).count file := by
  unfold copies
  simp only [Finset.card_filter]
  rw [← Finset.sum_sdiff hsub, List.sum_toFinset _ hnodup, count_map_snd]

/-- What is left after an eviction. -/
theorem Books.evicted {entries : Finset (Addr × File)} {entering : Finset (ℕ × File)}
    {dropped kept : List (Addr × File)} (h : Books B s entries entering)
    (hcleaner : s.cleaner = .collected (dropped ++ kept))
    (hevicted : Evicted B limits s t [] dropped kept) :
    Books B t (entries \ dropped.toFinset) entering := by
  obtain ⟨hnodup, hmem⟩ := h.collected _ hcleaner
  have hdropped : dropped.Nodup := hnodup.of_append_left
  have hsub : dropped.toFinset ⊆ entries := by
    intro entry hentry
    exact hmem entry (List.mem_append_left _ (List.mem_toFinset.mp hentry))
  refine ⟨fun addr file => ?_, fun id file => ?_, ?_, fun file => ?_, ?_⟩
  · rw [Finset.mem_sdiff, List.mem_toFinset, h.mem_entries, hevicted.cached]
    by_cases hin : addr ∈ dropped.map Prod.fst
    · rw [if_pos hin]
      obtain ⟨⟨_, file'⟩, hentry, rfl⟩ := List.mem_map.mp hin
      have hfile' := (h.mem_entries _ _).mp (hmem _ (List.mem_append_left _ hentry))
      refine iff_of_false ?_ nofun
      rintro ⟨hfile, hnot⟩
      rw [hfile', Option.some.injEq] at hfile
      exact hnot (hfile ▸ hentry)
    · rw [if_neg hin, and_iff_left]
      exact fun hentry => hin (List.mem_map_of_mem hentry)
  · rw [h.mem_entering, hevicted.calls]
  · have hsum := Finset.sum_sdiff (f := fun entry => B.getSize entry.2) hsub
    rw [hevicted.size, h.size, ← hsum, List.sum_toFinset _ hdropped]
    simp
  · have hrefs := h.refs file
    rw [hcleaner, copies_sdiff hsub hdropped] at hrefs
    rw [hevicted.refs, hevicted.cleaner, hrefs]
    show _ + 0 = _ + List.count file ([] ++ dropped.map Prod.snd)
    rw [List.nil_append]
    omega
  · rw [hevicted.cleaner]
    nofun

/-! ## Steps and runs -/

omit [DecidableEq Addr] in
theorem Books.pass {entries : Finset (Addr × File)} {entering : Finset (ℕ × File)}
    (h : Books B s entries entering) (inFlight : Addr → Option ℕ)
    (results : ℕ → Option (Result Addr File Err)) (mutex : Option ℕ) :
    Books B { s with inFlight := inFlight, results := results, mutex := mutex } entries entering :=
  h.congr rfl (fun _ _ _ => Iff.rfl) rfl (fun _ => rfl) rfl

omit [DecidableEq Addr] in
/-- The cleanup goes on with nothing to release. -/
theorem Books.clean {entries : Finset (Addr × File)} {entering : Finset (ℕ × File)}
    {cleaner : Cleaner Addr File} (h : Books B s entries entering)
    (hbefore : s.cleaner.dropped = []) (hafter : cleaner.dropped = []) (hcollected : ∀ collected, cleaner = .collected collected →
      collected.Nodup ∧ ∀ entry ∈ collected, entry ∈ entries) (cleanupChan : Bool) :
    Books B { s with cleanupChan := cleanupChan, cleaner := cleaner } entries entering := by
  refine ⟨h.mem_entries, h.mem_entering, h.size, fun file => ?_, hcollected⟩
  have hrefs := h.refs file
  rw [hbefore] at hrefs
  rw [hafter]
  exact hrefs

/-- Every step keeps the books that settles them. -/
theorem Books.step {entries : Finset (Addr × File)} {entering : Finset (ℕ × File)}
    (h : Books B s entries entering) (hstep : Step B limits s t) (hsettles : Settles B s t) :
    ∃ entries entering, Books B t entries entering := by
  cases hstep with
  | call hidle => exact ⟨_, _, h.goOn_new hidle nofun⟩
  | @lock id addr hcall _ => exact ⟨_, _, (h.pass _ _ (some id)).goOn hcall nofun nofun⟩
  | @hit id addr file hcall _ => exact ⟨_, _, (h.take_call file id).goOn hcall nofun nofun⟩
  | @readFile id addr file hcall hentry _ =>
      have hsize := hsettles.find addr file ⟨id, hcall, goOn_calls_self ..⟩ hentry
      exact ⟨_, _, ((h.find hentry hsize).take_call file id).goOn hcall nofun nofun⟩
  | wait hcall _ _ => exact ⟨_, _, (h.pass _ _ none).goOn hcall nofun nofun⟩
  | fetch hcall _ _ => exact ⟨_, _, (h.pass _ _ none).goOn hcall nofun nofun⟩
  | @fetchDone id addr file hcall _ => exact ⟨_, _, (h.take_call file id).fetchDone hcall⟩
  | fetchFailed hcall => exact ⟨_, _, h.goOn hcall nofun nofun⟩
  | @store id addr file hcall _ =>
      have hnone := hsettles.store addr file ⟨id, hcall, goOn_calls_self ..⟩
      exact ⟨_, _, h.store hcall hnone _⟩
  | @finish id addr result hcall _ =>
      have hcalls : (s.broadcast id).calls id = some (.ended addr result) := by
        rw [broadcast_calls, hcall]
        rfl
      exact ⟨_, _, ((h.broadcast id).pass _ _ (some id)).goOn hcalls nofun nofun⟩
  | @resume id req addr hcall _ => exact ⟨_, _, (h.pass _ _ (some id)).goOn hcall nofun nofun⟩
  | fail hcall _ => exact ⟨_, _, h.goOn hcall nofun nofun⟩
  | retry hcall _ => exact ⟨_, _, h.goOn hcall nofun nofun⟩
  | @lockRetry id req addr hcall _ => exact ⟨_, _, (h.pass _ _ (some id)).goOn hcall nofun nofun⟩
  | unlock hcall => exact ⟨_, _, (h.pass _ _ none).goOn hcall nofun nofun⟩
  | cleanup hidle _ =>
      refine ⟨_, _, h.clean ?_ rfl ?_ false⟩
      · rw [hidle]
        rfl
      · nofun
  | @collect collected hcleaner _ hnodup hcollected =>
      refine ⟨_, _, h.clean ?_ rfl ?_ s.cleanupChan⟩
      · rw [hcleaner]
        rfl
      · rintro _ ⟨rfl⟩
        refine ⟨hnodup, fun entry hentry => ?_⟩
        exact (h.mem_entries _ _).mpr ((hcollected _ _).mp hentry)
  | @evict collected hcleaner _ =>
      obtain ⟨dropped, kept, heq, hevicted⟩ := @evict_spec Addr File Err _ B limits s collected []
      rw [heq] at hcleaner
      exact ⟨_, _, h.evicted hcleaner hevicted⟩
  | release hcleaner => exact ⟨_, _, h.release hcleaner⟩
  | cleaned hcleaner =>
      refine ⟨_, _, h.clean ?_ rfl ?_ s.cleanupChan⟩
      · rw [hcleaner]
        rfl
      · nofun

/-- A file that becomes an entry while `currentSize` stays is in the books only if it has no
size. -/
theorem Books.getSize_eq_zero {entries entries' : Finset (Addr × File)}
    {entering entering' : Finset (ℕ × File)} {addr : Addr} {file : File}
    (h : Books B s entries entering) (h' : Books B t entries' entering')
    (hnone : s.cachedBlobs addr = none)
    (hcached : t.cachedBlobs = (s.putEntry addr file).cachedBlobs)
    (hcurrent : t.currentSize = s.currentSize) : B.getSize file = 0 := by
  have hentries : entries' = insert (addr, file) entries := by
    ext ⟨addr', file'⟩
    rw [h'.mem_entries, hcached, mem_insert_putEntry h.mem_entries hnone]
  have hnew : (addr, file) ∉ entries := by
    rw [h.mem_entries, hnone]
    nofun
  have hsum := h'.size
  rw [hcurrent, h.size, hentries, Finset.sum_insert hnew] at hsum
  exact right_eq_add.mp hsum

/-- What a step has to keep to: it settles the books, and what has come in since the cleanup
took its snapshot is no more than what it aims at. -/
structure SettledStep (B : Blobs Addr File) (limits : Limits) (s t : Aged Addr File Err) :
    Prop where
  step : AgedStep B limits s t
  settles : Settles B s.cache t.cache
  later : ∀ collected, s.cache.cleaner = .collected collected →
    (∀ collected', t.cache.cleaner ≠ .collected collected') →
    ∀ later : Finset (Addr × File),
      (∀ entry ∈ later, s.cache.cachedBlobs entry.1 = some entry.2 ∧ entry ∉ collected) →
        ∑ entry ∈ later, B.getSize entry.2 ≤ limits.targetSize

/-- A cleanup that evicts drops the first ones of its entries by last access, and comes down
to 90 percent. -/
def CleansUp (maxSize : ℕ) (s t : Aged Addr File Err) : Prop :=
  ∀ collected, s.cache.cleaner = .collected collected →
    (∀ collected', t.cache.cleaner ≠ .collected collected') →
    ∃ times dropped kept, s.sorted = some times ∧ collected = dropped ++ kept ∧
      (collected.Pairwise fun entry later => times entry.1 ≤ times later.1) ∧
      (∀ addr file, t.cache.cachedBlobs addr = some file ↔
        s.cache.cachedBlobs addr = some file ∧ (addr, file) ∉ dropped) ∧
      t.cache.cleaner = .releasing (dropped.map Prod.snd) ∧ 10 * t.cache.currentSize ≤ 9 * maxSize

/-- The invariant of a run. -/
structure AgedBooks (B : Blobs Addr File) (s : Aged Addr File Err) : Prop where
  books : ∃ entries entering, Books B s.cache entries entering
  sorted : ∀ times, s.sorted = some times → ∃ collected, s.cache.cleaner = .collected collected ∧
    collected.Pairwise fun entry later => times entry.1 ≤ times later.1

omit [DecidableEq Addr] in
theorem agedStarted_books {s : Aged Addr File Err} (h : AgedStarted s) : AgedBooks B s where
  books := by
    refine ⟨∅, ∅, fun addr file => ?_, fun id file => ?_, h.currentSize, fun file => ?_, ?_⟩
    · simp [h.started.cachedBlobs]
    · simp [h.started.calls]
    · rw [h.refs, h.started.cleaner]
      rfl
    · rw [h.started.cleaner]
      nofun
  sorted := by
    rw [h.sorted]
    nofun

/-- Whoever accesses an entry leaves the cleanup alone. -/
theorem Accesses.cleaner {addr : Addr} (h : Accesses s t addr) (hstep : Step B limits s t) :
    t.cleaner = s.cleaner := by
  -- the steps of the cleanup are no steps of a call
  have hcalls : t.calls ≠ s.calls := by
    intro heq
    rcases h with ⟨file, ⟨id, hbefore, hafter⟩ | ⟨id, hbefore, hafter⟩⟩
    · rw [heq, hbefore] at hafter
      cases hafter
    · rw [heq, hbefore] at hafter
      cases hafter
  cases hstep with
  | evict => exact absurd (evict_cleaned s _ _).calls hcalls
  | cleanup | collect | release | cleaned => exact absurd rfl hcalls
  | _ => rfl

theorem AgedBooks.step {s t : Aged Addr File Err} (h : AgedBooks B s)
    (hstep : SettledStep B limits s t) : AgedBooks B t := by
  obtain ⟨hstep, hsettles, -⟩ := hstep
  obtain ⟨entries, entering, hbooks⟩ := h.books
  cases hstep with
  | access now hstep haddr =>
      refine ⟨hbooks.step hstep hsettles, ?_⟩
      rw [haddr.cleaner hstep]
      exact h.sorted
  | @sort collected _ hcleaner hsorted hperm horder =>
      obtain ⟨hnodup, hmem⟩ := hbooks.collected collected hcleaner
      refine ⟨⟨entries, entering, hbooks.clean ?_ rfl ?_ _⟩, ?_⟩
      · rw [hcleaner]
        rfl
      · rintro _ ⟨rfl⟩
        exact ⟨hperm.nodup_iff.mpr hnodup, fun entry hentry => hmem entry (hperm.subset hentry)⟩
      · rintro _ ⟨rfl⟩
        exact ⟨_, rfl, horder⟩
  | evict hcleaner hsorted hfree => exact ⟨hbooks.step (.evict hcleaner hfree) hsettles, nofun⟩
  | other hstep haddr hcleaner =>
      refine ⟨hbooks.step hstep hsettles, fun times htimes => ?_⟩
      obtain ⟨collected, hcollected, horder⟩ := h.sorted times htimes
      exact ⟨collected, hcleaner collected hcollected, horder⟩

/-- The eviction of a cleanup. -/
theorem AgedBooks.cleansUp {maxSize : ℕ} {s t : Aged Addr File Err} (h : AgedBooks B s)
    (hmax : 10 * targetSizeOf maxSize ≤ 9 * maxSize)
    (hstep : SettledStep B (.ofMaxSize maxSize) s t) : CleansUp maxSize s t := by
  obtain ⟨hstep, -, hlater⟩ := hstep
  intro collected hcleaner hends
  cases hstep with
  | access now hstep haddr => exact absurd ((haddr.cleaner hstep).trans hcleaner) (hends collected)
  | sort => exact absurd rfl (hends _)
  | other hstep haddr hcleaner' => exact absurd (hcleaner' collected hcleaner) (hends collected)
  | @evict collected' times hcleaner' hsorted hfree =>
      cases hcleaner.symm.trans hcleaner'
      obtain ⟨entries, entering, hbooks⟩ := h.books
      obtain ⟨dropped, kept, rfl, hevicted⟩ :=
        @evict_spec Addr File Err _ B (.ofMaxSize maxSize) s.cache collected []
      obtain ⟨_, hsame, horder⟩ := h.sorted times hsorted
      cases hcleaner.symm.trans hsame
      have hafter := hbooks.evicted hcleaner hevicted
      have htarget : (s.cache.evict B (.ofMaxSize maxSize) (dropped ++ kept) []).currentSize ≤
          targetSizeOf maxSize := by
        rcases hevicted.enough with henough | rfl
        · exact henough
        · rw [hafter.size]
          refine hlater _ hcleaner hends _ fun entry hentry => ?_
          rw [Finset.mem_sdiff, List.mem_toFinset, ← List.append_nil dropped] at hentry
          exact ⟨(hbooks.mem_entries _ _).mp hentry.1, hentry.2⟩
      refine ⟨times, dropped, kept, hsorted, rfl, horder, fun addr file => ?_, hevicted.cleaner, ?_⟩
      · rw [← hafter.mem_entries, Finset.mem_sdiff, hbooks.mem_entries, List.mem_toFinset]
      · show 10 * (s.cache.evict B (.ofMaxSize maxSize) (dropped ++ kept) []).currentSize ≤ _
        omega

/-- As long as no file with a size comes into the cache from the blob store, and no fetched
file takes the place of an entry, the books of the cache are right; and a cleanup comes down
to 90 percent, unless more than that has come in since it took its snapshot. -/
theorem cache_accounting {maxSize : ℕ} {past : List (Aged Addr File Err)} {s : Aged Addr File Err}
    (hsize : ∀ file, 0 ≤ B.getSize file) (hmax : 10 * targetSizeOf maxSize ≤ 9 * maxSize)
    (h : Run AgedStarted (SettledStep B (.ofMaxSize maxSize)) past s) :
    ∀ u ∈ s :: past, 0 ≤ u.cache.currentSize ∧
      (∃ entries entering, Books B u.cache entries entering) ∧
      ∀ v, SettledStep B (.ofMaxSize maxSize) u v → CleansUp maxSize u v := by
  have hinv : ∀ u ∈ s :: past, AgedBooks B u :=
    h.invariant_mem (fun u hu => agedStarted_books hu) fun u v hu huv => hu.step huv
  intro u hu
  obtain ⟨entries, entering, hbooks⟩ := (hinv u hu).books
  refine ⟨?_, ⟨entries, entering, hbooks⟩, fun v huv => (hinv u hu).cleansUp hmax huv⟩
  rw [hbooks.size]
  exact Finset.sum_nonneg fun entry _ => hsize entry.2

/-! ## A blob that is fetched, and one that is found -/

omit [DecidableEq Addr] [DecidableEq File] in
theorem not_accesses_goOn {id : ℕ} {call : Call Addr File Err} (hcalls : t.calls = s.calls)
    (hnot : ∀ addr file, call ≠ .returning addr (.file file) ∧ call ≠ .ended addr (.file file))
    (addr : Addr) : ¬ Accesses s (t.goOn id call) addr := by
  have hself : ∀ {id' before after}, s.calls id' = some before →
      (t.goOn id call).calls id' = some after → before ≠ after → call = after := by
    intro id' before after hbefore hafter hne
    by_cases hid : id' = id
    · rw [hid, goOn_calls_self] at hafter
      exact Option.some.inj hafter
    · rw [goOn_calls_of_ne t hid, hcalls, hbefore] at hafter
      exact absurd (Option.some.inj hafter) hne
  rintro ⟨file, ⟨id', hbefore, hafter⟩ | ⟨id', hbefore, hafter⟩⟩
  · exact (hnot addr file).1 (hself hbefore hafter nofun)
  · exact (hnot addr file).2 (hself hbefore hafter nofun)

/-- A step in which no entry is accessed, while the cleanup is idle. -/
theorem SettledStep.quiet {s : Aged Addr File Err} (hstep : Step B limits s.cache t)
    (haddr : ∀ addr, ¬ Accesses s.cache t addr) (hidle : s.cache.cleaner = .idle) :
    SettledStep B limits s ⟨t, s.lastAccessed, s.sorted⟩ where
  step := by
    refine .other hstep haddr ?_
    rw [hidle]
    nofun
  settles := {
    find := fun addr file hfinds => absurd ⟨file, .inl hfinds⟩ (haddr addr)
    store := fun addr file hstores => absurd ⟨file, .inr hstores⟩ (haddr addr) }
  later := by
    rw [hidle]
    nofun

/-- A fetched file becomes an entry, while the cleanup is idle. -/
theorem SettledStep.store {s : Aged Addr File Err} {id : ℕ} {addr : Addr} {file : File} (now : ℤ)
    (hcall : s.cache.calls id = some (.fetched addr file)) (hfree : s.cache.mutex = none)
    (hnone : s.cache.cachedBlobs addr = none) (hidle : s.cache.cleaner = .idle) :
    SettledStep B limits s ⟨({ s.cache with
      currentSize := s.cache.currentSize + B.getSize file
      cleanupChan := s.cache.cleanupChan ||
        decide (limits.maxSize < s.cache.currentSize + B.getSize file) }.putEntry addr file).goOn id
          (.ended addr (.file file)), Function.update s.lastAccessed addr now, s.sorted⟩ where
  step := .access now (.store hcall hfree) ⟨file, .inr ⟨id, hcall, goOn_calls_self ..⟩⟩
  settles := {
    find := by
      rintro addr' file' ⟨other, hbefore, hafter⟩
      by_cases hother : other = id
      · subst hother
        cases hcall.symm.trans hbefore
      · rw [goOn_calls_of_ne _ hother, putEntry_calls, hbefore] at hafter
        cases hafter
    store := by
      rintro addr' file' ⟨other, hbefore, hafter⟩
      by_cases hother : other = id
      · subst hother
        cases hcall.symm.trans hbefore
        exact hnone
      · rw [goOn_calls_of_ne _ hother, putEntry_calls, hbefore] at hafter
        cases hafter }
  later := by
    rw [hidle]
    nofun

end Aged

abbrev NamedAged := Aged GoString GoString GoString

/-- A call has the mutex of an empty cache. -/
theorem run_locked : ∃ (past : List NamedAged) (s : NamedAged),
    Run AgedStarted (SettledStep named (.ofMaxSize 1073741824)) past s ∧
    s.cache.calls 0 = some (.locked ['Q', 'm', 'F']) ∧ s.cache.cachedBlobs ['Q', 'm', 'F'] = none ∧
    s.cache.inFlight ['Q', 'm', 'F'] = none ∧ s.cache.cleaner = .idle ∧
    s.cache.currentSize = 0 := by
  have hstart : Run AgedStarted (SettledStep named (.ofMaxSize 1073741824)) []
      (⟨emptyCache, fun _ => 0, none⟩ : NamedAged) :=
    .start ⟨started_emptyCache, rfl, fun _ => rfl, rfl⟩
  have hcalled := hstart.step (.quiet (@Step.call _ _ _ _ _ _ _ _ 0 ['Q', 'm', 'F'] rfl)
    (not_accesses_goOn rfl fun _ _ => ⟨nofun, nofun⟩) rfl)
  have hlocked := hcalled.step (.quiet (@Step.lock _ _ _ _ _ _ _ _ 0 _ rfl rfl)
    (not_accesses_goOn rfl fun _ _ => ⟨nofun, nofun⟩) rfl)
  exact ⟨_, _, hlocked, rfl, rfl, rfl, rfl, rfl⟩

/-- The blob is fetched, and counted. -/
theorem cache_accounting_fetched : ∃ (past : List NamedAged) (s : NamedAged),
    Run AgedStarted (SettledStep named (.ofMaxSize 1073741824)) past s ∧
    s.cache.currentSize = 1 ∧ ∃ entries entering, Books named s.cache entries entering := by
  obtain ⟨past, s, hlocked, hcall, hnone, hreq, hidle, hzero⟩ := run_locked
  have hfetching := hlocked.step (.quiet (@Step.fetch _ _ _ _ _ _ _ _ 0 _ hcall hnone hreq)
    (not_accesses_goOn rfl fun _ _ => ⟨nofun, nofun⟩) hidle)
  have hfetched := hfetching.step (.quiet
    (@Step.fetchDone _ _ _ _ _ _ _ _ 0 _ ['Q', 'm', 'F'] (goOn_calls_self ..) rfl)
    (not_accesses_goOn rfl fun _ _ => ⟨nofun, nofun⟩) hidle)
  have hstored := hfetched.step (.store 2 (goOn_calls_self ..) rfl hnone hidle)
  obtain ⟨-, hbooks, -⟩ := cache_accounting (fun _ => zero_le_one) (targetSizeOf_le (by decide))
    hstored _ List.mem_cons_self
  refine ⟨_, _, hstored, ?_, hbooks⟩
  show s.cache.currentSize + 1 = 1
  rw [hzero, zero_add]

/-- The blob is found in the blob store: it becomes an entry, and `currentSize` stays 0. -/
theorem cache_accounting_fails : ∃ (past : List NamedAged) (s : NamedAged),
    Run AgedStarted (AgedStep named (.ofMaxSize 1073741824)) past s ∧
    ¬ ∃ entries entering, Books named s.cache entries entering := by
  obtain ⟨past, s, hlocked, hcall, hnone, -, -, -⟩ := run_locked
  have hfind := @Step.readFile _ _ _ _ _ named (.ofMaxSize 1073741824) _ 0 _ ['Q', 'm', 'F']
    hcall hnone rfl
  have hfound := (hlocked.mono fun _ _ hstep => hstep.step).step
    (.access 2 hfind ⟨['Q', 'm', 'F'], .inl ⟨0, hcall, goOn_calls_self ..⟩⟩)
  have hbooks := (hlocked.invariant (fun _ => agedStarted_books) fun _ _ => AgedBooks.step).books
  obtain ⟨entries, entering, hbooks⟩ := hbooks
  refine ⟨_, _, hfound, ?_⟩
  rintro ⟨entries', entering', hafter⟩
  exact one_ne_zero (hbooks.getSize_eq_zero hafter hnone rfl rfl)

end BlobGet

end Grits
