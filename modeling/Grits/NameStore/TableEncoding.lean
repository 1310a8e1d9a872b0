import Mathlib.Data.Prod.Lex
import Mathlib.Data.List.Lex
import Mathlib.Data.Char
import Mathlib.Data.List.Sort
import Mathlib.Logic.Equiv.List
import Grits.NameStore.State

/-!
# Encodings that agree with a table of blobs

A finite table of blobs, with the addresses and the meaning they have in a real
volume, extends to an `Encoding`: whatever is not in the table is encoded in a
way of its own, outside of JSON and of the CIDs.  The laws of `Encoding` come
down to a decidable check of the table, that no blob mentions a later one among
other things.
-/

namespace Grits

/-! ## Enumerating the data to encode -/

/-- The order of directory entries. -/
def entryLe (entry other : Σ _ : GoString, BlobAddr) : Prop :=
  toLex (entry.1, entry.2) ≤ toLex (other.1, other.2)

instance : DecidableRel entryLe := fun entry other =>
  inferInstanceAs (Decidable (toLex (entry.1, entry.2) ≤ toLex (other.1, other.2)))

instance : Std.Total entryLe :=
  ⟨fun entry other => le_total (toLex (entry.1, entry.2)) (toLex (other.1, other.2))⟩

instance : IsTrans (Σ _ : GoString, BlobAddr) entryLe := ⟨fun _ _ _ h h' => le_trans h h'⟩

instance : Std.Antisymm entryLe where
  antisymm := by
    rintro ⟨name, addr⟩ ⟨name', addr'⟩ h h'
    have heq := toLex.injective (le_antisymm h h')
    rw [Prod.mk.injEq] at heq
    obtain ⟨rfl, rfl⟩ := heq
    rfl

/-- The entries of a directory map in a fixed order. -/
def sortedEntries (children : Children) : List (Σ _ : GoString, BlobAddr) :=
  Quotient.liftOn children.entries (fun entries => entries.insertionSort entryLe)
    fun _ _ hperm => List.Perm.eq_of_pairwise'
      (List.pairwise_insertionSort entryLe _) (List.pairwise_insertionSort entryLe _)
      ((List.perm_insertionSort entryLe _).trans
        (hperm.trans (List.perm_insertionSort entryLe _).symm))

theorem coe_sortedEntries (children : Children) :
    (sortedEntries children : Multiset _) = children.entries := by
  obtain ⟨entries, hentries⟩ := Quotient.exists_rep children.entries
  rw [sortedEntries, ← hentries]
  exact Multiset.coe_eq_coe.mpr (List.perm_insertionSort entryLe entries)

theorem toFinmap_sortedEntries (children : Children) :
    (sortedEntries children).toFinmap = children := by
  refine Finmap.ext_lookup fun name => ?_
  have hnodup : (sortedEntries children).NodupKeys := by
    rw [← Multiset.coe_nodupKeys, coe_sortedEntries]
    exact children.nodupKeys
  rw [Finmap.dlookup_list_toFinmap]
  cases hname : children.lookup name with
  | some addr =>
      rw [← Option.mem_def, List.mem_dlookup_iff hnodup, ← Multiset.mem_coe, coe_sortedEntries]
      exact Finmap.lookup_eq_some_iff.mp hname
  | none =>
      rw [List.dlookup_eq_none]
      intro hkey
      obtain ⟨⟨name', addr⟩, hmem, rfl⟩ := List.mem_map.mp hkey
      rw [← Multiset.mem_coe, coe_sortedEntries] at hmem
      rw [Finmap.lookup_eq_some_iff.mpr hmem] at hname
      cases hname

instance instEncodableChar : Encodable Char :=
  Encodable.ofLeftInjection Char.toNat (fun n => some (Char.ofNat n)) fun c => by simp

instance : Encodable Children :=
  Encodable.ofLeftInverse sortedEntries List.toFinmap toFinmap_sortedEntries

/-- The parts of a metadata record, as numbers and texts. -/
def GNodeMetadata.parts (metadata : GNodeMetadata) :
    Option (Option ℤ) × ℤ × GoString × ℕ × GoString :=
  (match metadata.type with
    | .file => none
    | .directory => some none
    | .other value => some (some value),
    metadata.size.toInt, metadata.contentHash, metadata.mode.toNat, metadata.timestamp)

/-- The metadata record with these parts. -/
def GNodeMetadata.ofParts (parts : Option (Option ℤ) × ℤ × GoString × ℕ × GoString) :
    GNodeMetadata where
  type := match parts.1 with
    | none => .file
    | some none => .directory
    | some (some value) => .other value
  size := Int64.ofInt parts.2.1
  contentHash := parts.2.2.1
  mode := UInt32.ofNat parts.2.2.2.1
  timestamp := parts.2.2.2.2

theorem GNodeMetadata.ofParts_parts (metadata : GNodeMetadata) :
    GNodeMetadata.ofParts metadata.parts = metadata := by
  obtain ⟨type, size, contentHash, mode, timestamp⟩ := metadata
  cases type <;> simp [parts, ofParts]

instance : Encodable GNodeMetadata :=
  Encodable.ofLeftInverse GNodeMetadata.parts GNodeMetadata.ofParts GNodeMetadata.ofParts_parts

theorem encode_le_encode_of_mem {α : Type} [Encodable α] {a : α} {list : List α}
    (h : a ∈ list) : Encodable.encode a ≤ Encodable.encode list := by
  induction list with
  | nil => cases h
  | cons first rest ih =>
      rw [Encodable.encode_list_cons]
      rcases List.mem_cons.mp h with rfl | hrest
      · exact (Nat.left_le_pair _ _).trans (Nat.le_succ _)
      · exact ((ih hrest).trans (Nat.right_le_pair _ _)).trans (Nat.le_succ _)

/-- Addresses in a directory map are shorter than the number that encodes it. -/
theorem length_le_encode_children {children : Children} {name : GoString} {addr : BlobAddr}
    (h : children.lookup name = some addr) : addr.length ≤ Encodable.encode children := by
  have hmem : (⟨name, addr⟩ : Σ _ : GoString, BlobAddr) ∈ sortedEntries children := by
    rw [← Multiset.mem_coe, coe_sortedEntries]
    exact Finmap.lookup_eq_some_iff.mp h
  have hentry := encode_le_encode_of_mem hmem
  rw [Encodable.encode_sigma_val] at hentry
  have haddr := Encodable.length_le_encode addr
  exact haddr.trans ((Nat.right_le_pair _ _).trans hentry)

theorem length_le_encode_metadata (metadata : GNodeMetadata) :
    metadata.contentHash.length ≤ Encodable.encode metadata := by
  have hhash := Encodable.length_le_encode metadata.contentHash
  change _ ≤ Encodable.encode metadata.parts
  rw [GNodeMetadata.parts, Encodable.encode_prod_val, Encodable.encode_prod_val,
    Encodable.encode_prod_val]
  exact hhash.trans ((Nat.left_le_pair _ _).trans ((Nat.right_le_pair _ _).trans
    (Nat.right_le_pair _ _)))

/-! ## Tables -/

/-- What a blob says when it is read as a node or a directory. -/
inductive BlobKind where
  | content
  | metadata (metadata : GNodeMetadata)
  | directory (children : Children)
  deriving DecidableEq

/-- A blob with its address and its meaning. -/
structure KnownBlob where
  data : Bytes
  addr : BlobAddr
  kind : BlobKind

/-- The metadata record a blob of this kind holds. -/
def BlobKind.asMetadata : BlobKind → Option GNodeMetadata
  | BlobKind.metadata value => some value
  | _ => none

/-- The directory map a blob of this kind holds. -/
def BlobKind.asDirectory : BlobKind → Option Children
  | BlobKind.directory children => some children
  | _ => none

namespace Table

/-- The address of a blob that is not in the table: base58 has no zero. -/
def otherAddr (data : Bytes) : BlobAddr :=
  ['Q', 'm', '0'] ++ data.map fun byte => Char.ofNat byte.toNat

theorem otherAddr_injective : Function.Injective otherAddr := by
  intro data data' h
  rw [otherAddr, otherAddr, List.append_cancel_left_eq] at h
  refine List.map_injective_iff.mpr ?_ h
  intro byte byte' hchar
  have hvalid : ∀ b : UInt8, (Char.ofNat b.toNat).toNat = b.toNat := by
    have hbytes : ∀ n < 256, (Char.ofNat n).toNat = n := by decide +kernel
    exact fun b => hbytes b.toNat b.toNat_lt
  have hnat := congrArg Char.toNat hchar
  rw [hvalid, hvalid] at hnat
  exact UInt8.toNat_inj.mp hnat

theorem length_otherAddr (data : Bytes) : (otherAddr data).length = data.length + 3 := by
  simp [otherAddr]

theorem isCid_otherAddr (data : Bytes) : IsCid (otherAddr data) := by
  change ['Q', 'm'] <+: ['Q', 'm'] ++ ('0' :: data.map fun byte => Char.ofNat byte.toNat)
  exact List.prefix_append _ _

variable (table : List KnownBlob)

/-- `ComputeHash`, as far as the table knows it. -/
def sum (data : Bytes) : BlobAddr :=
  match table.find? fun blob => blob.data = data with
  | some blob => blob.addr
  | none => otherAddr data

/-- The place of an address in the table, or a height above all of the table; what is no
address names no blob and may stand anywhere. -/
def rank (addr : BlobAddr) : ℕ :=
  match table.findIdx? fun blob => blob.addr = addr with
  | some place => place
  | none => if IsCid addr then table.length + addr.length else 0

section Codec

variable {α : Type} [DecidableEq α] [Encodable α] (tag : UInt8) (pick : BlobKind → Option α)

/-- The bytes of the first blob that holds the value, or the number of the value
behind a tag. -/
def marshal (value : α) : Bytes :=
  match table.find? fun blob => pick blob.kind = some value with
  | some blob => blob.data
  | none => tag :: List.replicate (Encodable.encode value) 1

/-- The value that the bytes hold. -/
def unmarshal (data : Bytes) : Option α :=
  match table.find? fun blob => blob.data = data with
  | some blob => pick blob.kind
  | none =>
      match data with
      | [] => none
      | first :: rest => if first = tag then Encodable.decode₂ α rest.length else none

end Codec

/-- The addresses that a blob of this kind mentions are lower than `bound`. -/
def Below (bound : ℕ) : BlobKind → Prop
  | .content => True
  | .metadata metadata => rank table metadata.contentHash < bound
  | .directory children => ∀ entry ∈ children.entries, rank table entry.2 < bound

instance (bound : ℕ) (kind : BlobKind) : Decidable (Below table bound kind) := by
  cases kind with
  | content => exact inferInstanceAs (Decidable True)
  | metadata metadata => exact inferInstanceAs (Decidable (_ < _))
  | directory children => exact inferInstanceAs (Decidable (∀ entry ∈ children.entries, _))

/-- The check of a table: addresses are CIDs and differ, contents differ and are
not in the way of the other encodings, and no blob mentions a later one. -/
structure Proper : Prop where
  addrs : (table.map (·.addr)).Nodup
  datas : (table.map (·.data)).Nodup
  cids : ∀ blob ∈ table, IsCid blob.addr ∧ ¬ ['Q', 'm', '0'] <+: blob.addr
  tags : ∀ blob ∈ table, blob.data.head? ≠ some 0 ∧ blob.data.head? ≠ some 1
  below : ∀ blob ∈ table, Below table (rank table blob.addr) blob.kind

instance : Decidable (Proper table) :=
  decidable_of_iff ((table.map (·.addr)).Nodup ∧ (table.map (·.data)).Nodup ∧
    (∀ blob ∈ table, IsCid blob.addr ∧ ¬ ['Q', 'm', '0'] <+: blob.addr) ∧
    (∀ blob ∈ table, blob.data.head? ≠ some 0 ∧ blob.data.head? ≠ some 1) ∧
    (∀ blob ∈ table, Below table (rank table blob.addr) blob.kind))
    ⟨fun ⟨h₁, h₂, h₃, h₄, h₅⟩ => ⟨h₁, h₂, h₃, h₄, h₅⟩,
      fun ⟨h₁, h₂, h₃, h₄, h₅⟩ => ⟨h₁, h₂, h₃, h₄, h₅⟩⟩

variable {table}

theorem find?_data (h : Proper table) {blob : KnownBlob} (hblob : blob ∈ table) :
    table.find? (fun other => other.data = blob.data) = some blob := by
  cases hfind : table.find? (fun other => other.data = blob.data) with
  | none =>
      rw [List.find?_eq_none] at hfind
      simpa using hfind blob hblob
  | some other =>
      have hmem := List.mem_of_find?_eq_some hfind
      have hdata : other.data = blob.data := by simpa using List.find?_some hfind
      rw [List.inj_on_of_nodup_map h.datas hmem hblob hdata]

theorem sum_of_mem (h : Proper table) {blob : KnownBlob} (hblob : blob ∈ table) :
    sum table blob.data = blob.addr := by
  rw [sum, find?_data h hblob]

theorem sum_cases (table : List KnownBlob) (data : Bytes) :
    (∃ blob ∈ table, blob.data = data ∧ sum table data = blob.addr) ∨
      (table.find? (fun blob => blob.data = data) = none ∧ sum table data = otherAddr data) := by
  unfold sum
  cases hfind : table.find? (fun blob => blob.data = data) with
  | none => exact .inr ⟨rfl, rfl⟩
  | some blob =>
      refine .inl ⟨blob, List.mem_of_find?_eq_some hfind, ?_, rfl⟩
      simpa using List.find?_some hfind

theorem otherAddr_ne (h : Proper table) {blob : KnownBlob} (hblob : blob ∈ table) (data : Bytes) :
    blob.addr ≠ otherAddr data := by
  intro heq
  refine (h.cids blob hblob).2 ?_
  rw [heq]
  exact List.prefix_append _ _

theorem sum_injective (h : Proper table) : Function.Injective (sum table) := by
  intro data data' heq
  rcases sum_cases table data with ⟨blob, hblob, rfl, hsum⟩ | ⟨-, hsum⟩
  · rcases sum_cases table data' with ⟨blob', hblob', rfl, hsum'⟩ | ⟨-, hsum'⟩
    · rw [hsum, hsum'] at heq
      rw [List.inj_on_of_nodup_map h.addrs hblob hblob' heq]
    · rw [hsum, hsum'] at heq
      exact absurd heq (otherAddr_ne h hblob data')
  · rcases sum_cases table data' with ⟨blob', hblob', rfl, hsum'⟩ | ⟨-, hsum'⟩
    · rw [hsum, hsum'] at heq
      exact absurd heq.symm (otherAddr_ne h hblob' data)
    · rw [hsum, hsum'] at heq
      exact otherAddr_injective heq

theorem isCid_sum (h : Proper table) (data : Bytes) : IsCid (sum table data) := by
  rcases sum_cases table data with ⟨blob, hblob, rfl, hsum⟩ | ⟨-, hsum⟩
  · rw [hsum]
    exact (h.cids blob hblob).1
  · rw [hsum]
    exact isCid_otherAddr data

theorem rank_le (table : List KnownBlob) (addr : BlobAddr) : rank table addr ≤ table.length + addr.length := by
  unfold rank
  cases hfind : table.findIdx? (fun blob => blob.addr = addr) with
  | none =>
      simp only
      split
      · exact le_rfl
      · exact Nat.zero_le _
  | some place =>
      have := (List.findIdx?_eq_some_iff_getElem.mp hfind).1
      simp only
      omega

theorem rank_otherAddr (h : Proper table) (data : Bytes) :
    rank table (otherAddr data) = table.length + (data.length + 3) := by
  unfold rank
  have hnone : table.findIdx? (fun blob => blob.addr = otherAddr data) = none := by
    rw [List.findIdx?_eq_none_iff]
    intro blob hblob
    simpa using otherAddr_ne h hblob data
  rw [hnone]
  simp only [length_otherAddr]
  rw [if_pos (isCid_otherAddr data)]

section Codec

variable {α : Type} [DecidableEq α] [Encodable α] {tag : UInt8} {pick : BlobKind → Option α}

theorem unmarshal_marshal (h : Proper table) (htag : tag = 0 ∨ tag = 1) (value : α) :
    unmarshal table tag pick (marshal table tag pick value) = some value := by
  rw [marshal]
  cases hfind : table.find? (fun blob => pick blob.kind = some value) with
  | some blob =>
      have hmem := List.mem_of_find?_eq_some hfind
      have hkind : pick blob.kind = some value := by simpa using List.find?_some hfind
      unfold unmarshal
      rw [find?_data h hmem]
      exact hkind
  | none =>
      have hnone : table.find? (fun blob =>
          blob.data = tag :: List.replicate (Encodable.encode value) 1) = none := by
        rw [List.find?_eq_none]
        intro blob hblob
        have htags := h.tags blob hblob
        simp only [decide_eq_true_eq]
        intro hdata
        rw [hdata, List.head?_cons] at htags
        rcases htag with rfl | rfl
        · exact htags.1 rfl
        · exact htags.2 rfl
      unfold unmarshal
      rw [hnone]
      simp only [if_true, List.length_replicate]
      exact Encodable.decode₂_encode value

omit [DecidableEq α] in
/-- A value read from bytes stands in the table or is encoded by their number. -/
theorem unmarshal_cases {data : Bytes} {value : α}
    (h : unmarshal table tag pick data = some value) :
    (∃ blob ∈ table, blob.data = data ∧ pick blob.kind = some value) ∨
      (sum table data = otherAddr data ∧ Encodable.encode value < data.length) := by
  unfold unmarshal at h
  rcases sum_cases table data with ⟨blob, hblob, rfl, -⟩ | ⟨hnone, hsum⟩
  · cases hfind : table.find? (fun other => other.data = blob.data) with
    | none =>
        rw [List.find?_eq_none] at hfind
        exact absurd (hfind blob hblob) (by simp)
    | some other =>
        rw [hfind] at h
        have hdata : other.data = blob.data := by simpa using List.find?_some hfind
        exact .inl ⟨other, List.mem_of_find?_eq_some hfind, hdata, h⟩
  · rw [hnone] at h
    cases data with
    | nil => cases h
    | cons first rest =>
        simp only at h
        split at h
        next =>
          rw [Encodable.decode₂_eq_some] at h
          refine .inr ⟨hsum, ?_⟩
          rw [h, List.length_cons]
          exact Nat.lt_succ_self _
        next => cases h

end Codec

/-- The encoding that agrees with a proper table. -/
def encoding (table : List KnownBlob) (h : Proper table) : Encoding where
  sum := sum table
  marshalDir := marshal table 0 BlobKind.asDirectory
  unmarshalDir := unmarshal table 0 BlobKind.asDirectory
  marshalMetadata := marshal table 1 BlobKind.asMetadata
  unmarshalMetadata := unmarshal table 1 BlobKind.asMetadata
  rank := rank table
  sum_injective := sum_injective h
  isCid_sum := isCid_sum h
  unmarshalDir_marshalDir := unmarshal_marshal h (.inl rfl)
  unmarshalMetadata_marshalMetadata := fun metadata _ => unmarshal_marshal h (.inr rfl) metadata
  rank_contentHash := by
    intro data metadata hdata
    rcases unmarshal_cases hdata with ⟨blob, hblob, rfl, hkind⟩ | ⟨hsum, hlt⟩
    · have hbelow := h.below blob hblob
      rw [sum_of_mem h hblob]
      cases hk : blob.kind with
      | content => rw [hk] at hkind; cases hkind
      | directory children => rw [hk] at hkind; cases hkind
      | metadata metadata' =>
          rw [hk] at hkind hbelow
          cases hkind
          exact hbelow
    · rw [hsum, rank_otherAddr h]
      have hle := rank_le table metadata.contentHash
      have hlength := length_le_encode_metadata metadata
      omega
  rank_child := by
    intro data children name addr hdata hname
    rcases unmarshal_cases hdata with ⟨blob, hblob, rfl, hkind⟩ | ⟨hsum, hlt⟩
    · have hbelow := h.below blob hblob
      rw [sum_of_mem h hblob]
      cases hk : blob.kind with
      | content => rw [hk] at hkind; cases hkind
      | metadata metadata => rw [hk] at hkind; cases hkind
      | directory children' =>
          rw [hk] at hkind hbelow
          cases hkind
          exact hbelow ⟨name, addr⟩ (Finmap.lookup_eq_some_iff.mp hname)
    · rw [hsum, rank_otherAddr h]
      have hle := rank_le table addr
      have hlength := length_le_encode_children hname
      omega

/-- The time at which the clock of a table stands still. -/
def timestamp : GoString := "1970-01-01T00:00:00Z".toList

/-- Surroundings with that encoding: the clock stands still, and maps are ranged
over in a fixed order. -/
def env (table : List KnownBlob) (h : Proper table) : Env where
  toEncoding := encoding table h
  clock := fun _ => 0
  rfc3339 := fun _ => timestamp
  childOrder := fun _ children => sortedEntries children
  cacheOrder := fun _ addrs => addrs.sort (· ≤ ·)
  coe_childOrder := fun _ children => coe_sortedEntries children
  coe_cacheOrder := fun _ addrs => Finset.sort_eq addrs (· ≤ ·)
  sparse := false

/-! ### Rows -/

/-- The bytes of an ASCII text. -/
def ascii (text : GoString) : Bytes := text.map fun c => UInt8.ofNat c.toNat

/-- A JSON string literal without escapes. -/
def quoted (text : GoString) : GoString := '"' :: text ++ ['"']

/-- The JSON text of a directory map, given in the order of its names. -/
def directoryText (entries : List (GoString × BlobAddr)) : GoString :=
  '{' :: [','].intercalate (entries.map fun entry =>
    quoted entry.1 ++ ':' :: quoted entry.2) ++ ['}']

/-- The JSON text of a metadata record. -/
def metadataText (metadata : GNodeMetadata) : GoString :=
  "\x7b\"type\":".toList ++ quoted (match metadata.type with
    | .file => "blob".toList
    | _ => "dir".toList) ++
  ",\"size\":".toList ++ Nat.toDigits 10 metadata.size.toNatClampNeg ++
  ",\"contentHash\":".toList ++ quoted metadata.contentHash ++
  ",\"mode\":".toList ++ Nat.toDigits 10 metadata.mode.toNat ++
  ",\"timestamp\":".toList ++ quoted metadata.timestamp ++ ['}']

/-- The metadata row of a node with this content. -/
def nodeRow (type : GNodeType) (mode : UInt32) (content addr : BlobAddr) (size : ℕ) : KnownBlob :=
  let metadata : GNodeMetadata := ⟨type, Int64.ofNat size, content, mode, timestamp⟩
  ⟨ascii (metadataText metadata), addr, .metadata metadata⟩

/-- The two blobs of a directory. -/
def directoryRows (content addr : String) (entries : List (String × String)) : List KnownBlob :=
  let names := entries.map fun entry => (entry.1.toList, entry.2.toList)
  let data := ascii (directoryText names)
  [⟨data, content.toList, .directory
      (names.map fun entry => (⟨entry.1, entry.2⟩ : Σ _ : GoString, BlobAddr)).toFinmap⟩,
    nodeRow .directory 0o755 content.toList addr.toList data.length]

/-- The two blobs of a file. -/
def fileRows (content addr : String) (text : String) : List KnownBlob :=
  let data := ascii text.toList
  [⟨data, content.toList, .content⟩,
    nodeRow .file 0o644 content.toList addr.toList data.length]

/-- The base-58 text of a number, put before a text. -/
def base58 : ℕ → ℕ → GoString → GoString
  | 0, _, text => text
  | count + 1, n, text =>
      let digit := n % 58
      -- the letters `I`, `O` and `l` are left out
      let code := if digit < 9 then digit + 49 else if digit < 17 then digit + 56
        else if digit < 22 then digit + 57 else if digit < 33 then digit + 58
        else if digit < 44 then digit + 64 else digit + 65
      base58 count (n / 58) (Char.ofNat code :: text)

/-- The address of a blob with this SHA-256 digest. -/
def cid (digest : ℕ) : BlobAddr := base58 46 (0x1220 * 2 ^ 256 + digest) []

/-- The two blobs of a directory, with their digests. -/
def digestDirectory (content addr : ℕ) (entries : List (GoString × ℕ)) : List KnownBlob :=
  let names := entries.map fun entry => (entry.1, cid entry.2)
  let data := ascii (directoryText names)
  [⟨data, cid content, .directory
      (names.map fun entry => (⟨entry.1, entry.2⟩ : Σ _ : GoString, BlobAddr)).toFinmap⟩,
    nodeRow .directory 0o755 (cid content) (cid addr) data.length]

/-- The two blobs of a file, with their digests. -/
def digestFile (content addr : ℕ) (text : GoString) : List KnownBlob :=
  let data := ascii text
  [⟨data, cid content, .content⟩, nodeRow .file 0o644 (cid content) (cid addr) data.length]

/-- The blobs of a table as an initial blob store; nobody refers to them yet. -/
def blobStore (table : List KnownBlob) : Finmap fun _ : BlobAddr => LocalCachedFile :=
  (table.map fun blob => (⟨blob.addr, ⟨blob.data, 0, none⟩⟩ :
    Σ _ : BlobAddr, LocalCachedFile)).toFinmap

end Table

end Grits
