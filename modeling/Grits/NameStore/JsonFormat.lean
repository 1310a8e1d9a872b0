import Mathlib
import Grits.Library.JsonText
import Grits.NameStore.TableEncoding

/-!
# The JSON of directories and metadata

What `json.Marshal` and `json.Unmarshal` do with the `map[string]BlobAddr` of a directory and with
a `GNodeMetadata` of `internal/grits/namestore.go`.  With a hash that has no collisions they are
an `Encoding`, so whatever holds of a name store over any encoding holds of it over this one.
-/

namespace Grits

open Json

/-! ## Directories -/

/-- `json.Marshal` of a `map[string]BlobAddr`: the keys are written in order. -/
def marshalDir (children : Children) : Bytes :=
  Utf8.encode (goObject ((sortedEntries children).map fun entry => (entry.1, goQuote entry.2)))

/-- `json.Unmarshal` into a string that is `old` before. -/
def stringInto (old : GoString) : Value → Option GoString
  | .string s => some s
  | .null => some old
  | _ => none

/-- An element of a `map[string]string` that is being read. -/
def putEntry (dirMap : Children) (member : List Char × Value) : Option Children :=
  (stringInto [] member.2).map fun addr => dirMap.insert member.1 addr

/-- `json.Unmarshal` into a `map[string]string`. -/
def unmarshalDir (data : Bytes) : Option Children :=
  match Json.unmarshal data with
  | some .null => some ∅
  | some (.object members) => members.foldlM putEntry ∅
  | _ => none

/-! ## Metadata -/

/-- `GNodeType.MarshalJSON` -/
def GNodeType.marshalJSON : GNodeType → Option (List Char)
  | .file => some (goQuote "blob".toList)
  | .directory => some (goQuote "dir".toList)
  | .other _ => none

/-- The fields of a `GNodeMetadata`; those tagged `omitempty` are left out if they are zero. -/
def metadataMembers (type : List Char) (metadata : GNodeMetadata) :
    List (List Char × List Char) :=
  [("type".toList, type), ("size".toList, ofAscii (Decimal.format metadata.size)),
    ("contentHash".toList, goQuote metadata.contentHash)] ++
    (if metadata.mode = 0 then []
      else [("mode".toList, ofAscii (Decimal.formatNat metadata.mode.toNat))]) ++
    if metadata.timestamp = [] then [] else [("timestamp".toList, goQuote metadata.timestamp)]

/-- `json.Marshal` of a `GNodeMetadata`; it has no data if it fails. -/
def marshalMetadata (metadata : GNodeMetadata) : Bytes :=
  match metadata.type.marshalJSON with
  | some type => Utf8.encode (goObject (metadataMembers type metadata))
  | none => []

/-- The smallest rune that `unicode.SimpleFold` leads to, as far as it is an ASCII character: two
others fold to ASCII letters. -/
def foldRune (c : Char) : Char :=
  if 'a' ≤ c ∧ c ≤ 'z' then c.toUpper
  else if c = '\u017F' then 'S'
  else if c = '\u212A' then 'K'
  else c

/-- `foldName` -/
def foldName (name : List Char) : List Char := name.map foldRune

/-- The characters of a number as bytes. -/
def asciiBytes (text : List Char) : List UInt8 := text.map fun c => UInt8.ofNat c.toNat

/-- `GNodeType.UnmarshalJSON` -/
def GNodeType.unmarshalJSON : Value → Option GNodeType
  | .string s =>
      if s = "blob".toList then some .file
      else if s = "dir".toList then some .directory
      else none
  | .number text =>
      (Decimal.parseInt (asciiBytes text)).map fun i =>
        if i = 0 then .file else if i = 1 then .directory else .other i.toInt
  | _ => none

/-- `json.Unmarshal` into an `int64` that is `old` before. -/
def intInto (old : Int64) : Value → Option Int64
  | .number text => Decimal.parseInt (asciiBytes text)
  | .null => some old
  | _ => none

/-- `json.Unmarshal` into a `uint32` that is `old` before. -/
def uintInto (old : UInt32) : Value → Option UInt32
  | .number text =>
      (Decimal.parseNat (asciiBytes text)).bind fun n =>
        if n < 2 ^ 32 then some (UInt32.ofNat n) else none
  | .null => some old
  | _ => none

/-- A member of an object that is read into a `GNodeMetadata`: its key is matched with the fields
in any case. -/
def putField (metadata : GNodeMetadata) (member : List Char × Value) : Option GNodeMetadata :=
  let key := foldName member.1
  if key = foldName "type".toList then
    (GNodeType.unmarshalJSON member.2).map fun type => { metadata with type := type }
  else if key = foldName "size".toList then
    (intInto metadata.size member.2).map fun size => { metadata with size := size }
  else if key = foldName "contentHash".toList then
    (stringInto metadata.contentHash member.2).map fun hash => { metadata with contentHash := hash }
  else if key = foldName "mode".toList then
    (uintInto metadata.mode member.2).map fun mode => { metadata with mode := mode }
  else if key = foldName "timestamp".toList then
    (stringInto metadata.timestamp member.2).map fun time => { metadata with timestamp := time }
  else some metadata

/-- The zero value of a `GNodeMetadata`. -/
def zeroMetadata : GNodeMetadata := ⟨.file, 0, [], 0, []⟩

/-- `json.Unmarshal` into a `GNodeMetadata`. -/
def unmarshalMetadata (data : Bytes) : Option GNodeMetadata :=
  match Json.unmarshal data with
  | some .null => some zeroMetadata
  | some (.object members) => members.foldlM putField zeroMetadata
  | _ => none

/-! ## The round trip of directories -/

theorem unmarshalDir_object {text : List Char} {members : List (List Char × Value)}
    (h : Compact maxNestingDepth text (.object members)) :
    unmarshalDir (Utf8.encode text) = members.foldlM putEntry ∅ := by
  rw [unmarshalDir, unmarshal_encode h]

/-- Entries with different names are all put into the map. -/
theorem foldlM_putEntry (entries : List (Σ _ : GoString, BlobAddr)) (dirMap : Children) :
    (entries.map fun entry => (entry.1, Value.string entry.2)).foldlM putEntry dirMap =
      some (entries.foldl (fun dirMap entry => dirMap.insert entry.1 entry.2) dirMap) := by
  induction entries generalizing dirMap with
  | nil => rfl
  | cons entry entries ih => exact ih _

theorem lookup_foldl_insert {entries : List (Σ _ : GoString, BlobAddr)}
    (hnodup : entries.NodupKeys) (dirMap : Children) (name : GoString) :
    (entries.foldl (fun dirMap entry => dirMap.insert entry.1 entry.2) dirMap).lookup name =
      (entries.dlookup name).or (dirMap.lookup name) := by
  induction entries generalizing dirMap with
  | nil => rfl
  | cons entry entries ih =>
      obtain ⟨hnotin, hrest⟩ := List.nodupKeys_cons.mp hnodup
      rw [List.foldl_cons, ih hrest]
      by_cases hname : name = entry.1
      · subst hname
        have hnone : entries.dlookup entry.1 = none := List.dlookup_eq_none.mpr hnotin
        rw [hnone, Option.none_or, Finmap.lookup_insert, List.dlookup_cons_eq, Option.some_or]
      · rw [Finmap.lookup_insert_of_ne _ hname, List.dlookup_cons_ne _ _ hname]

/-- What is written for a directory reads back as the directory, whatever characters are in its
names. -/
theorem unmarshalDir_marshalDir (children : Children) :
    unmarshalDir (marshalDir children) = some children := by
  have hcompact : Compact maxNestingDepth
      (goObject ((sortedEntries children).map fun entry => (entry.1, goQuote entry.2)))
      (.object ((sortedEntries children).map fun entry => (entry.1, .string entry.2))) := by
    refine compact_goObject ?_
    rw [List.forall₂_map_left_iff, List.forall₂_map_right_iff]
    exact List.forall₂_same.mpr fun entry _ => ⟨rfl, compact_goQuote _ _⟩
  rw [marshalDir, unmarshalDir_object hcompact, foldlM_putEntry]
  congr 1
  have hnodup : (sortedEntries children).NodupKeys := by
    rw [← Multiset.coe_nodupKeys, coe_sortedEntries]
    exact children.nodupKeys
  refine Finmap.ext_lookup fun name => ?_
  rw [lookup_foldl_insert hnodup, Finmap.lookup_empty, Option.or_none]
  conv_rhs => rw [← toFinmap_sortedEntries children]
  rw [Finmap.dlookup_list_toFinmap]

/-! ## The round trip of metadata -/

theorem unmarshalMetadata_object {text : List Char} {members : List (List Char × Value)}
    (h : Compact maxNestingDepth text (.object members)) :
    unmarshalMetadata (Utf8.encode text) = members.foldlM putField zeroMetadata := by
  rw [unmarshalMetadata, unmarshal_encode h]

theorem asciiBytes_ofAscii {bytes : List UInt8} (h : ∀ byte ∈ bytes, byte.toNat < 128) :
    asciiBytes (ofAscii bytes) = bytes := by
  rw [asciiBytes, ofAscii, List.map_map]
  conv_rhs => rw [← List.map_id bytes]
  refine List.map_congr_left fun byte hbyte => ?_
  have hbound := h byte hbyte
  have hchar : (Char.ofNat byte.toNat).toNat = byte.toNat :=
    Utf16.toNat_ofNat (by rw [Nat.isValidChar]; omega)
  show UInt8.ofNat (Char.ofNat byte.toNat).toNat = byte
  rw [hchar, UInt8.ofNat_toNat]

theorem formatNat_ascii (n : ℕ) : ∀ byte ∈ Decimal.formatNat n, byte.toNat < 128 := by
  intro byte hbyte
  have h := Decimal.digit_of_mem_formatNat hbyte
  omega

theorem format_ascii (n : Int64) : ∀ byte ∈ Decimal.format n, byte.toNat < 128 := by
  rw [Decimal.format]
  cases n.toInt with
  | ofNat k => exact formatNat_ascii k
  | negSucc k =>
      intro byte hbyte
      rcases List.mem_cons.mp hbyte with rfl | hbyte
      · decide
      · exact formatNat_ascii _ byte hbyte

theorem intInto_format (old n : Int64) :
    intInto old (.number (ofAscii (Decimal.format n))) = some n := by
  rw [intInto, asciiBytes_ofAscii (format_ascii n), Decimal.parseInt_format]

theorem uintInto_format (old n : UInt32) :
    uintInto old (.number (ofAscii (Decimal.formatNat n.toNat))) = some n := by
  rw [uintInto, asciiBytes_ofAscii (formatNat_ascii _), Decimal.parseNat_formatNat,
    Option.bind_some, if_pos n.toNat_lt, UInt32.ofNat_toNat]

/-- The members of a `GNodeMetadata` as they are read. -/
def metadataValues (type : GoString) (metadata : GNodeMetadata) : List (List Char × Value) :=
  [("type".toList, .string type), ("size".toList, .number (ofAscii (Decimal.format metadata.size))),
    ("contentHash".toList, .string metadata.contentHash)] ++
    (if metadata.mode = 0 then []
      else [("mode".toList, .number (ofAscii (Decimal.formatNat metadata.mode.toNat)))]) ++
    if metadata.timestamp = [] then [] else [("timestamp".toList, .string metadata.timestamp)]

theorem writes_metadataMembers (depth : ℕ) (type : GoString) (metadata : GNodeMetadata) :
    List.Forall₂ (Writes depth) (metadataMembers (goQuote type) metadata)
      (metadataValues type metadata) := by
  have hstring : ∀ key s : List Char, Writes depth (key, goQuote s) (key, .string s) :=
    fun key s => ⟨rfl, compact_goQuote depth s⟩
  have hmode : List.Forall₂ (Writes depth)
      (if metadata.mode = 0 then []
        else [("mode".toList, ofAscii (Decimal.formatNat metadata.mode.toNat))])
      (if metadata.mode = 0 then []
        else [("mode".toList, .number (ofAscii (Decimal.formatNat metadata.mode.toNat)))]) := by
    split
    · exact .nil
    · exact .cons ⟨rfl, .number (numeral_formatNat _)⟩ .nil
  have htime : List.Forall₂ (Writes depth)
      (if metadata.timestamp = [] then [] else [("timestamp".toList, goQuote metadata.timestamp)])
      (if metadata.timestamp = [] then []
        else [("timestamp".toList, .string metadata.timestamp)]) := by
    split
    · exact .nil
    · exact .cons (hstring _ _) .nil
  refine List.rel_append (List.rel_append ?_ hmode) htime
  exact .cons (hstring _ _) (.cons ⟨rfl, .number (numeral_formatInt _)⟩ (.cons (hstring _ _) .nil))

/-- No two fields match the same key. -/
theorem foldName_fields : List.Pairwise (fun field other => foldName other ≠ foldName field)
    ["type".toList, "size".toList, "contentHash".toList, "mode".toList, "timestamp".toList] := by
  decide +kernel

theorem putField_type {metadata : GNodeMetadata} {value : Value} {type : GNodeType}
    (h : GNodeType.unmarshalJSON value = some type) :
    putField metadata ("type".toList, value) = some { metadata with type := type } := by
  unfold putField
  dsimp only
  rw [if_pos rfl, h]
  rfl

theorem putField_size (metadata : GNodeMetadata) (n : Int64) :
    putField metadata ("size".toList, .number (ofAscii (Decimal.format n))) =
      some { metadata with size := n } := by
  have hfields := foldName_fields
  simp only [List.pairwise_cons, List.forall_mem_cons] at hfields
  unfold putField
  dsimp only
  rw [if_neg hfields.1.1, if_pos rfl, intInto_format]
  rfl

theorem putField_contentHash (metadata : GNodeMetadata) (hash : GoString) :
    putField metadata ("contentHash".toList, .string hash) =
      some { metadata with contentHash := hash } := by
  have hfields := foldName_fields
  simp only [List.pairwise_cons, List.forall_mem_cons] at hfields
  unfold putField
  dsimp only
  rw [if_neg hfields.1.2.1, if_neg hfields.2.1.1, if_pos rfl]
  rfl

theorem putField_mode (metadata : GNodeMetadata) (mode : UInt32) :
    putField metadata ("mode".toList, .number (ofAscii (Decimal.formatNat mode.toNat))) =
      some { metadata with mode := mode } := by
  have hfields := foldName_fields
  simp only [List.pairwise_cons, List.forall_mem_cons] at hfields
  unfold putField
  dsimp only
  rw [if_neg hfields.1.2.2.1, if_neg hfields.2.1.2.1, if_neg hfields.2.2.1.1, if_pos rfl,
    uintInto_format]
  rfl

theorem putField_timestamp (metadata : GNodeMetadata) (time : GoString) :
    putField metadata ("timestamp".toList, .string time) =
      some { metadata with timestamp := time } := by
  have hfields := foldName_fields
  simp only [List.pairwise_cons, List.forall_mem_cons] at hfields
  unfold putField
  dsimp only
  rw [if_neg hfields.1.2.2.2.1, if_neg hfields.2.1.2.2.1, if_neg hfields.2.2.1.2.1,
    if_neg hfields.2.2.2.1.1, if_pos rfl]
  rfl

/-- The members of a `GNodeMetadata` are read back into one. -/
theorem foldlM_metadataValues {type : GoString} {metadata : GNodeMetadata}
    (h : GNodeType.unmarshalJSON (.string type) = some metadata.type) :
    (metadataValues type metadata).foldlM putField zeroMetadata = some metadata := by
  have hstart : [("type".toList, Value.string type),
      ("size".toList, Value.number (ofAscii (Decimal.format metadata.size))),
      ("contentHash".toList, Value.string metadata.contentHash)].foldlM putField zeroMetadata =
      some { metadata with mode := 0, timestamp := [] } := by
    rw [List.foldlM_cons, putField_type h, Option.bind_eq_bind, Option.bind_some,
      List.foldlM_cons, putField_size, Option.bind_eq_bind, Option.bind_some,
      List.foldlM_cons, putField_contentHash]
    rfl
  rw [metadataValues, List.foldlM_append, List.foldlM_append, hstart]
  have hmode : List.foldlM putField { metadata with mode := 0, timestamp := [] }
      (if metadata.mode = 0 then [] else
        [("mode".toList, Value.number (ofAscii (Decimal.formatNat metadata.mode.toNat)))]) =
      some { metadata with timestamp := [] } := by
    split
    next hzero => rw [List.foldlM_nil, ← hzero]; rfl
    next => rw [List.foldlM_cons, putField_mode]; rfl
  show (List.foldlM putField { metadata with mode := 0, timestamp := [] } _).bind _ = _
  rw [hmode, Option.bind_some]
  split
  next hempty => rw [List.foldlM_nil, ← hempty]; rfl
  next => rw [List.foldlM_cons, putField_timestamp]; rfl

theorem compact_metadata (type : GoString) (metadata : GNodeMetadata) :
    Compact maxNestingDepth (goObject (metadataMembers (goQuote type) metadata))
      (.object (metadataValues type metadata)) := compact_goObject (writes_metadataMembers _ _ _)

/-- What is written for the metadata of a file or a directory reads back as the metadata. -/
theorem unmarshalMetadata_marshalMetadata {metadata : GNodeMetadata}
    (h : metadata.type = .file ∨ metadata.type = .directory) :
    unmarshalMetadata (marshalMetadata metadata) = some metadata := by
  rcases h with h | h
  · rw [marshalMetadata, h, GNodeType.marshalJSON]
    show unmarshalMetadata (Utf8.encode (goObject (metadataMembers (goQuote _) metadata))) = _
    rw [unmarshalMetadata_object (compact_metadata _ _), foldlM_metadataValues]
    rw [h]
    rfl
  · rw [marshalMetadata, h, GNodeType.marshalJSON]
    show unmarshalMetadata (Utf8.encode (goObject (metadataMembers (goQuote _) metadata))) = _
    rw [unmarshalMetadata_object (compact_metadata _ _), foldlM_metadataValues]
    rw [h]
    rfl

/-! ## The encoding -/

/-- The blob with this data mentions the address. -/
inductive Mentions (data : Bytes) : BlobAddr → Prop
  | content {metadata : GNodeMetadata} (h : unmarshalMetadata data = some metadata) :
      Mentions data metadata.contentHash
  | child {children : Children} {name : GoString} {addr : BlobAddr}
      (h : unmarshalDir data = some children) (hlookup : children.lookup name = some addr) :
      Mentions data addr

/-- A hash without collisions, such that no blob mentions an address that depends on it. -/
structure IdealHash where
  sum : Bytes → BlobAddr
  rank : BlobAddr → ℕ
  sum_injective : Function.Injective sum
  isCid_sum : ∀ data, IsCid (sum data)
  rank_lt : ∀ {data addr}, Mentions data addr → rank addr < rank (sum data)

/-- The encoding of a name store that is kept as JSON. -/
def jsonEncoding (hash : IdealHash) : Encoding where
  sum := hash.sum
  marshalDir := marshalDir
  unmarshalDir := unmarshalDir
  marshalMetadata := marshalMetadata
  unmarshalMetadata := unmarshalMetadata
  rank := hash.rank
  sum_injective := hash.sum_injective
  isCid_sum := hash.isCid_sum
  unmarshalDir_marshalDir := unmarshalDir_marshalDir
  unmarshalMetadata_marshalMetadata := fun _ => unmarshalMetadata_marshalMetadata
  rank_contentHash := fun h => hash.rank_lt (.content h)
  rank_child := fun h hlookup => hash.rank_lt (.child h hlookup)

/-! ### There are such hashes -/

/-- The length of what the blob mentions is at most this. -/
def mentioned (data : Bytes) : ℕ :=
  (unmarshalMetadata data).elim 0 (·.contentHash.length) +
    (unmarshalDir data).elim 0 fun children =>
      ((sortedEntries children).map fun entry => entry.2.length).sum

theorem length_le_mentioned {data : Bytes} {addr : BlobAddr} (h : Mentions data addr) :
    addr.length ≤ mentioned data := by
  cases h with
  | content h =>
      rw [mentioned, h]
      exact Nat.le_add_right _ _
  | @child children name addr h hlookup =>
      rw [mentioned, h]
      have hmem : (⟨name, addr⟩ : Σ _ : GoString, BlobAddr) ∈ sortedEntries children := by
        rw [← Multiset.mem_coe, coe_sortedEntries]
        exact Finmap.lookup_eq_some_iff.mp hlookup
      have hle := List.single_le_sum (fun _ _ => Nat.zero_le _) _
        (List.mem_map_of_mem (f := fun entry => entry.2.length) hmem)
      exact hle.trans (Nat.le_add_left _ _)

/-- A byte as a character that is not an `x`. -/
def byteChar (byte : UInt8) : Char := Char.ofNat (byte.toNat + 256)

theorem byteChar_injective : Function.Injective byteChar := by
  intro byte byte' h
  have htoNat : ∀ byte : UInt8, (byteChar byte).toNat = byte.toNat + 256 := fun byte =>
    Utf16.toNat_ofNat (by have := byte.toNat_lt; rw [Nat.isValidChar]; omega)
  have hsum := congrArg Char.toNat h
  rw [htoNat, htoNat] at hsum
  exact UInt8.toNat_inj.mp (by omega)

/-- The data itself, made longer than all that it mentions. -/
def longHash : IdealHash where
  sum data := 'Q' :: 'm' :: (data.map byteChar ++ List.replicate (mentioned data) 'x')
  rank := List.length
  sum_injective := by
    intro data data' h
    have hne : ∀ byte, byteChar byte ≠ 'x' := by
      have hall : ∀ byte : UInt8, byteChar byte ≠ 'x' := by decide +kernel
      exact hall
    have htake : ∀ data : Bytes, (data.map byteChar ++
        List.replicate (mentioned data) 'x').takeWhile (fun c => decide (c ≠ 'x')) =
        data.map byteChar := by
      intro data
      rw [List.takeWhile_append_of_pos]
      · cases mentioned data with
        | zero => rw [List.replicate_zero, List.takeWhile_nil, List.append_nil]
        | succ n =>
            rw [List.replicate_succ, List.takeWhile_cons_of_neg (by simp), List.append_nil]
      · intro c hc
        obtain ⟨byte, -, rfl⟩ := List.mem_map.mp hc
        simpa using hne byte
    have htail := List.cons.inj (List.cons.inj h).2
    have hsame := congrArg (List.takeWhile fun c => decide (c ≠ 'x')) htail.2
    rw [htake, htake] at hsame
    exact List.map_injective_iff.mpr byteChar_injective hsame
  isCid_sum data := ⟨_, rfl⟩
  rank_lt := by
    intro data addr h
    have hle := length_le_mentioned h
    simp only [List.length_cons, List.length_append, List.length_map, List.length_replicate]
    omega

end Grits
