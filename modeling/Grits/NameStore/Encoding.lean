import Mathlib.Data.Finmap
import Grits.Library.SlashPath

/-!
# Blob addresses, metadata and directory encodings

The data formats of `internal/grits/structures.go` and of the node metadata in
`internal/grits/namestore.go`.  Everything in a volume is a blob named by the
hash of its bytes: a file or directory is a metadata blob, whose `contentHash`
names the content; the content of a directory is a JSON map from names to the
metadata addresses of its children.

Hashing (`multihash.Sum`, `base58.Encode`) and the JSON layer are the fields of
`Encoding`.  The hash is ideal: it has no collisions, and no blob mentions an
address that depends on the blob itself.
-/

namespace Grits

/-- The contents of a blob. -/
abbrev Bytes := List UInt8

/-- `type BlobAddr string`; the empty string is `NilAddr`. -/
abbrev BlobAddr := GoString

/-- `map[string]BlobAddr`, the children of a directory. -/
abbrev Children := Finmap fun _ : GoString => BlobAddr

/-- The check of `NewBlobAddrFromString`: the string starts with `Qm`. -/
def IsCid (addr : BlobAddr) : Prop := ['Q', 'm'] <+: addr

instance (addr : BlobAddr) : Decidable (IsCid addr) :=
  inferInstanceAs (Decidable (_ <+: _))

theorem not_isCid_nil : ¬ IsCid [] := by decide

/-- `GNodeType`: an integer of which two values are meaningful. -/
inductive GNodeType where
  | file
  | directory
  | other (value : Int)
  deriving DecidableEq

/-- `GNodeMetadata`. -/
structure GNodeMetadata where
  type : GNodeType
  size : Int64
  contentHash : BlobAddr
  mode : UInt32
  timestamp : GoString
  deriving DecidableEq

/-- The hash and the JSON layer the name store rests on. -/
structure Encoding where
  /-- `ComputeHash`. -/
  sum : Bytes → BlobAddr
  /-- `json.Marshal` of a `map[string]BlobAddr`. -/
  marshalDir : Children → Bytes
  /-- `json.Unmarshal` into a `map[string]string`. -/
  unmarshalDir : Bytes → Option Children
  /-- `json.Marshal` of a `GNodeMetadata`. -/
  marshalMetadata : GNodeMetadata → Bytes
  /-- `json.Unmarshal` into a `GNodeMetadata`. -/
  unmarshalMetadata : Bytes → Option GNodeMetadata
  /-- The height of an address in the graph of all blobs. -/
  rank : BlobAddr → ℕ
  sum_injective : Function.Injective sum
  isCid_sum : ∀ data, IsCid (sum data)
  unmarshalDir_marshalDir : ∀ children, unmarshalDir (marshalDir children) = some children
  unmarshalMetadata_marshalMetadata : ∀ metadata,
    metadata.type = .file ∨ metadata.type = .directory →
      unmarshalMetadata (marshalMetadata metadata) = some metadata
  rank_contentHash : ∀ {data metadata}, unmarshalMetadata data = some metadata →
    rank metadata.contentHash < rank (sum data)
  rank_child : ∀ {data children name addr}, unmarshalDir data = some children →
    children.lookup name = some addr → rank addr < rank (sum data)

/-- Every address in the map passes `NewBlobAddrFromString`. -/
def Children.WellFormed (children : Children) : Prop :=
  ∀ name addr, children.lookup name = some addr → IsCid addr

namespace Encoding

variable (E : Encoding)

/-- `metadata` is what the metadata blob at `addr` says. -/
def MetadataAt (addr : BlobAddr) (metadata : GNodeMetadata) : Prop :=
  ∃ data, E.sum data = addr ∧ E.unmarshalMetadata data = some metadata

/-- The directory content blob `content` decodes to `children`. -/
def ContentAt (content : BlobAddr) (children : Children) : Prop :=
  ∃ data, E.sum data = content ∧ E.unmarshalDir data = some children ∧
    children.WellFormed

/-- The content blob `content` decodes to `dirMap`, whatever addresses are in it. -/
def Decodes (content : BlobAddr) (dirMap : Children) : Prop :=
  ∃ data, E.sum data = content ∧ E.unmarshalDir data = some dirMap

/-- `addr` names a directory whose children are `children`. -/
def DirAt (addr : BlobAddr) (children : Children) : Prop :=
  ∃ metadata, E.MetadataAt addr metadata ∧ metadata.type = .directory ∧
    E.ContentAt metadata.contentHash children

variable {E}

theorem MetadataAt.unique {addr : BlobAddr} {m₁ m₂ : GNodeMetadata}
    (h₁ : E.MetadataAt addr m₁) (h₂ : E.MetadataAt addr m₂) : m₁ = m₂ := by
  obtain ⟨d₁, hsum₁, hm₁⟩ := h₁
  obtain ⟨d₂, hsum₂, hm₂⟩ := h₂
  have hd : d₁ = d₂ := E.sum_injective (hsum₁.trans hsum₂.symm)
  subst hd
  exact Option.some.inj (hm₁.symm.trans hm₂)

theorem ContentAt.unique {content : BlobAddr} {c₁ c₂ : Children}
    (h₁ : E.ContentAt content c₁) (h₂ : E.ContentAt content c₂) : c₁ = c₂ := by
  obtain ⟨d₁, hsum₁, hc₁, -⟩ := h₁
  obtain ⟨d₂, hsum₂, hc₂, -⟩ := h₂
  have hd : d₁ = d₂ := E.sum_injective (hsum₁.trans hsum₂.symm)
  subst hd
  exact Option.some.inj (hc₁.symm.trans hc₂)

theorem ContentAt.wellFormed {content : BlobAddr} {children : Children}
    (h : E.ContentAt content children) : children.WellFormed := by
  obtain ⟨_, -, -, hwf⟩ := h
  exact hwf

theorem DirAt.unique {addr : BlobAddr} {c₁ c₂ : Children}
    (h₁ : E.DirAt addr c₁) (h₂ : E.DirAt addr c₂) : c₁ = c₂ := by
  obtain ⟨m₁, hm₁, -, hc₁⟩ := h₁
  obtain ⟨m₂, hm₂, -, hc₂⟩ := h₂
  have hm : m₁ = m₂ := hm₁.unique hm₂
  subst hm
  exact hc₁.unique hc₂

theorem MetadataAt.isCid {addr : BlobAddr} {metadata : GNodeMetadata}
    (h : E.MetadataAt addr metadata) : IsCid addr := by
  obtain ⟨data, rfl, -⟩ := h
  exact E.isCid_sum data

theorem MetadataAt.rank_lt {addr : BlobAddr} {metadata : GNodeMetadata}
    (h : E.MetadataAt addr metadata) : E.rank metadata.contentHash < E.rank addr := by
  obtain ⟨data, rfl, hdata⟩ := h
  exact E.rank_contentHash hdata

theorem ContentAt.rank_lt {content : BlobAddr} {children : Children}
    (h : E.ContentAt content children) {name : GoString} {addr : BlobAddr}
    (hlookup : children.lookup name = some addr) : E.rank addr < E.rank content := by
  obtain ⟨data, rfl, hdata, -⟩ := h
  exact E.rank_child hdata hlookup

/-- A directory is above its children. -/
theorem DirAt.rank_lt {addr child : BlobAddr} {children : Children}
    (h : E.DirAt addr children) {name : GoString}
    (hlookup : children.lookup name = some child) : E.rank child < E.rank addr := by
  obtain ⟨metadata, hmetadata, -, hcontent⟩ := h
  exact (hcontent.rank_lt hlookup).trans hmetadata.rank_lt

/-- What `json.Marshal` writes for a well-formed map reads back as that map. -/
theorem contentAt_marshalDir {children : Children} (h : children.WellFormed) :
    E.ContentAt (E.sum (E.marshalDir children)) children :=
  ⟨_, rfl, E.unmarshalDir_marshalDir children, h⟩

end Encoding

end Grits
