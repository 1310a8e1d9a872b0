import Mathlib
import Grits.NameStore.JsonFormat
import Grits.NameStore.Volume

/-!
# Directories that are kept as JSON

`CreateTreeNode` keeps the map it is given beside the JSON it writes, and `TreeNode.Children`
reads the JSON once the node has left the cache.  Both are the same map.
-/

namespace Grits

open Prog

variable {holders : Multiset BlobAddr} {s t : NameStore}

/-- The surroundings of a name store that is kept as JSON. -/
def Env.overJson (E : Env) (hash : IdealHash) : Env where
  toEncoding := jsonEncoding hash
  clock := E.clock
  rfc3339 := E.rfc3339
  childOrder := E.childOrder
  cacheOrder := E.cacheOrder
  coe_childOrder := E.coe_childOrder
  coe_cacheOrder := E.coe_cacheOrder
  sparse := E.sparse

/-- A node that is held is in the cache. -/
theorem Inv.cached_of_held {E : Encoding} {addr : BlobAddr} (h : Inv E (addr ::ₘ holders) s) :
    Cached s addr := by
  have hpos := (inv_iff_accounts.mp h).nodeCount_pos
  cases hnode : s.fileCache.lookup addr with
  | some node => exact ⟨node, hnode⟩
  | none =>
      rw [nodeCount_of_lookup_eq_none hnode] at hpos
      omega

/-- A node is loaded, if it is not in the cache, and its children are read. -/
def readDirectory (E : Env) (addr : BlobAddr) : Op (Option Children) := do
  getFileNode E addr
  nodeChildren E addr

/-- A directory whose map is known is read as this map, whenever it is read. -/
theorem readDirectory_of_dirAt {E : Env} (hdense : E.sparse = false) (hs : Reachable E holders s)
    {addr : BlobAddr} {children : Children} (hdir : E.DirAt addr children) {read : Option Children}
    (hrun : readDirectory E addr s = (.ok read, t)) : read = some children := by
  have hspec : wp (readDirectory E addr) (post (fun read _ => read = some children)
      (fun _ => True)) s := by
    refine wp_post_bind (getFileNode_spec hdense (hs.inv hdense) addr) ?_ (fun _ _ => trivial)
    intro _ u hu
    refine wp_post_mono (nodeChildren_spec hu.sound hu.cached_of_held) ?_ (fun _ _ => trivial)
    rintro (_ | found) v ⟨hv, hresult⟩
    · exact absurd hdir.isDir hresult.1
    · have hfound : ChildrenRead v addr found := hresult
      have hentries := hdir.exact _ (hfound.reads hv.sound)
      rw [hdir.entries, Option.some.injEq] at hentries
      exact congrArg some (Finmap.ext_lookup fun name => (congrFun hentries name).symm)
  exact wp_of_run hspec hrun

/-- The JSON of directories and of metadata reads back as what was written, whatever characters
are in the names.  So a directory made of a map is read as this map in every state of the store,
whether its node is still in the cache or is loaded from the blobs again. -/
theorem json_roundTrip (hash : IdealHash) (E : Env) (hdense : E.sparse = false) :
    (∀ children, unmarshalDir (marshalDir children) = some children) ∧
    (∀ metadata : GNodeMetadata, metadata.type = .file ∨ metadata.type = .directory →
      unmarshalMetadata (marshalMetadata metadata) = some metadata) ∧
    ∀ holders s children addr t, Reachable (E.overJson hash) holders s → children.WellFormed →
      createTreeNode (E.overJson hash) children s = (.ok addr, t) →
      ∀ holders' s' read t', Reachable (E.overJson hash) holders' s' →
        readDirectory (E.overJson hash) addr s' = (.ok read, t') → read = some children := by
  refine ⟨unmarshalDir_marshalDir, fun _ => unmarshalMetadata_marshalMetadata, ?_⟩
  intro holders s children addr t hs hwf hrun holders' s' read t' hs' hread
  have hinv := hs.inv (E := E.overJson hash) hdense
  have hempty : ∀ name addr, children.lookup name = some addr → addr = [] ∨ IsCid addr :=
    fun name addr hlookup => .inr (hwf name addr hlookup)
  obtain ⟨-, -, hnew⟩ := wp_of_run (createTreeNode_spec hinv.sound hempty) hrun
  exact readDirectory_of_dirAt (E := E.overJson hash) hdense hs' (hnew.dirAt hwf) hread

/-- A name with a quote, a control character, what HTML reads and a line separator. -/
theorem json_roundTrip_names :
    unmarshalDir (marshalDir (Finmap.singleton "<\"\x01\u2028é>".toList "QmA".toList)) =
      some (Finmap.singleton "<\"\x01\u2028é>".toList "QmA".toList) :=
  (json_roundTrip longHash Table.smallEnv rfl).1 _

end Grits
