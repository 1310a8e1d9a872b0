import Grits.LocalVolume.Persistence
import Grits.NameStore.Volume

/-!
# Repeated readings of a directory

`TreeNode.Children` enters its map in the node before it is filled, and does not take it
out when an address turns out to be malformed: the next call returns what is there.  The
calls on one node agree exactly if the directory blob holds no malformed address.
-/

namespace Grits

open Prog

variable {E : Env} {holders holders' : Multiset BlobAddr} {s t : NameStore}

/-! ## The life of a node object -/

/-- What happens in a volume while the node at `addr` stays in the file cache; it is the
same object all along. -/
inductive Since (E : Env) (addr : BlobAddr) (holders : Multiset BlobAddr) (s : NameStore) :
    Multiset BlobAddr → NameStore → Prop
  | start : Since E addr holders s holders s
  | children {holders' : Multiset BlobAddr} {t u : NameStore} {other : BlobAddr}
      {r : Except Halt (Option Children)} (ht : Since E addr holders s holders' t)
      (hother : Cached t other) (hrun : nodeChildren E other t = (r, u)) :
      Since E addr holders s holders' u
  | link {holders' : Multiset BlobAddr} {t u : NameStore} {H : Hooks}
      {requests : List LinkRequest} {returnResults : Bool} {principal : PrincipalRef}
      {r : Except Halt (Option LookupResponse)} (ht : Since E addr holders s holders' t)
      (hH : H.ReadOnly E.toEncoding)
      (hrun : multiLink E H requests returnResults principal t = (r, u)) (hr : Returned r)
      (hcached : Cached u addr) : Since E addr holders s holders' u
  | serve {holders' holders'' : Multiset BlobAddr} {t u : NameStore}
      (ht : Since E addr holders s holders' t) (hserved : Served E holders' t holders'' u)
      (hcached : Cached u addr) : Since E addr holders s holders'' u
  | cleanup {holders' : Multiset BlobAddr} {t u : NameStore} {r : Except Halt Unit}
      (ht : Since E addr holders s holders' t) (hrun : Grits.cleanup E t = (r, u))
      (hcached : Cached u addr) : Since E addr holders s holders' u

theorem Since.inv (hdense : E.sparse = false) {addr : BlobAddr} (hs : Inv E.toEncoding holders s)
    (hcached : Cached s addr) (h : Since E addr holders s holders' t) :
    Inv E.toEncoding holders' t ∧ Cached t addr := by
  induction h with
  | start => exact ⟨hs, hcached⟩
  | @children _ t u _ r _ hother hrun ih =>
      have hspec := wp_of_run (nodeChildren_spec ih.1.sound hother) hrun
      have hkept : Kept E.toEncoding 0 t u := by
        rcases r with (_ | _ | _ | _) | _
        · exact hspec
        · exact hspec.elim
        · exact hspec.elim
        · exact hspec.elim
        · exact hspec.1
      exact ⟨ih.1.kept hkept, ih.2.kept hkept⟩
  | @link _ _ _ _ _ _ _ r _ hH hrun hr hcached ih =>
      have hspec := wp_of_run (multiLink_spec hdense hH ih.1 _ _ _) hrun
      refine ⟨?_, hcached⟩
      rcases r with (_ | _ | _ | _) | _
      · exact ih.1.kept hspec
      · exact hr.elim
      · exact hr.elim
      · exact hr.elim
      · exact hspec.1
  | serve _ hserved hcached ih =>
      exact ⟨inv_iff_accounts.mpr ((inv_iff_accounts.mp ih.1).served hdense hserved).1, hcached⟩
  | @cleanup _ _ _ r _ hrun hcached ih =>
      have hspec := wp_of_run (cleanup_spec ih.1) hrun
      refine ⟨?_, hcached⟩
      rcases r with (_ | _ | _ | _) | _
      · exact hspec.elim
      · exact hspec.elim
      · exact hspec.elim
      · exact hspec.elim
      · exact hspec

/-! ## The outcome of a call -/

/-- The directory blob of `addr` decodes to `dirMap`. -/
def Encoding.DecodedAt (E : Encoding) (addr : BlobAddr) (dirMap : Children) : Prop :=
  ∃ metadata, E.MetadataAt addr metadata ∧ E.Decodes metadata.contentHash dirMap

/-- Every call on the node has the outcome of the first: the complete decoded map, or an
error. -/
structure StableChildren (E : Env) (addr : BlobAddr) (holders : Multiset BlobAddr)
    (s : NameStore) : Prop where
  same : ∀ holders' t, Since E addr holders s holders' t →
    (treeChildren E addr t).1 = (treeChildren E addr s).1
  complete : ∀ holders' t, Since E addr holders s holders' t →
    (∃ dirMap, E.DecodedAt addr dirMap ∧ (treeChildren E addr t).1 = .ok dirMap) ∨
      ∃ e, (treeChildren E addr t).1 = .error (.err e)

/-- What `Children` comes to where no address is malformed. -/
def decodedOutcome (E : Env) (data : Bytes) : Except Halt Children :=
  match E.unmarshalDir data with
  | some dirMap => .ok dirMap
  | none => .error (.err (.message "error parsing directory".toList))

theorem decodes_iff {content : BlobAddr} {data : Bytes} (hsum : E.sum data = content)
    {dirMap : Children} : E.Decodes content dirMap ↔ E.unmarshalDir data = some dirMap := by
  constructor
  · rintro ⟨data', hsum', hdata'⟩
    rwa [E.sum_injective (hsum'.trans hsum.symm)] at hdata'
  · intro hdata
    exact ⟨data, hsum, hdata⟩

/-- Without malformed addresses the outcome is a function of the blob. -/
theorem treeChildren_outcome {held : Multiset BlobAddr} (hs : Sound E.toEncoding held s)
    {addr : BlobAddr} {node : FileNode} (hnode : s.fileCache.lookup addr = some node)
    {data : Bytes} (hsum : E.sum data = node.metadata.contentHash)
    (hwf : ∀ dirMap, E.unmarshalDir data = some dirMap → dirMap.WellFormed) :
    (treeChildren E addr s).1 = decodedOutcome E data := by
  have hok := hs.nodes addr node hnode
  cases hmap : node.childrenMap with
  | some children =>
      obtain ⟨dirMap, hdecodes⟩ := hok.decoded children hmap
      have hdata := (decodes_iff hsum).mp hdecodes
      have hcontent : E.ContentAt node.metadata.contentHash dirMap :=
        ⟨data, hsum, hdata, hwf dirMap hdata⟩
      rw [treeChildren_read hs ⟨node, hnode, hmap⟩, decodedOutcome, hdata,
        (hok.children children hmap).2.eq_of_contentAt hcontent]
  | none =>
      cases hdata : E.unmarshalDir data with
      | some dirMap =>
          have hentries := E.coe_childOrder s.ticks dirMap
          have hfill : (fillChildren ∅ (E.childOrder s.ticks dirMap)).2 = true := by
            refine fillChildren_wellFormed fun entry hentry => ?_
            exact hwf dirMap hdata entry.1 entry.2 ((mem_entries_iff hentries).mp hentry)
          rw [treeChildren_fill hs hnode hmap ((decodes_iff hsum).mpr hdata), if_pos hfill,
            decodedOutcome, hdata, fillChildren_eq hentries hfill]
      | none =>
          unfold treeChildren
          rw [bind_run (exportedBlob_cached hs ⟨node, hnode⟩), bind_run (getNode_run hnode), hmap]
          simp only
          rw [bind_run (hs.readAll_content hnode hsum), decodedOutcome, hdata]
          rfl

/-- A malformed address makes the first call fail and the second one succeed. -/
theorem treeChildren_twice {held : Multiset BlobAddr} (hs : Sound E.toEncoding held s)
    {addr : BlobAddr} {node : FileNode} (hnode : s.fileCache.lookup addr = some node)
    (hnone : node.childrenMap = none) {dirMap : Children}
    (hdecodes : E.Decodes node.metadata.contentHash dirMap) (hbad : ¬ dirMap.WellFormed) :
    ∃ e t children, treeChildren E addr s = (.error (.err e), t) ∧
      (treeChildren E addr t).1 = .ok children := by
  have hentries := E.coe_childOrder s.ticks dirMap
  have hfill : (fillChildren ∅ (E.childOrder s.ticks dirMap)).2 = false := by
    rw [← Bool.not_eq_true]
    intro hcomplete
    refine hbad fun name child hchild => ?_
    exact (fillChildren_complete (nodupKeys_entries hentries) hcomplete _
      ((mem_entries_iff hentries).mpr hchild)).1
  have hrun := treeChildren_fill hs hnode hnone hdecodes
  rw [hfill, if_neg Bool.false_ne_true] at hrun
  -- the node now holds the map, as far as it was filled
  have hafter : ∃ t, treeChildren E addr s =
      (.error (.err (.message "invalid CID v0 format".toList)), t) ∧
      t.fileCache.lookup addr = some { node with
        childrenMap := some (fillChildren ∅ (E.childOrder s.ticks dirMap)).1 } ∧
      (node.blob = some node.metadata.contentHash) :=
    ⟨_, hrun, Finmap.lookup_insert _, (hs.nodes addr node hnode).blob⟩
  obtain ⟨t, hfirst, hnode', hblob⟩ := hafter
  refine ⟨_, t, (fillChildren ∅ (E.childOrder s.ticks dirMap)).1, hfirst, ?_⟩
  have hexported : exportedBlob addr t = (.ok (), t) := by
    unfold exportedBlob
    rw [bind_run (getNode_run hnode')]
    simp only [hblob]
    rfl
  unfold treeChildren
  rw [bind_run hexported, bind_run (getNode_run hnode')]
  rfl

/-! ## Exactly when the calls agree -/

/-- The calls of `Children` on a node agree if and only if its directory blob holds no
malformed address.  The node is as it was loaded or created. -/
theorem stableChildren_iff (hdense : E.sparse = false) (hs : Reachable E holders s)
    {addr : BlobAddr} {node : FileNode} (hnode : s.fileCache.lookup addr = some node)
    (htype : node.metadata.type = .directory)
    (hmap : ∀ children, node.childrenMap = some children → children.WellFormed) :
    StableChildren E addr holders s ↔
      ∀ dirMap, E.DecodedAt addr dirMap → dirMap.WellFormed := by
  have hinv := hs.inv hdense
  have hok := hinv.sound.nodes addr node hnode
  obtain ⟨file, hfile⟩ := hinv.sound.exists_content hnode
  have hsum := hinv.sound.hashed _ file hfile
  constructor
  · intro hstable dirMap hdecoded
    obtain ⟨metadata, hmetadata, hdecodes⟩ := hdecoded
    rw [hmetadata.unique hok.metadata] at hdecodes
    by_contra hbad
    have hnone : node.childrenMap = none := by
      cases hchildren : node.childrenMap with
      | none => rfl
      | some children =>
          rcases (hok.children children hchildren).2 with hcontent | ⟨-, ⟨name, hname⟩, -⟩
          · obtain ⟨data, hsum', hdata, hwf⟩ := hcontent
            have heq := (decodes_iff hsum').mp hdecodes
            rw [hdata] at heq
            cases heq
            exact absurd hwf hbad
          · exact absurd (hmap children hchildren name [] hname) not_isCid_nil
    obtain ⟨e, t, children, hfirst, hsecond⟩ :=
      treeChildren_twice hinv.sound hnode hnone hdecodes hbad
    have hcall : nodeChildren E addr s = (.error (.err e), t) := by
      unfold nodeChildren
      rw [bind_run (getNode_run hnode), if_pos htype, bind_run_error hfirst]
    have hsame := hstable.same holders t (.children .start ⟨node, hnode⟩ hcall)
    rw [hsecond, hfirst] at hsame
    cases hsame
  · intro hwf
    have houtcome : ∀ holders' t, Since E addr holders s holders' t →
        (treeChildren E addr t).1 = decodedOutcome E file.data := by
      intro holders' t ht
      obtain ⟨hinv', node', hnode'⟩ := ht.inv hdense hinv ⟨node, hnode⟩
      have hsame := (hinv'.sound.nodes addr node' hnode').metadata.unique hok.metadata
      refine treeChildren_outcome hinv'.sound hnode' (by rw [hsame, hsum]) fun dirMap hdata => ?_
      exact hwf dirMap ⟨node.metadata, hok.metadata, file.data, hsum, hdata⟩
    constructor
    · intro holders' t ht
      rw [houtcome holders' t ht, houtcome holders s .start]
    · intro holders' t ht
      rw [houtcome holders' t ht, decodedOutcome]
      cases hdata : E.unmarshalDir file.data with
      | some dirMap =>
          exact .inl ⟨dirMap, ⟨node.metadata, hok.metadata, file.data, hsum, hdata⟩, rfl⟩
      | none => exact .inr ⟨_, rfl⟩

namespace Table

/-- The short table, and a directory with the file as the entry `b` and with a malformed
entry `a`. -/
def malformedTable : List KnownBlob :=
  shortTable ++ shortDirectory 'm' 'M' 0o755 [('a', ['b', 'a', 'd']), ('b', ['Q', 'm', 'F'])]

theorem proper_malformedTable : Proper malformedTable := by decide +kernel

abbrev malformedEnv : Env := shortEnv malformedTable proper_malformedTable

/-- A volume in which somebody holds the directory `addr`. -/
def heldVolume (addr : BlobAddr) : NameStore :=
  (getFileNode malformedEnv addr (shortEmpty proper_malformedTable (blobStore malformedTable))).2

theorem reachable_heldVolume {addr : BlobAddr} (hrun : (getFileNode malformedEnv addr
      (shortEmpty proper_malformedTable (blobStore malformedTable))).1 = .ok ()) :
    Reachable malformedEnv {addr} (heldVolume addr) :=
  .take (reachable_shortEmpty proper_malformedTable (properBlobs proper_malformedTable)
    (by decide +kernel)) (run_eq hrun)

theorem heldVolume_node : ∃ node,
    (heldVolume ['Q', 'm', 'D']).fileCache.lookup ['Q', 'm', 'D'] = some node ∧
      node.metadata.type = .directory ∧ node.childrenMap = none := by
  have hnode : ((heldVolume ['Q', 'm', 'D']).fileCache.lookup ['Q', 'm', 'D']).any (fun node =>
      node.metadata.type = .directory ∧ node.childrenMap = none) = true := by decide +kernel
  obtain ⟨node, hnode, h⟩ := (Option.any_eq_true _ _).mp hnode
  exact ⟨node, hnode, of_decide_eq_true h⟩

theorem wellFormed_heldDirectory {dirMap : Children}
    (h : malformedEnv.DecodedAt ['Q', 'm', 'D'] dirMap) : dirMap.WellFormed := by
  obtain ⟨metadata, hmetadata, hdecodes⟩ := h
  obtain ⟨metadata', hmetadata', -, data, hsum, hdata, hwf⟩ :=
    dirAt_of_entry proper_malformedTable malformedTable[4] malformedTable[5]
      (List.getElem_mem _) (List.getElem_mem _) rfl rfl rfl rfl rfl (by decide)
  rw [hmetadata.unique hmetadata'] at hdecodes
  have heq : malformedEnv.unmarshalDir data = some dirMap := (decodes_iff hsum).mp hdecodes
  rw [show malformedEnv.unmarshalDir data = some _ from hdata] at heq
  cases heq
  exact hwf

end Table

/-- The calls on a well-formed directory agree. -/
theorem stableChildren_wellFormed : StableChildren Table.malformedEnv ['Q', 'm', 'D']
    {['Q', 'm', 'D']} (Table.heldVolume ['Q', 'm', 'D']) := by
  obtain ⟨node, hnode, htype, hnone⟩ := Table.heldVolume_node
  refine (stableChildren_iff rfl (Table.reachable_heldVolume (by decide +kernel)) hnode htype
    ?_).mpr fun dirMap hdecoded => Table.wellFormed_heldDirectory hdecoded
  intro children hchildren
  rw [hnone] at hchildren
  cases hchildren

/-- Of two calls the first fails and the second returns a map without the entry `b`. -/
theorem not_stableChildren_malformed :
    Reachable Table.malformedEnv {['Q', 'm', 'M']} (Table.heldVolume ['Q', 'm', 'M']) ∧
    ¬ StableChildren Table.malformedEnv ['Q', 'm', 'M'] {['Q', 'm', 'M']}
      (Table.heldVolume ['Q', 'm', 'M']) ∧
    ∃ e t, treeChildren Table.malformedEnv ['Q', 'm', 'M'] (Table.heldVolume ['Q', 'm', 'M']) =
        (.error (.err e), t) ∧
      (treeChildren Table.malformedEnv ['Q', 'm', 'M'] t).1 = .ok (.single ['a'] []) := by
  have hcall : (nodeChildren Table.malformedEnv ['Q', 'm', 'M']
      (Table.heldVolume ['Q', 'm', 'M'])).1 =
        .error (.err (.message "invalid CID v0 format".toList)) := by decide +kernel
  have hfirst : (treeChildren Table.malformedEnv ['Q', 'm', 'M']
      (Table.heldVolume ['Q', 'm', 'M'])).1 =
        .error (.err (.message "invalid CID v0 format".toList)) := by decide +kernel
  have hsecond : (treeChildren Table.malformedEnv ['Q', 'm', 'M'] (treeChildren
      Table.malformedEnv ['Q', 'm', 'M'] (Table.heldVolume ['Q', 'm', 'M'])).2).1 =
        .ok (.single ['a'] []) := by decide +kernel
  have hagain : (treeChildren Table.malformedEnv ['Q', 'm', 'M'] (nodeChildren
      Table.malformedEnv ['Q', 'm', 'M'] (Table.heldVolume ['Q', 'm', 'M'])).2).1 =
        .ok (.single ['a'] []) := by decide +kernel
  have hcached : Cached (Table.heldVolume ['Q', 'm', 'M']) ['Q', 'm', 'M'] := by
    have hsome : ((Table.heldVolume ['Q', 'm', 'M']).fileCache.lookup
        ['Q', 'm', 'M']).isSome = true := by decide +kernel
    exact Option.isSome_iff_exists.mp hsome
  refine ⟨Table.reachable_heldVolume (by decide +kernel), ?_, _, _, run_eq hfirst, hsecond⟩
  intro hstable
  have hsame := hstable.same _ _ (.children .start hcached (run_eq hcall))
  rw [hagain, hfirst] at hsame
  cases hsame

end Grits
