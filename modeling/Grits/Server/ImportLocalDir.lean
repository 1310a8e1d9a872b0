import Grits.NameStore.Assertions
import Grits.NameStore.References
import Grits.Server.LocalTree

/-!
# Importing a local directory

`ImportLocalDir` of `internal/gritsd/utils.go` on a local volume.  Between two calls of the volume
other goroutines may run, as the eviction worker does.
-/

namespace Grits

namespace LocalTree

open Prog SlashPath

/-- `refHolder`, the references by their addresses. -/
structure RefHolder where
  cfs : List BlobAddr
  nodes : List BlobAddr

/-- An operation on the references that an import holds and the name store. -/
abbrev Importing := Prog (RefHolder × NameStore) Halt

section

variable (E : Env) (H : Hooks) (readOnly : Bool) (others : Op Unit)

/-- A call of the volume, after whatever other goroutines have done to it. -/
def call {α : Type} (m : Op α) : Importing α :=
  Prog.zoom Prod.snd (fun s x => (x.1, s)) (do others; m)

/-- Return the error of a step inside `fmt.Errorf("…: %w", err)`. -/
def wrapping {α : Type} (text : GoString) (m : Importing α) : Importing α :=
  Prog.catching m fun
    | .err e => Prog.stop (.err (.wrapped text e))
    | halt => Prog.stop halt

/-- `refHolder.holdCF` -/
def holdCF (addr : BlobAddr) : Importing Unit :=
  Prog.modify fun x => ({ x.1 with cfs := x.1.cfs ++ [addr] }, x.2)

/-- `refHolder.holdNode` -/
def holdNode (addr : BlobAddr) : Importing Unit :=
  Prog.modify fun x => ({ x.1 with nodes := x.1.nodes ++ [addr] }, x.2)

/-- `refHolder.releaseAll` -/
def releaseAll : Importing Unit := do
  let x ← Prog.get
  Prog.loop (fun _ addr => call others (releaseBlob E addr)) () x.1.cfs
  Prog.loop (fun _ addr => call others (releaseNode E addr)) () x.1.nodes

/-- The check of `isReadOnly` at the start of the writing calls of `LocalVolume`. -/
def writing {α : Type} (m : Op α) : Op α :=
  if readOnly then fail (.message "cannot write to read-only volume".toList) else m

/-- What `importFile` and `importDir` end with: store the content, then the metadata for it, and
load the node, with a reference to each.  `adding`, `describing` and `getting` begin the texts of
the errors. -/
def storeNode (adding describing getting localPath : GoString) (content : Bytes)
    (metadata : BlobAddr → GNodeMetadata) : Importing BlobAddr := do
  let contentHash ← wrapping (adding ++ localPath)
    (call others (writing readOnly (addDataBlock E content)))
  holdCF contentHash
  -- `AddMetadataBlob`
  let addr ← wrapping (describing ++ localPath)
    (call others (writing readOnly (addDataBlock E (E.marshalMetadata (metadata contentHash)))))
  holdCF addr
  wrapping (getting ++ localPath) (call others (getFileNode E addr))
  holdNode addr
  pure addr

/-- `importFile`, for a file that can be read -/
def importFile (localPath : GoString) (data : Bytes) (mode : UInt32) (modTime : ℤ) :
    Importing BlobAddr :=
  storeNode E readOnly others "adding blob ".toList "adding metadata blob for ".toList
    "getting file node for ".toList localPath data fun contentHash =>
      { type := .file
        size := Int64.ofNat data.length
        contentHash := contentHash
        mode := mode
        timestamp := E.rfc3339 modTime }

/-- `importDir` after its loop -/
def importChildren (localPath : GoString) (children : Children) (mode : UInt32) (modTime : ℤ) :
    Importing BlobAddr :=
  storeNode E readOnly others "storing dir content ".toList "adding metadata blob for dir ".toList
    "getting file node for dir ".toList localPath (E.marshalDir children) fun contentHash =>
      { type := .directory
        size := Int64.ofNat (E.marshalDir children).length
        contentHash := contentHash
        mode := mode
        timestamp := E.rfc3339 modTime }

/-- The error that a failure of the file system is returned in. -/
def Failure.error (failure : Failure) (localPath text : GoString) : GoErr :=
  match failure with
  | .stat => .wrapped ("stat ".toList ++ localPath) (.message text)
  | .openFile => .wrapped ("adding blob ".toList ++ localPath)
      (.wrapped ("failed to open file ".toList ++ localPath) (.message text))
  | .copy => .wrapped ("adding blob ".toList ++ localPath)
      (.wrapped "failed to copy and hash data".toList (.message text))
  | .readDir => .wrapped ("reading dir ".toList ++ localPath) (.message text)

/-- How an import of something unreadable ends: `AddBlob` looks at the volume first. -/
def Failure.refused (failure : Failure) (localPath text : GoString) : Importing BlobAddr :=
  match failure with
  | .openFile | .copy =>
      if readOnly then
        Prog.stop (.err (.wrapped ("adding blob ".toList ++ localPath)
          (.message "cannot write to read-only volume".toList)))
      else Prog.stop (.err (failure.error localPath text))
  | .stat | .readDir => Prog.stop (.err (failure.error localPath text))

mutual

/-- `importNode`: the metadata address of the node it returns. -/
def importNode : LocalNode → GoString → Importing BlobAddr
  | .file data mode modTime, localPath => importFile E readOnly others localPath data mode modTime
  | .dir entries mode modTime, localPath => do
      let children ← importEntries entries localPath ∅
      importChildren E readOnly others localPath children mode modTime
  | .unreadable failure text, localPath => failure.refused readOnly localPath text

/-- The loop of `importDir` over the entries, with the children found so far. -/
def importEntries : LocalEntries → GoString → Children → Importing Children
  | .nil, _, children => pure children
  | .cons name node rest, localPath, children => do
      let childPath := joinClean localPath name
      let addr ← wrapping ("importing ".toList ++ childPath) (importNode node childPath)
      importEntries rest localPath (children.insert name addr)

end

/-- The body of `ImportLocalDir`, with `LocalVolume.LinkByMetadata`. -/
def importAndLink (localPath : GoString) (tree : LocalNode) (volumePath : GoString) :
    Importing Unit := do
  let addr ← importNode E readOnly others tree localPath
  let _ ← call others
    (writing readOnly (multiLink E H [⟨volumePath, addr, [], 0⟩] false .backend))
  pure ()

/-- `defer h.releaseAll()` -/
def deferRelease (body : Importing Unit) : Importing Unit := do
  let result ← Prog.attempt body
  match result with
  | .ok () => releaseAll E others
  | .error (.err e) => do
      releaseAll E others
      Prog.stop (.err e)
  | .error halt => Prog.stop halt

/-- `ImportLocalDir` -/
def importLocalDir (localPath : GoString) (tree : LocalNode) (volumePath : GoString) : Op Unit :=
  Prog.zoom (fun s => (⟨[], []⟩, s)) (fun x _ => x.2)
    (deferRelease E others (importAndLink E H readOnly others localPath tree volumePath))

end

/-! ## What an import holds -/

section

variable {E : Env} {H : Hooks} {readOnly : Bool} {others : Op Unit} {holders : Multiset BlobAddr}
  {root : BlobAddr} {x y : RefHolder × NameStore}

/-- The store with the references of the import besides those of other `holders`, and the tree at
`root`. -/
structure Holding (E : Encoding) (holders : Multiset BlobAddr) (root : BlobAddr)
    (x : RefHolder × NameStore) : Prop where
  store : Referenced E x.1.cfs (x.1.nodes + holders) x.2
  rootAddr : x.2.rootAddr = root

/-- At first an import holds nothing. -/
theorem holding_start {s : NameStore} (h : Inv E.toEncoding holders s) :
    Holding E.toEncoding holders s.rootAddr (⟨[], []⟩, s) := by
  refine ⟨?_, rfl⟩
  change Referenced _ 0 (0 + holders) s
  rw [zero_add]
  exact h.referenced

theorem coe_concat (all : List BlobAddr) (addr : BlobAddr) :
    ((all ++ [addr] : List BlobAddr) : Multiset BlobAddr) = addr ::ₘ (all : Multiset BlobAddr) := by
  rw [← Multiset.coe_add, Multiset.coe_singleton, add_comm, Multiset.singleton_add]

/-- A call of the volume that returns, and what came before it. -/
theorem call_ok {α : Type} {m : Op α} {a : α} (h : call others m x = (.ok a, y)) :
    ∃ s t, others x.2 = (.ok (), s) ∧ m s = (.ok a, t) ∧ y = (x.1, t) := by
  obtain ⟨holder, before⟩ := x
  rcases hrun : (others >>= fun _ => m) before with ⟨r, t⟩
  have hcall : (r, ((holder, t) : RefHolder × NameStore)) = (.ok a, y) := by
    rw [← h, call, Prog.zoom, hrun]
  obtain ⟨rfl, rfl⟩ := Prod.mk.inj hcall
  obtain ⟨_, s, hbetween, hm⟩ := bind_ok_iff.mp hrun
  exact ⟨s, t, hbetween, hm, rfl⟩

theorem call_run {α : Type} {m : Op α} {a : α} (hothers : Harmless E others)
    (hx : Holding E.toEncoding holders root x) (h : call others m x = (.ok a, y)) :
    ∃ s t, Holding E.toEncoding holders root (x.1, s) ∧ m s = (.ok a, t) ∧ y = (x.1, t) := by
  obtain ⟨s, t, hbetween, hm, hy⟩ := call_ok h
  obtain ⟨hs, hroot⟩ := wp_of_run (hothers _ _ _ hx.store) hbetween
  exact ⟨s, t, ⟨hs, hroot.trans hx.rootAddr⟩, hm, hy⟩

theorem wrapping_ok_iff {α : Type} {text : GoString} {m : Importing α} {a : α} :
    wrapping text m x = (.ok a, y) ↔ m x = (.ok a, y) := by
  unfold wrapping Prog.catching
  rcases m x with ⟨(_ | _ | _ | _) | _, t⟩ <;> simp [stop]

theorem writing_ok {α : Type} {m : Op α} {a : α} {s t : NameStore}
    (h : writing readOnly m s = (.ok a, t)) : m s = (.ok a, t) := by
  rw [writing] at h
  split at h
  · cases h
  · exact h

/-- Storing a blob and holding it. -/
theorem addDataBlock_run {data : Bytes} {addr : BlobAddr} (hothers : Harmless E others)
    (hx : Holding E.toEncoding holders root x)
    (h : call others (writing readOnly (addDataBlock E data)) x = (.ok addr, y)) :
    addr = E.sum data ∧
      Holding E.toEncoding holders root ({ y.1 with cfs := y.1.cfs ++ [addr] }, y.2) := by
  obtain ⟨s, t, hs, hrun, rfl⟩ := call_run hothers hx h
  obtain ⟨haddr, ht, hroot⟩ := wp_of_run (hs.store.addDataBlock_spec data) (writing_ok hrun)
  refine ⟨haddr, ?_, hroot.trans hs.rootAddr⟩
  change Referenced _ ((x.1.cfs ++ [addr] : List BlobAddr) : Multiset BlobAddr) _ _
  rw [coe_concat]
  exact ht

/-- Loading a node and holding it. -/
theorem getFileNode_run {addr : BlobAddr} (hdense : E.sparse = false) (hothers : Harmless E others)
    (hx : Holding E.toEncoding holders root x) (h : call others (getFileNode E addr) x = (.ok (), y)) :
    Holding E.toEncoding holders root ({ y.1 with nodes := y.1.nodes ++ [addr] }, y.2) := by
  obtain ⟨s, t, hs, hrun, rfl⟩ := call_run hothers hx h
  obtain ⟨ht, hroot⟩ := wp_of_run (hs.store.getFileNode_spec hdense addr) hrun
  refine ⟨?_, hroot.trans hs.rootAddr⟩
  change Referenced _ _ (((x.1.nodes ++ [addr] : List BlobAddr) : Multiset BlobAddr) + holders) _
  rw [coe_concat, Multiset.cons_add]
  exact ht

/-- The address that is returned depends on the content and the metadata only. -/
theorem storeNode_run {adding describing getting localPath : GoString} {content : Bytes}
    {metadata : BlobAddr → GNodeMetadata} {addr : BlobAddr} (hdense : E.sparse = false)
    (hothers : Harmless E others) (hx : Holding E.toEncoding holders root x)
    (h : storeNode E readOnly others adding describing getting localPath content metadata x =
      (.ok addr, y)) :
    addr = E.sum (E.marshalMetadata (metadata (E.sum content))) ∧
      Holding E.toEncoding holders root y := by
  obtain ⟨contentHash, x₁, hadd, h⟩ := bind_ok_iff.mp h
  obtain ⟨rfl, hx₁⟩ := addDataBlock_run hothers hx (wrapping_ok_iff.mp hadd)
  obtain ⟨_, x₂, hhold, h⟩ := bind_ok_iff.mp h
  obtain ⟨-, rfl⟩ := Prod.mk.inj hhold
  obtain ⟨metadataHash, x₃, hdescribe, h⟩ := bind_ok_iff.mp h
  obtain ⟨rfl, hx₃⟩ := addDataBlock_run hothers hx₁ (wrapping_ok_iff.mp hdescribe)
  obtain ⟨_, x₄, hhold, h⟩ := bind_ok_iff.mp h
  obtain ⟨-, rfl⟩ := Prod.mk.inj hhold
  obtain ⟨_, x₅, hget, h⟩ := bind_ok_iff.mp h
  have hx₅ := getFileNode_run hdense hothers hx₃ (wrapping_ok_iff.mp hget)
  obtain ⟨_, x₆, hhold, h⟩ := bind_ok_iff.mp h
  obtain ⟨-, rfl⟩ := Prod.mk.inj hhold
  obtain ⟨haddr, rfl⟩ := Prod.mk.inj h
  exact ⟨(Except.ok.inj haddr).symm, hx₅⟩

mutual

/-- A node that is imported can be read, and its address is that of the tree. -/
theorem importNode_run (hdense : E.sparse = false) (hothers : Harmless E others) :
    ∀ {node : LocalNode} {localPath : GoString} {x y : RefHolder × NameStore} {addr : BlobAddr},
      Holding E.toEncoding holders root x →
      importNode E readOnly others node localPath x = (.ok addr, y) →
      node.Readable ∧ addr = node.addr E.toEncoding E.rfc3339 ∧
        Holding E.toEncoding holders root y
  | .file data mode modTime, localPath, x, y, addr, hx, h =>
      ⟨trivial, storeNode_run hdense hothers hx h⟩
  | .dir entries mode modTime, localPath, x, y, addr, hx, h => by
      obtain ⟨children, z, hentries, h⟩ := bind_ok_iff.mp h
      obtain ⟨hreadable, rfl, hz⟩ := importEntries_run hdense hothers hx hentries
      exact ⟨hreadable, storeNode_run hdense hothers hz h⟩
  | .unreadable failure text, localPath, x, y, addr, hx, h => by
      rw [importNode] at h
      cases failure <;> cases readOnly <;> cases h

theorem importEntries_run (hdense : E.sparse = false) (hothers : Harmless E others) :
    ∀ {entries : LocalEntries} {localPath : GoString} {children children' : Children}
      {x y : RefHolder × NameStore}, Holding E.toEncoding holders root x →
      importEntries E readOnly others entries localPath children x = (.ok children', y) →
      entries.Readable ∧ children' = entries.fill E.toEncoding E.rfc3339 children ∧
        Holding E.toEncoding holders root y
  | .nil, localPath, children, children', x, y, hx, h => by
      cases h
      exact ⟨trivial, rfl, hx⟩
  | .cons name node rest, localPath, children, children', x, y, hx, h => by
      obtain ⟨addr, z, hnode, h⟩ := bind_ok_iff.mp h
      obtain ⟨hreadable, rfl, hz⟩ := importNode_run hdense hothers hx (wrapping_ok_iff.mp hnode)
      obtain ⟨hrest, hchildren, hy⟩ := importEntries_run hdense hothers hz h
      exact ⟨⟨hreadable, hrest⟩, hchildren, hy⟩

end

/-! ## Releasing -/

/-- Each round of a loop gives up one of the references that the invariant is about. -/
theorem releases_run {release : BlobAddr → Op Unit} {I : Multiset BlobAddr → NameStore → Prop}
    (hothers : ∀ refs s, I refs s → wp others (post (fun _ t => I refs t) fun _ => False) s)
    (hrelease : ∀ addr refs s, I (addr ::ₘ refs) s →
      wp (release addr) (post (fun _ t => I refs t) fun _ => False) s)
    {all : List BlobAddr} (hx : I all x.2)
    (h : loop (fun _ addr => call others (release addr)) () all x = (.ok (), y)) :
    I 0 y.2 ∧ y.1 = x.1 := by
  induction all generalizing x with
  | nil =>
      obtain ⟨-, rfl⟩ := Prod.mk.inj h
      exact ⟨hx, rfl⟩
  | cons addr rest ih =>
      rw [loop_cons] at h
      obtain ⟨_, z, hfirst, hrest⟩ := bind_ok_iff.mp h
      obtain ⟨s, t, hbetween, hrun, rfl⟩ := call_ok hfirst
      have hs : I (addr ::ₘ (rest : Multiset BlobAddr)) s := wp_of_run (hothers _ _ hx) hbetween
      have ht : I rest t := wp_of_run (hrelease addr rest s hs) hrun
      exact ih (x := (x.1, t)) ht hrest

/-- All references of the import are given up, and no others. -/
theorem releaseAll_run (hdense : E.sparse = false) (hothers : Harmless E others)
    (hx : Holding E.toEncoding holders root x) (h : releaseAll E others x = (.ok (), y)) :
    Inv E.toEncoding holders y.2 ∧ y.2.rootAddr = root := by
  -- what the two loops keep, with the references that are left
  let blobs : Multiset BlobAddr → NameStore → Prop := fun refs s =>
    Referenced E.toEncoding refs (x.1.nodes + holders) s ∧ s.rootAddr = root
  let nodes : Multiset BlobAddr → NameStore → Prop := fun refs s =>
    Referenced E.toEncoding 0 (refs + holders) s ∧ s.rootAddr = root
  rw [releaseAll, bind_run (get_run x)] at h
  obtain ⟨_, z, hcfs, hnodes⟩ := bind_ok_iff.mp h
  have hz : blobs 0 z.2 ∧ z.1 = x.1 := by
    refine releases_run ?_ ?_ ⟨hx.store, hx.rootAddr⟩ hcfs
    · rintro refs s ⟨hs, hroot⟩
      exact wp_post_mono (hothers _ _ s hs) (fun _ _ ht => ⟨ht.1, ht.2.trans hroot⟩) (fun _ h => h)
    · rintro addr refs s ⟨hs, hroot⟩
      exact wp_post_mono hs.releaseBlob_spec (fun _ _ ht => ⟨ht.1, ht.2.trans hroot⟩) (fun _ h => h)
  have hy : nodes 0 y.2 ∧ y.1 = z.1 := by
    refine releases_run ?_ ?_ hz.1 hnodes
    · rintro refs s ⟨hs, hroot⟩
      exact wp_post_mono (hothers _ _ s hs) (fun _ _ ht => ⟨ht.1, ht.2.trans hroot⟩) (fun _ h => h)
    · rintro addr refs s ⟨hs, hroot⟩
      rw [Multiset.cons_add] at hs
      exact wp_post_mono (hs.releaseNode_spec hdense) (fun _ _ ht => ⟨ht.1, ht.2.trans hroot⟩)
        (fun _ h => h)
  obtain ⟨⟨hinv, hroot⟩, -⟩ := hy
  rw [zero_add] at hinv
  exact ⟨hinv.inv, hroot⟩

theorem deferRelease_ok {body : Importing Unit}
    (h : deferRelease E others body x = (.ok (), y)) :
    ∃ z, body x = (.ok (), z) ∧ releaseAll E others z = (.ok (), y) := by
  obtain ⟨result, z, hattempt, hrelease⟩ := bind_ok_iff.mp h
  obtain ⟨hresult, rfl⟩ := Prod.mk.inj hattempt
  rcases result with (_ | _ | _ | _) | _
  · obtain ⟨_, _, -, hstop⟩ := bind_ok_iff.mp hrelease
    cases hstop
  · cases hrelease
  · cases hrelease
  · cases hrelease
  · exact ⟨_, run_eq (Except.ok.inj hresult), hrelease⟩

/-- The tree was read and its address linked. -/
structure Imported (E : Env) (holders : Multiset BlobAddr) (tree : LocalNode)
    (volumePath : GoString) (s t : NameStore) : Prop where
  before : Inv E.toEncoding holders s
  after : Inv E.toEncoding holders t
  readable : tree.Readable
  linked : Linked E.toEncoding ⟨volumePath, tree.addr E.toEncoding E.rfc3339, [], 0⟩
    (some s.rootAddr) (some t.rootAddr)

/-- A successful import has read the whole tree and linked its address. -/
theorem importLocalDir_run (hdense : E.sparse = false) (hH : H.ReadOnly E.toEncoding)
    (hothers : Harmless E others) {s t : NameStore} (hs : Inv E.toEncoding holders s)
    {localPath volumePath : GoString} {tree : LocalNode}
    (h : importLocalDir E H readOnly others localPath tree volumePath s = (.ok (), t)) :
    Imported E holders tree volumePath s t := by
  rcases hrun : deferRelease E others (importAndLink E H readOnly others localPath tree volumePath)
    (⟨[], []⟩, s) with ⟨r, z⟩
  have hz : (r, z.2) = (.ok (), t) := by
    rw [← h, importLocalDir, Prog.zoom, hrun]
  obtain ⟨rfl, rfl⟩ := Prod.mk.inj hz
  obtain ⟨y, hbody, hrelease⟩ := deferRelease_ok hrun
  obtain ⟨addr, x, hnode, hbody⟩ := bind_ok_iff.mp hbody
  obtain ⟨hreadable, rfl, hx⟩ := importNode_run hdense hothers (holding_start hs) hnode
  obtain ⟨response, y, hlink, hbody⟩ := bind_ok_iff.mp hbody
  obtain ⟨-, rfl⟩ := Prod.mk.inj hbody
  obtain ⟨u, v, hu, hwrite, rfl⟩ := call_run hothers hx hlink
  have hmulti := writing_ok hwrite
  have hv := wp_of_run (hu.store.multiLink_spec hdense hH _ _ _) hmulti trivial
  obtain ⟨-, ⟨middle, hlinked, hmiddle⟩, -⟩ :=
    wp_of_run (multiLink_spec hdense hH hu.store.inv _ _ _) hmulti
  obtain ⟨ht, hroot⟩ := releaseAll_run hdense hothers (x := (x.1, v)) ⟨hv, rfl⟩ hrelease
  refine ⟨hs, ht, hreadable, ?_⟩
  rw [hroot, ← hu.rootAddr]
  exact hmiddle ▸ hlinked

end

end LocalTree

end Grits
