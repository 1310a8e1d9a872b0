import Grits.NameStore.Invariant

/-!
# Reachable states of a dense name store

`Reachable E holders s`: the state `s` is reached from an empty name store by
links, lookups, cleanups, references to nodes taken and released, and changes to
the blob store by its other users; `holders` are the references to nodes still
held.
-/

namespace Grits

open Prog RefCount

variable {E : Env} {holders : Multiset BlobAddr} {s t : NameStore}

/-- The call returned, with a value or an error. -/
def Returned {α : Type} : Except Halt α → Prop
  | .ok _ => True
  | .error (.err _) => True
  | .error _ => False

/-- Every blob is stored under its hash, and no reference count is negative. -/
def ProperBlobs (E : Encoding) (blobs : Finmap fun _ : BlobAddr => LocalCachedFile) : Prop :=
  ∀ blob file, blobs.lookup blob = some file → E.sum file.data = blob ∧ 0 ≤ file.refCount

/-- The other users of the blob store leave the blobs of the cached nodes alone. -/
structure Serves (E : Encoding) (blobs : Finmap fun _ : BlobAddr => LocalCachedFile)
    (s : NameStore) : Prop where
  hashed : ∀ blob file, blobs.lookup blob = some file → E.sum file.data = blob
  counted : ∀ blob, (cacheRefs s blob : ℤ) ≤ (blobs.lookup blob).elim 0 (·.refCount)

/-- The states of a dense name store, with the references to nodes held. -/
inductive Reachable (E : Env) : Multiset BlobAddr → NameStore → Prop
  | empty {blobs : Finmap fun _ : BlobAddr => LocalCachedFile} {s : NameStore}
      (hblobs : ProperBlobs E.toEncoding blobs) (hrun : emptyNameStore E blobs = (.ok (), s)) :
      Reachable E 0 s
  | link {holders : Multiset BlobAddr} {s t : NameStore} {H : Hooks}
      {requests : List LinkRequest} {returnResults : Bool} {principal : PrincipalRef}
      {r : Except Halt (Option LookupResponse)} (hs : Reachable E holders s)
      (hH : H.ReadOnly E.toEncoding)
      (hrun : multiLink E H requests returnResults principal s = (r, t)) (hr : Returned r) :
      Reachable E holders t
  | lookup {holders : Multiset BlobAddr} {s t : NameStore} {callbacks : List LookupCallback}
      {paths : List GoString} {startAddr : BlobAddr} {principal : PrincipalRef}
      {r : Except Halt LookupResponse} (hs : Reachable E holders s)
      (hcallbacks : ∀ callback ∈ callbacks, callback.ReadOnly E.toEncoding)
      (hrun : Grits.lookup E callbacks paths startAddr principal s = (r, t)) :
      Reachable E holders t
  | take {holders : Multiset BlobAddr} {s t : NameStore} {addr : BlobAddr}
      (hs : Reachable E holders s) (hrun : getFileNode E addr s = (.ok (), t)) :
      Reachable E (addr ::ₘ holders) t
  | takeFailed {holders : Multiset BlobAddr} {s t : NameStore} {addr : BlobAddr} {halt : Halt}
      (hs : Reachable E holders s) (hrun : getFileNode E addr s = (.error halt, t)) :
      Reachable E holders t
  | release {holders : Multiset BlobAddr} {s t : NameStore} {addr : BlobAddr}
      {r : Except Halt Unit} (hs : Reachable E (addr ::ₘ holders) s)
      (hrun : releaseNode E addr s = (r, t)) : Reachable E holders t
  | cleanup {holders : Multiset BlobAddr} {s t : NameStore} {r : Except Halt Unit}
      (hs : Reachable E holders s) (hrun : Grits.cleanup E s = (r, t)) : Reachable E holders t
  | blobs {holders : Multiset BlobAddr} {s : NameStore}
      {blobs : Finmap fun _ : BlobAddr => LocalCachedFile} (hs : Reachable E holders s)
      (hserves : Serves E.toEncoding blobs s) : Reachable E holders { s with blobStore := blobs }

/-! ## The empty store -/

/-- Before anything is in it, a store is sound. -/
theorem sound_fresh {E : Encoding} {blobs : Finmap fun _ : BlobAddr => LocalCachedFile}
    (hblobs : ProperBlobs E blobs) : Sound E 0 ⟨blobs, [], 1, ∅, ∅, ∅, [], 0⟩ := by
  refine ⟨fun blob file hfile => (hblobs blob file hfile).1, ?_, ?_⟩
  · intro blob
    have hrefs : cacheRefs ⟨blobs, [], 1, ∅, ∅, ∅, [], 0⟩ blob = 0 := FinmapSum.total_empty _
    rw [hrefs, Multiset.count_zero]
    change (0 : ℤ) ≤ (blobs.lookup blob).elim 0 (·.refCount)
    cases hfile : blobs.lookup blob with
    | none => exact le_rfl
    | some file => exact (hblobs blob file hfile).2
  · intro addr node hnode
    rw [Finmap.lookup_empty] at hnode
    cases hnode

/-- An empty store satisfies the invariant, and its root is a directory. -/
theorem emptyNameStore_inv (hdense : E.sparse = false)
    {blobs : Finmap fun _ : BlobAddr => LocalCachedFile} (hblobs : ProperBlobs E.toEncoding blobs)
    (hrun : emptyNameStore E blobs = (.ok (), s)) :
    Inv E.toEncoding 0 s ∧ E.IsDir s.rootAddr := by
  let start : NameStore := ⟨blobs, [], 1, ∅, ∅, ∅, [], 0⟩
  have hstart : Sound E.toEncoding 0 start := sound_fresh hblobs
  have houtside : ∀ addr, outside start addr = 0 := fun addr => rfl
  have hspec : wp (do
      let root ← createTreeNode E ∅
      recursiveTake E (some root)
      Prog.modify fun s => { s with serialNumber := 0, rootAddr := root } : Op Unit)
      (post (fun _ t => Inv E.toEncoding 0 t ∧ E.IsDir t.rootAddr) (fun _ => True)) start := by
    have hempty : ∀ name addr, (∅ : Children).lookup name = some addr → addr = [] ∨ IsCid addr := by
      rintro name addr ⟨⟩
    refine wp_post_bind (createTreeNode_spec hstart hempty) ?_ (fun _ h => h.elim)
    rintro root t ⟨ht, hcached, hnew⟩
    have hrefs : Represents t.refCount 0 := by
      rw [ht.quiet.refCount]
      exact represents_empty
    have houtsideT : ∀ addr, 0 ≤ outside t addr := by
      intro addr
      rw [ht.quiet.managed.outside, houtside]
    refine wp_post_bind (recursiveTake_spec hdense houtsideT ht.sound hrefs Counted.zero
      (fun _ h => absurd rfl h) hcached) ?_ (fun _ _ => trivial)
    rintro _ u ⟨hu, htu, count, hrefs', hcounted, hready⟩
    refine ⟨⟨{ hu with }, ⟨count, hrefs', hcounted, hready⟩, ?_⟩, hnew.reads.isDir⟩
    intro addr
    change outside u addr = _
    rw [htu.outside, ht.quiet.managed.outside, houtside, Multiset.count_zero]
    rfl
  rw [emptyNameStore] at hrun
  exact wp_of_run hspec hrun

/-! ## Every reachable state -/

theorem Inv.blobs (h : Inv E.toEncoding holders s)
    {blobs : Finmap fun _ : BlobAddr => LocalCachedFile}
    (hserves : Serves E.toEncoding blobs s) :
    Inv E.toEncoding holders { s with blobStore := blobs } where
  sound :=
    { hashed := hserves.hashed
      counted := by
        intro blob
        rw [Multiset.count_zero, add_zero]
        exact hserves.counted blob
      nodes := h.sound.nodes }
  counted := h.counted
  outside := h.outside

theorem Reachable.inv (hdense : E.sparse = false) (h : Reachable E holders s) :
    Inv E.toEncoding holders s := by
  induction h with
  | empty hblobs hrun => exact (emptyNameStore_inv hdense hblobs hrun).1
  | @link _ _ _ _ _ _ _ r hs hH hrun hr ih =>
      have hspec := wp_of_run (multiLink_spec hdense hH ih _ _ _) hrun
      rcases r with (_ | _ | _ | _) | _
      · exact ih.kept hspec
      · exact hr.elim
      · exact hr.elim
      · exact hr.elim
      · exact hspec.1
  | @lookup _ _ _ _ _ _ _ r hs hcallbacks hrun ih =>
      have hspec := wp_of_run (lookup_spec ih.sound hdense ih.root_ready.cached hcallbacks _ _ _) hrun
      rcases r with (_ | _ | _ | _) | _
      · exact ih.kept hspec
      · exact hspec.elim
      · exact hspec.elim
      · exact hspec.elim
      · exact ih.kept hspec
  | take hs hrun ih => exact wp_of_run (getFileNode_spec hdense ih _) hrun
  | @takeFailed _ _ _ _ halt hs hrun ih =>
      have hspec := wp_of_run (getFileNode_spec hdense ih _) hrun
      cases halt with
      | err e => exact ih.kept hspec
      | crash c => exact hspec.elim
      | dangling a => exact hspec.elim
      | outOfFuel => exact hspec.elim
  | @release _ _ _ _ r hs hrun ih =>
      have hspec := wp_of_run (releaseHolder_spec hdense ih) hrun
      rcases r with (_ | _ | _ | _) | _
      · exact hspec.elim
      · exact hspec.elim
      · exact hspec.elim
      · exact hspec.elim
      · exact hspec
  | @cleanup _ _ _ r hs hrun ih =>
      have hspec := wp_of_run (cleanup_spec ih) hrun
      rcases r with (_ | _ | _ | _) | _
      · exact hspec.elim
      · exact hspec.elim
      · exact hspec.elim
      · exact hspec.elim
      · exact hspec
  | blobs hs hserves ih => exact ih.blobs hserves

end Grits
