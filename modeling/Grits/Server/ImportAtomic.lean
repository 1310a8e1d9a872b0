import Grits.Server.ImportFaithful

/-!
# An import that fails

However an import returns, it has given back the references it took; if it returns an error, every
path of the volume leads where it led before.
-/

namespace Grits

namespace LocalTree

open Prog SlashPath

variable {E : Env} {H : Hooks} {readOnly : Bool} {others : Op Unit} {holders : Multiset BlobAddr}
  {root : BlobAddr} {x y : RefHolder × NameStore}

/-! ## The property -/

/-- A call of the volume, by what it guarantees after whatever has come before it. -/
theorem call_spec {α : Type} {m : Op α} {P : α → RefHolder × NameStore → Prop}
    {Q : RefHolder × NameStore → Prop} (hothers : Harmless E others)
    (hx : Holding E.toEncoding holders root x)
    (h : ∀ s, Holding E.toEncoding holders root (x.1, s) →
      wp m (post (fun a t => P a (x.1, t)) (fun t => Q (x.1, t))) s) :
    wp (call others m) (post P Q) x := by
  have hbody : wp (do others; m) (post (fun a t => P a (x.1, t)) (fun t => Q (x.1, t))) x.2 := by
    refine wp_post_bind (hothers _ _ _ hx.store) ?_ (fun _ h => h.elim)
    rintro _ s ⟨hs, hroot⟩
    exact h s ⟨hs, hroot.trans hx.rootAddr⟩
  apply wp_zoom hbody
  intro r t hpost
  exact hpost.imp (fun _ h => h) (fun h => h)

theorem wrapping_spec {α : Type} {text : GoString} {m : Importing α}
    {P : α → RefHolder × NameStore → Prop} {Q : RefHolder × NameStore → Prop}
    (h : wp m (post P Q) x) : wp (wrapping text m) (post P Q) x :=
  wp_catching_err h (fun _ _ h => h) fun _ _ h => h

theorem writing_spec {α : Type} {m : Op α} {P : α → NameStore → Prop} {Q : NameStore → Prop}
    {s : NameStore} (h : wp m (post P Q) s) (hrefused : Q s) :
    wp (writing readOnly m) (post P Q) s := by
  unfold writing
  split
  · exact hrefused
  · exact h

/-- Storing a blob; the caller will hold it. -/
theorem addDataBlock_holding (hothers : Harmless E others)
    (hx : Holding E.toEncoding holders root x) (data : Bytes) :
    wp (call others (writing readOnly (addDataBlock E data))) (post (fun addr y =>
      Holding E.toEncoding holders root ({ y.1 with cfs := y.1.cfs ++ [addr] }, y.2))
      (Holding E.toEncoding holders root)) x := by
  refine call_spec hothers hx fun s hs => ?_
  refine writing_spec (wp_post_mono (hs.store.addDataBlock_spec data) ?_ (fun _ h => h.elim)) hs
  rintro addr t ⟨-, ht, hroot⟩
  refine ⟨?_, hroot.trans hs.rootAddr⟩
  change Referenced _ ((x.1.cfs ++ [addr] : List BlobAddr) : Multiset BlobAddr) _ _
  rw [coe_concat]
  exact ht

/-- Loading a node; the caller will hold it. -/
theorem getFileNode_holding (hdense : E.sparse = false) (hothers : Harmless E others)
    (hx : Holding E.toEncoding holders root x) (addr : BlobAddr) :
    wp (call others (getFileNode E addr)) (post (fun _ y =>
      Holding E.toEncoding holders root ({ y.1 with nodes := y.1.nodes ++ [addr] }, y.2))
      (Holding E.toEncoding holders root)) x := by
  refine call_spec hothers hx fun s hs => ?_
  refine wp_post_mono (wp_post_both (hs.store.getFileNode_spec hdense addr)
    (Grits.getFileNode_spec hdense hs.store.inv addr)) ?_ ?_
  · rintro _ t ⟨⟨ht, hroot⟩, -⟩
    refine ⟨?_, hroot.trans hs.rootAddr⟩
    change Referenced _ _ (((x.1.nodes ++ [addr] : List BlobAddr) : Multiset BlobAddr) + holders) _
    rw [coe_concat, Multiset.cons_add]
    exact ht
  · rintro t ⟨ht, hkept⟩
    exact ⟨ht, hkept.quiet.rootAddr.trans hs.rootAddr⟩

theorem storeNode_holding (hdense : E.sparse = false) (hothers : Harmless E others)
    (hx : Holding E.toEncoding holders root x) (adding describing getting localPath : GoString)
    (content : Bytes) (metadata : BlobAddr → GNodeMetadata) :
    wp (storeNode E readOnly others adding describing getting localPath content metadata)
      (post (fun _ => Holding E.toEncoding holders root) (Holding E.toEncoding holders root)) x := by
  unfold storeNode
  refine wp_post_bind (wrapping_spec (addDataBlock_holding hothers hx content)) ?_ (fun _ h => h)
  intro contentHash x₁ hx₁
  rw [holdCF, wp_modify_bind]
  refine wp_post_bind (wrapping_spec (addDataBlock_holding hothers hx₁ _)) ?_ (fun _ h => h)
  intro addr x₂ hx₂
  rw [holdCF, wp_modify_bind]
  refine wp_post_bind (wrapping_spec (getFileNode_holding hdense hothers hx₂ addr)) ?_ (fun _ h => h)
  intro _ x₃ hx₃
  exact hx₃

mutual

/-- The walk over the local tree holds what it has taken, wherever it stops. -/
theorem importNode_holding (hdense : E.sparse = false) (hothers : Harmless E others) :
    ∀ (node : LocalNode) (localPath : GoString) {x : RefHolder × NameStore},
      Holding E.toEncoding holders root x →
      wp (importNode E readOnly others node localPath)
        (post (fun _ => Holding E.toEncoding holders root) (Holding E.toEncoding holders root)) x
  | .file _ _ _, _, _, hx => storeNode_holding hdense hothers hx _ _ _ _ _ _
  | .dir entries _ _, localPath, _, hx =>
      wp_post_bind (importEntries_holding hdense hothers entries localPath ∅ hx)
        (fun _ _ hy => storeNode_holding hdense hothers hy _ _ _ _ _ _) (fun _ h => h)
  | .unreadable failure _, _, _, hx => by
      cases failure <;> cases readOnly <;> exact hx

theorem importEntries_holding (hdense : E.sparse = false) (hothers : Harmless E others) :
    ∀ (entries : LocalEntries) (localPath : GoString) (children : Children)
      {x : RefHolder × NameStore}, Holding E.toEncoding holders root x →
      wp (importEntries E readOnly others entries localPath children)
        (post (fun _ => Holding E.toEncoding holders root) (Holding E.toEncoding holders root)) x
  | .nil, _, _, _, hx => hx
  | .cons _ node rest, localPath, _, _, hx =>
      wp_post_bind (wrapping_spec (importNode_holding hdense hothers node _ hx))
        (fun _ _ hy => importEntries_holding hdense hothers rest localPath _ hy) (fun _ h => h)

end

/-! ## The link -/

/-- A link of a node never leaves the volume without a root. -/
theorem not_linkedAll_none {path : GoString} {addr : BlobAddr} (haddr : addr ≠ [])
    {old : Option BlobAddr} : ¬ LinkedAll E.toEncoding [⟨path, addr, [], 0⟩] old none := by
  rintro ⟨middle, hlinked, rfl⟩
  have hupdated := hlinked.updated
  rw [LinkRequest.value_of_ne haddr] at hupdated
  cases hsegments : LinkRequest.segments ⟨path, addr, [], 0⟩ with
  | nil =>
      rw [hsegments] at hupdated
      cases hupdated
  | cons name rest =>
      rw [hsegments] at hupdated
      exact hupdated.new_ne_none rfl

end LocalTree

end Grits
