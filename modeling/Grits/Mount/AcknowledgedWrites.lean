import Mathlib
import Grits.Mount.FileRefinement

/-!
# Writes that have been acknowledged

What a program that opens or creates a file of the mount may rely on: it reads what it has written,
and once a flush has gone well the volume shows exactly that.
-/

namespace Grits

namespace Mount

open Prog SlashPath PosixFile Simulation

variable {E : Env} {H : Hooks} {readOnly : Bool} {others : Op Unit} {host : Host}
  {path : GoString} {held holders : Multiset BlobAddr} {x y z : FileState} {m m' : FileModel}
  {saved : Option FileView}

/-! ## The property -/

/-- What a call that has returned makes of the file. -/
def Answered.effect (rfc3339 : ℤ → GoString) (a : Answered) (view : FileView) : FileView :=
  match a.call, a.result with
  | .write _ data off, .ok _ => (view.written off data).stamped (rfc3339 a.host.now)
  | .setattr attrs, .ok _ => attrs.view rfc3339 (view.truncated attrs.truncLen)
  | _, _ => view

/-- What a sequence of calls makes of the file. -/
def effects (rfc3339 : ℤ → GoString) (calls : List Answered) (view : FileView) : FileView :=
  calls.foldl (fun view a => a.effect rfc3339 view) view

/-- A call that has succeeded, or has only looked at the file; the file stays open. -/
def Answered.Kept (a : Answered) : Prop :=
  match a.call with
  | .openFile _ => True
  | .read _ _ => True
  | .release => False
  | _ => ∃ reply, a.result = .ok reply

/-- A file has been opened or created in the volume `s`; it is then as `view`. -/
inductive Began (E : Env) (H : Hooks) (readOnly : Bool) (s : NameStore) (dirtyNodes : Finset GoString) :
    GoString → FileState → FileView → Prop
  | opened {path : GoString} {host : Host} {flags : UInt32} {x : FileState} {view : FileView}
      {reply : FileReply} (hshown : Shown E path s (some view))
      (h : Performs E H readOnly path ⟨newGritsNode path, dirtyNodes, s⟩
        ⟨host, .openFile flags, .ok reply⟩ x) : Began E H readOnly s dirtyNodes path x view
  | created {dirPath name : GoString} {node : GritsNode} {others : Op Unit} {host : Host}
      {flags mode : UInt32} {handle : FileHandle} {x : FileState}
      (hothers : Aside E (joinClean dirPath name) others)
      (h : create E readOnly others host dirPath name flags mode ⟨node, dirtyNodes, s⟩ =
        (.ok handle, x)) :
      Began E H readOnly s dirtyNodes (joinClean dirPath name) x { blankView with mode := mode }

/-! ## The abstract file -/

/-- The node has the file open, and it is as `view`. -/
def Reflects (m : FileModel) (view : FileView) : Prop :=
  m.edits = .unsaved view ∨
    (m.edits = .clean ∨ m.edits = .stuck) ∧ m.saved = some view

theorem Reflects.edits_ne {view : FileView} (h : Reflects m view) : m.edits ≠ .closed := by
  rcases h with h | ⟨h | h, -⟩
  · rw [h]
    simp
  · rw [h]
    simp
  · rw [h]
    simp

/-- A node that has the file does not look it up again. -/
theorem Reflects.loads {view : FileView} {faulty : Prop} {found : Bool} (h : Reflects m view)
    (hload : Loads faulty m found m') : found = true ∧ m' = m := by
  have hopen := h.edits_ne
  cases hload with
  | already => exact ⟨rfl, rfl⟩
  | found hclosed => exact absurd hclosed hopen
  | missing hclosed => exact absurd hclosed hopen
  | unreadable hclosed => exact absurd hclosed hopen

theorem Reflects.starts {view : FileView} {faulty : Prop} {truncLen : ℤ} (h : Reflects m view)
    (hstart : Starts faulty truncLen m true m') : m'.edits = .unsaved (view.truncated truncLen) := by
  cases hstart with
  | unsaved hkind =>
      rcases h with h | ⟨h | h, -⟩
      · cases h.symm.trans hkind
        rfl
      · cases h.symm.trans hkind
      · cases h.symm.trans hkind
  | saved hkind hsaved =>
      rcases h with h | ⟨-, h⟩
      · cases h.symm.trans hkind
      · cases h.symm.trans hsaved
        rfl
  | blank hclosed => exact absurd hclosed h.edits_ne

/-- Saving a file leaves it as it is. -/
theorem Reflects.saves {view : FileView} {faulty : Prop} (h : Reflects m view)
    (hsave : Saves faulty m true m') : Reflects m' view ∧ m'.saved = some view := by
  cases hsave with
  | nothing hnothing =>
      rcases h with h | ⟨hopen, hsaved⟩
      · exact absurd h (hnothing view)
      · exact ⟨.inr ⟨hopen, hsaved⟩, hsaved⟩
  | saved hkind =>
      rcases h with h | ⟨h | h, -⟩
      · cases h.symm.trans hkind
        exact ⟨.inr ⟨.inl rfl, rfl⟩, rfl⟩
      · cases h.symm.trans hkind
      · cases h.symm.trans hkind
  | savedStuck hkind =>
      rcases h with h | ⟨h | h, -⟩
      · cases h.symm.trans hkind
        exact ⟨.inr ⟨.inr rfl, rfl⟩, rfl⟩
      · cases h.symm.trans hkind
      · cases h.symm.trans hkind

theorem truncated_neg_one (view : FileView) : view.truncated (-1) = view := if_pos rfl

/-- What one call that is kept does. -/
theorem Reflects.step {rfc3339 : ℤ → GoString} {view : FileView} {a : Answered}
    (h : Reflects m view) (hstep : FileStep rfc3339 readOnly m a m') (hkept : a.Kept) :
    Reflects m' (a.effect rfc3339 view) := by
  cases hstep with
  | openMore flags hmore => exact h
  | openFirst flags hzero hload =>
      obtain ⟨-, rfl⟩ := h.loads hload
      exact h
  | openFails flags hzero hload e => cases (h.loads hload).1
  | readFails off len hload e => cases (h.loads hload).1
  | readStops off len hload hstop e =>
      obtain ⟨-, rfl⟩ := h.loads hload
      exact h
  | read len hload hview hoff =>
      obtain ⟨-, rfl⟩ := h.loads hload
      exact h
  | writeRefused data off hrefused e => cases hkept.choose_spec
  | writeFails data off hallowed hstart e => cases hkept.choose_spec
  | writeStops hallowed hstart hview n hstop e => cases hkept.choose_spec
  | write hallowed hstart hview hoff =>
      have hkind := h.starts hstart
      rw [truncated_neg_one] at hkind
      cases hkind.symm.trans hview
      exact .inl rfl
  | @setattrNothing host m attrs hnothing =>
      simp only [SetAttrIn.Changes, not_or, Bool.not_eq_true] at hnothing
      obtain ⟨hsize, hmode, htime⟩ := hnothing
      have hsame : attrs.view rfc3339 (view.truncated attrs.truncLen) = view := by
        rw [SetAttrIn.truncLen, if_neg (by simp [hsize]), truncated_neg_one, SetAttrIn.view]
        simp [hmode, htime]
      change Reflects m (attrs.view rfc3339 (view.truncated attrs.truncLen))
      rw [hsame]
      exact h
  | setattrFails hchanges hload e => cases hkept.choose_spec
  | setattrStops hchanges hload hstart e => cases hkept.choose_spec
  | @setattrSaves host m m₁ m₂ m₃ attrs view' saved hchanges hload hstart hview hsave e =>
      obtain ⟨reply, hreply⟩ := hkept
      cases saved with
      | false => cases hreply
      | true =>
          obtain ⟨-, rfl⟩ := h.loads hload
          cases (h.starts hstart).symm.trans hview
          exact (Reflects.saves (.inl rfl) hsave).1
  | @fsync host m m' saved hsave e =>
      obtain ⟨reply, hreply⟩ := hkept
      cases saved with
      | false => cases hreply
      | true => exact (h.saves hsave).1
  | @flush host m m' saved hsave e =>
      obtain ⟨reply, hreply⟩ := hkept
      cases saved with
      | false => cases hreply
      | true => exact (h.saves hsave).1
  | releaseSome hsave hmore e => exact hkept.elim
  | releaseLast hsave hlast hopen e => exact hkept.elim
  | releaseStops hsave hlast hstop e => exact hkept.elim

/-- What a sequence of such calls does. -/
theorem Reflects.run {rfc3339 : ℤ → GoString} {calls : List Answered} {view : FileView}
    (h : Reflects m view) (hrun : Trace (FileStep rfc3339 readOnly) calls m m')
    (hkept : ∀ a ∈ calls, a.Kept) : Reflects m' (effects rfc3339 calls view) := by
  induction hrun generalizing view with
  | nil => exact h
  | cons hstep _ ih =>
      obtain ⟨hfirst, hrest⟩ := List.forall_mem_cons.mp hkept
      exact ih (h.step hstep hfirst) hrest

/-- What is read of a file that is open. -/
theorem Reflects.read {rfc3339 : ℤ → GoString} {view : FileView} {off : ℤ} {len : ℕ} {data : Bytes}
    (h : Reflects m view)
    (hstep : FileStep rfc3339 readOnly m ⟨host, .read off len, .ok (.bytes data)⟩ m') :
    data = view.contents.read off.toNat len := by
  cases hstep with
  | read len hload hview hoff =>
      obtain ⟨-, rfl⟩ := h.loads hload
      rcases h with h | ⟨h | h, hsaved⟩
      · rw [FileModel.current, h] at hview
        cases hview
        rfl
      · rw [FileModel.current, h] at hview
        cases hsaved.symm.trans hview
        rfl
      · rw [FileModel.current, h] at hview
        cases hview

/-- What the new node has. -/
theorem createNode_spec {s : NameStore} {dirtyNodes : Finset GoString} {node : GritsNode}
    (hdense : E.sparse = false) (hothers : Aside E path others)
    (hs : Referenced E.toEncoding held holders s) (hshown : Shown E path s saved)
    (flags mode : UInt32) :
    wp (createNode E others host path flags mode) (outcome (fun _ y =>
      Stands E path held holders y ⟨saved, .unsaved { blankView with mode := mode }, 1⟩)
      fun _ => True) ⟨node, dirtyNodes, s⟩ := by
  unfold createNode
  rw [wp_setNode_bind]
  have hnew : Stands E path held holders ⟨newGritsNode path, dirtyNodes, s⟩ ⟨saved, .closed, 0⟩ :=
    stands_newGritsNode hs hshown dirtyNodes
  refine wp_outcome_bind (openTmpFile_spec hdense hothers 0 hnew) ?_ (fun _ _ => trivial)
  rintro _ y ⟨m', hstart, hy⟩
  cases hstart with
  | unsaved hkind => cases hkind
  | saved hkind => cases hkind
  | blank =>
      rw [wp_setNode_bind, wp_setNode_bind]
      refine (hy.withCount 1).withTmpMetadata rfl _ (fun content metadata hview => ?_) (fun _ => rfl)
      have hblank : blankView = viewOf content metadata := hview
      rw [hblank]
      rfl

/-- A file that is there already is not created. -/
theorem refuseExisting_spec {addr : BlobAddr} {P : FileHandle → FileState → Prop}
    (hdense : E.sparse = false) (hothers : Aside E path others)
    (hstore : Referenced E.toEncoding held (addr ::ₘ holders) x.store)
    (hshown : Shown E path x.store saved) :
    wp (do
      volume others (releaseNode E addr)
      errno .eexist) (outcome P fun _ => True) x := by
  have hrelease : wp (volume others (releaseNode E addr)) (outcome (fun _ _ => True) fun _ => False)
      x := by
    refine volume_spec hothers hstore hshown fun s hs _ => ?_
    exact wp_post_mono (hs.releaseNode_spec hdense) (fun _ _ _ => trivial) (fun _ h => h)
  refine wp_outcome_bind hrelease ?_ (fun _ h => h.elim)
  intro _ y _
  trivial

/-- What a node has that `Create` has made. -/
theorem create_spec {s : NameStore} {dirtyNodes : Finset GoString} {node : GritsNode}
    {dirPath name : GoString} (hjoin : joinClean dirPath name = path) (hdense : E.sparse = false)
    (hothers : Aside E path others) (hpath : MountPath path)
    (hs : Referenced E.toEncoding held holders s) (hshown : Shown E path s saved)
    (flags mode : UInt32) :
    wp (create E readOnly others host dirPath name flags mode) (outcome (fun _ y =>
      Stands E path held holders y ⟨saved, .unsaved { blankView with mode := mode }, 1⟩)
      fun _ => True) ⟨node, dirtyNodes, s⟩ := by
  unfold create
  rw [hjoin]
  split
  next => trivial
  next =>
    split
    next => exact createNode_spec hdense hothers hs hshown flags mode
    next =>
      refine wp_onVolume_bind hothers hs hshown fun t ht hshown' => ?_
      refine wp_post_mono (lookupNode_found hdense hpath ht) ?_ ?_
      · rintro addr u ⟨-, -, hu, hroot⟩
        have hpath' := resolvedAddr_of_rootAddr hdense ht.inv hu.inv hroot path
        exact refuseExisting_spec hdense hothers hu (hshown'.congr hpath')
      · rintro u ⟨-, rfl⟩ e
        exact createNode_spec hdense hothers ht hshown' flags mode

/-- However a file is begun, the node stands for it. -/
theorem Began.stands {s : NameStore} {dirtyNodes : Finset GoString} {view : FileView}
    (h : Began E H readOnly s dirtyNodes path x view) (hdense : E.sparse = false)
    (hs : Inv E.toEncoding holders s) (hH : H.ReadOnly E.toEncoding) (hpath : MountPath path) :
    ∃ m, Stands E path 0 holders x m ∧ Reflects m view := by
  cases h with
  | opened hshown hopen =>
      obtain ⟨m, hstep, hx⟩ := performs_simulates hdense hH hpath _ _ _ _
        (stands_newGritsNode hs.referenced hshown dirtyNodes) hopen
      refine ⟨m, hx, ?_⟩
      cases hstep with
      | openMore flags hmore => exact absurd rfl hmore
      | openFirst flags hzero hload =>
          cases hload with
          | already hopened => exact absurd rfl hopened
          | found => exact .inr ⟨.inl rfl, rfl⟩
  | @created dirPath name node others host flags mode handle x hothers hcreate =>
      obtain ⟨saved, hshown⟩ := exists_shown hdense hpath hs
      have hx := wp_of_run (create_spec rfl hdense hothers hpath hs.referenced hshown flags mode) hcreate
      exact ⟨_, hx, .inl rfl⟩

end Mount

end Grits
