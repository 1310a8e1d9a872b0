import Grits.Library.FinmapSum
import Grits.NameStore.DirectoryTree
import Grits.NameStore.State

/-!
# Sound states of a dense name store

`Sound E held s` is what every operation of the name store relies on and keeps:
blobs are stored under their hash, every cached node is the one its address
names, and the blob store counts at least the references of the cached nodes
and those `held` by the callers.

`Quiet δ s t` says that `t` differs from `s` in nothing that is counted or
committed, except that node counts have moved by `δ`: nodes may have been loaded
into the cache, and blobs and notifications may have come and gone.
-/

namespace Grits

open Prog

/-! ## What is counted -/

/-- The references to `blob` of the cached node at `addr`: one to its metadata
blob and one to its content. -/
def nodeRefs (blob addr : BlobAddr) (node : FileNode) : ℕ :=
  (if addr = blob then 1 else 0) + (if node.metadata.contentHash = blob then 1 else 0)

/-- The references to `blob` of all cached nodes. -/
def cacheRefs (s : NameStore) (blob : BlobAddr) : ℕ :=
  FinmapSum.total (nodeRefs blob) s.fileCache

/-- The reference count of a blob; a missing blob has none. -/
def blobCount (s : NameStore) (blob : BlobAddr) : ℤ :=
  (s.blobStore.lookup blob).elim 0 (·.refCount)

/-- The reference count of a node; a node outside the cache has none. -/
def nodeCount (s : NameStore) (addr : BlobAddr) : ℤ :=
  (s.fileCache.lookup addr).elim 0 (·.refCount)

theorem nodeCount_of_lookup {s : NameStore} {addr : BlobAddr} {node : FileNode}
    (h : s.fileCache.lookup addr = some node) : nodeCount s addr = node.refCount := by
  rw [nodeCount, h]
  rfl

theorem nodeCount_of_lookup_eq_none {s : NameStore} {addr : BlobAddr}
    (h : s.fileCache.lookup addr = none) : nodeCount s addr = 0 := by
  rw [nodeCount, h]
  rfl

/-! ## The invariant -/

/-- The cached node is the one its address names. -/
structure NodeOk (E : Encoding) (addr : BlobAddr) (node : FileNode) : Prop where
  metadata : E.MetadataAt addr node.metadata
  type : node.metadata.type = .file ∨ node.metadata.type = .directory
  blob : node.blob = some node.metadata.contentHash
  children : ∀ map, node.childrenMap = some map →
    node.metadata.type = .directory ∧ E.Readable node.metadata.contentHash map
  decoded : ∀ map, node.childrenMap = some map →
    ∃ dirMap, E.Decodes node.metadata.contentHash dirMap
  refCount : 0 ≤ node.refCount

/-- The invariant of a name store whose callers hold references to the blobs
`held`. -/
structure Sound (E : Encoding) (held : Multiset BlobAddr) (s : NameStore) : Prop where
  hashed : ∀ blob file, s.blobStore.lookup blob = some file → E.sum file.data = blob
  counted : ∀ blob, ((cacheRefs s blob + held.count blob : ℕ) : ℤ) ≤ blobCount s blob
  nodes : ∀ addr node, s.fileCache.lookup addr = some node → NodeOk E addr node

variable {E : Encoding} {held : Multiset BlobAddr} {s t u : NameStore}

/-- A blob that is referenced is in the store. -/
theorem Sound.exists_blob (h : Sound E held s) {blob : BlobAddr}
    (hpos : 0 < cacheRefs s blob + held.count blob) :
    ∃ file, s.blobStore.lookup blob = some file ∧
      ((cacheRefs s blob + held.count blob : ℕ) : ℤ) ≤ file.refCount := by
  have hcount := h.counted blob
  rw [blobCount] at hcount
  cases hfile : s.blobStore.lookup blob with
  | none =>
      rw [hfile, Option.elim_none] at hcount
      omega
  | some file =>
      rw [hfile] at hcount
      exact ⟨file, rfl, hcount⟩

/-- The content blob of a cached node is in the store. -/
theorem Sound.exists_content (h : Sound E held s) {addr : BlobAddr} {node : FileNode}
    (hnode : s.fileCache.lookup addr = some node) :
    ∃ file, s.blobStore.lookup node.metadata.contentHash = some file := by
  have hle := FinmapSum.le_total (nodeRefs node.metadata.contentHash) hnode
  have hpos : 0 < cacheRefs s node.metadata.contentHash +
      held.count node.metadata.contentHash := by
    refine Nat.add_pos_left (lt_of_lt_of_le ?_ hle) _
    rw [nodeRefs, if_pos rfl]
    omega
  obtain ⟨file, hfile, -⟩ := h.exists_blob hpos
  exact ⟨file, hfile⟩

/-- Addresses of nodes are addresses of blobs, so the empty one is never cached. -/
theorem Sound.lookup_nil (h : Sound E held s) : s.fileCache.lookup [] = none := by
  cases hnode : s.fileCache.lookup [] with
  | none => rfl
  | some node => exact absurd (h.nodes [] node hnode).metadata.isCid not_isCid_nil

/-! ## Quiet changes -/

/-- Nothing that is counted or committed has changed, but node counts have moved
by `δ`. -/
structure Quiet (δ : BlobAddr → ℤ) (s t : NameStore) : Prop where
  rootAddr : t.rootAddr = s.rootAddr
  serialNumber : t.serialNumber = s.serialNumber
  refCount : t.refCount = s.refCount
  kept : ∀ addr node, s.fileCache.lookup addr = some node →
    ∃ node', t.fileCache.lookup addr = some node' ∧ node'.metadata = node.metadata ∧
      ∀ map, node.childrenMap = some map → node'.childrenMap = some map
  nodeCount : ∀ addr, nodeCount t addr = nodeCount s addr + δ addr

theorem Quiet.refl (s : NameStore) : Quiet 0 s s where
  rootAddr := rfl
  serialNumber := rfl
  refCount := rfl
  kept := fun _ node hnode => ⟨node, hnode, rfl, fun _ h => h⟩
  nodeCount := fun addr => by simp

theorem Quiet.trans {δ ε : BlobAddr → ℤ} (h : Quiet δ s t) (h' : Quiet ε t u) :
    Quiet (δ + ε) s u where
  rootAddr := h'.rootAddr.trans h.rootAddr
  serialNumber := h'.serialNumber.trans h.serialNumber
  refCount := h'.refCount.trans h.refCount
  kept := by
    intro addr node hnode
    obtain ⟨node', hnode', hmetadata, hchildren⟩ := h.kept addr node hnode
    obtain ⟨node'', hnode'', hmetadata', hchildren'⟩ := h'.kept addr node' hnode'
    exact ⟨node'', hnode'', hmetadata'.trans hmetadata, fun map hmap =>
      hchildren' map (hchildren map hmap)⟩
  nodeCount := by
    intro addr
    rw [h'.nodeCount, h.nodeCount, Pi.add_apply]
    ring

theorem Quiet.trans_zero {δ : BlobAddr → ℤ} (h : Quiet δ s t) (h' : Quiet 0 t u) :
    Quiet δ s u := by
  simpa using h.trans h'

/-- Only blobs and the clock have moved. -/
def OnlyBlobs (s t : NameStore) : Prop :=
  ∃ blobs ticks, t = { s with blobStore := blobs, ticks := ticks }

theorem OnlyBlobs.refl (s : NameStore) : OnlyBlobs s s := ⟨_, _, rfl⟩

theorem OnlyBlobs.trans (h : OnlyBlobs s t) (h' : OnlyBlobs t u) : OnlyBlobs s u := by
  obtain ⟨_, _, rfl⟩ := h
  obtain ⟨blobs, ticks, rfl⟩ := h'
  exact ⟨blobs, ticks, rfl⟩

theorem OnlyBlobs.fileCache (h : OnlyBlobs s t) : t.fileCache = s.fileCache := by
  obtain ⟨_, _, rfl⟩ := h
  rfl

theorem OnlyBlobs.quiet (h : OnlyBlobs s t) : Quiet 0 s t := by
  obtain ⟨_, _, rfl⟩ := h
  exact { Quiet.refl s with }

/-- The store is sound and nothing counted has changed since `s`. -/
structure Kept (E : Encoding) (held : Multiset BlobAddr) (s t : NameStore) : Prop where
  sound : Sound E held t
  quiet : Quiet 0 s t

theorem Sound.kept (h : Sound E held s) : Kept E held s s := ⟨h, .refl s⟩

theorem Kept.trans (h : Kept E held s t) (h' : Kept E held t u) : Kept E held s u :=
  ⟨h'.sound, h.quiet.trans_zero h'.quiet⟩

/-- The node at `addr` is in the cache. -/
def Cached (s : NameStore) (addr : BlobAddr) : Prop :=
  ∃ node, s.fileCache.lookup addr = some node

theorem Cached.quiet {δ : BlobAddr → ℤ} {addr : BlobAddr} (h : Cached s addr)
    (hquiet : Quiet δ s t) : Cached t addr := by
  obtain ⟨node, hnode⟩ := h
  obtain ⟨node', hnode', -⟩ := hquiet.kept addr node hnode
  exact ⟨node', hnode'⟩

theorem Cached.kept {addr : BlobAddr} (h : Cached s addr) (hkept : Kept E held s t) :
    Cached t addr := h.quiet hkept.quiet

theorem Cached.isCid {addr : BlobAddr} (h : Cached s addr) (hs : Sound E held s) :
    IsCid addr := by
  obtain ⟨node, hnode⟩ := h
  exact (hs.nodes addr node hnode).metadata.isCid

/-! ## Postconditions -/

section Post

variable {σ α β : Type}

/-- The call returns a value with `P`, or an error with `Q`; it does not end in
any other way. -/
def post (P : α → σ → Prop) (Q : σ → Prop) : Except Halt α → σ → Prop
  | .ok a, x => P a x
  | .error (.err _), x => Q x
  | .error _, _ => False

variable {P P' : α → σ → Prop} {Q Q' : σ → Prop} {m : Prog σ Halt α} {x : σ}

theorem post.imp {τ : Type} {r : Except Halt α} {R : α → τ → Prop} {S : τ → Prop} {y : τ}
    (h : post P Q r x) (hR : ∀ a, P a x → R a y) (hS : Q x → S y) : post R S r y := by
  cases r with
  | ok a => exact hR a h
  | error e =>
      cases e with
      | err e => exact hS h
      | crash c => exact h
      | dangling a => exact h
      | outOfFuel => exact h

theorem wp_post_mono (h : wp m (post P Q) x) (hP : ∀ a y, P a y → P' a y)
    (hQ : ∀ y, Q y → Q' y) : wp m (post P' Q') x :=
  wp_mono h fun _ y hpost => hpost.imp (fun a => hP a y) (hQ y)

/-- Two specifications of one call. -/
theorem wp_post_both (h : wp m (post P Q) x) (h' : wp m (post P' Q') x) :
    wp m (post (fun a y => P a y ∧ P' a y) (fun y => Q y ∧ Q' y)) x := by
  refine wp_mono (wp_and h h') ?_
  rintro ((_ | _ | _ | _) | _) y ⟨hpost, hpost'⟩
  · exact ⟨hpost, hpost'⟩
  · exact hpost
  · exact hpost
  · exact hpost
  · exact ⟨hpost, hpost'⟩

/-- The sequence rule for calls that return. -/
theorem wp_post_bind {f : α → Prog σ Halt β} {R : β → σ → Prop}
    (h : wp m (post P Q) x) (hok : ∀ a y, P a y → wp (f a) (post R Q') y)
    (herr : ∀ y, Q y → Q' y) : wp (m >>= f) (post R Q') x := by
  refine wp_bind h hok ?_
  intro e y hpost
  cases e with
  | err e => exact herr y hpost
  | crash c => exact hpost
  | dangling a => exact hpost
  | outOfFuel => exact hpost

@[simp] theorem wp_post_pure (a : α) :
    wp (pure a : Prog σ Halt α) (post P Q) x ↔ P a x := Iff.rfl

/-- The rule for a handler that only treats errors. -/
theorem wp_catching_err {handler : Halt → Prog σ Halt α} (h : wp m (post P Q) x)
    (hok : ∀ a y, P a y → P' a y) (herr : ∀ e y, Q y → wp (handler (.err e)) (post P' Q') y) :
    wp (catching m handler) (post P' Q') x := by
  refine wp_catching h hok ?_
  intro e y hpost
  cases e with
  | err e => exact herr e y hpost
  | crash c => exact hpost.elim
  | dangling a => exact hpost.elim
  | outOfFuel => exact hpost.elim

/-- The loop rule for calls that return. -/
theorem wp_post_loop {body : β → α → Prog σ Halt β} {I : List α → β → σ → Prop}
    {all : List α} {acc : β} (hstart : I [] acc x)
    (hbody : ∀ done a todo acc x, done ++ a :: todo = all → I done acc x →
      wp (body acc a) (post (I (done ++ [a])) Q) x) :
    wp (loop body acc all) (post (I all) Q) x := by
  refine wp_mono (wp_loop (E := fun e y => post (fun (_ : β) _ => False) Q (.error e) y)
    hstart ?_) ?_
  · intro done a todo acc x hall hI
    refine wp_mono (hbody done a todo acc x hall hI) ?_
    rintro (e | b) y hpost
    · cases e <;> exact hpost
    · exact hpost
  · rintro (e | b) y hpost
    · cases e <;> exact hpost
    · exact hpost

/-- The loop rule for an invariant that does not depend on the rounds done. -/
theorem wp_post_loop_const {body : β → α → Prog σ Halt β} {I : β → σ → Prop}
    {all : List α} {acc : β} (hstart : I acc x)
    (hbody : ∀ a ∈ all, ∀ acc x, I acc x → wp (body acc a) (post I Q) x) :
    wp (loop body acc all) (post I Q) x := by
  refine wp_post_loop (I := fun _ => I) hstart ?_
  rintro done a todo acc x rfl hI
  exact hbody a (by simp) acc x hI

/-! The same rules where it matters which error is returned. -/

/-- The call returns a value with `P`, or an error with `Q`; it does not end in
any other way. -/
def ends (P : α → σ → Prop) (Q : GoErr → σ → Prop) : Except Halt α → σ → Prop
  | .ok a, x => P a x
  | .error (.err e), x => Q e x
  | .error _, _ => False

variable {S S' : GoErr → σ → Prop}

theorem ends_const (P : α → σ → Prop) (Q : σ → Prop) : ends P (fun _ => Q) = post P Q := by
  funext r x
  rcases r with (_ | _ | _ | _) | _ <;> rfl

theorem ends.imp {τ : Type} {r : Except Halt α} {R : α → τ → Prop} {T : GoErr → τ → Prop} {y : τ}
    (h : ends P S r x) (hR : ∀ a, P a x → R a y) (hT : ∀ e, S e x → T e y) : ends R T r y := by
  rcases r with (e | _ | _ | _) | a
  · exact hT e h
  · exact h
  · exact h
  · exact h
  · exact hR a h

theorem wp_ends_mono (h : wp m (ends P S) x) (hP : ∀ a y, P a y → P' a y)
    (hS : ∀ e y, S e y → S' e y) : wp m (ends P' S') x :=
  wp_mono h fun _ y hends => hends.imp (fun a => hP a y) (fun e => hS e y)

theorem wp_ends_bind {f : α → Prog σ Halt β} {R : β → σ → Prop}
    (h : wp m (ends P S) x) (hok : ∀ a y, P a y → wp (f a) (ends R S') y)
    (herr : ∀ e y, S e y → S' e y) : wp (m >>= f) (ends R S') x := by
  refine wp_bind h hok ?_
  intro e y hends
  cases e with
  | err e => exact herr e y hends
  | crash c => exact hends
  | dangling a => exact hends
  | outOfFuel => exact hends

theorem wp_ends_catching {handler : Halt → Prog σ Halt α} (h : wp m (ends P S) x)
    (hok : ∀ a y, P a y → P' a y) (herr : ∀ e y, S e y → wp (handler (.err e)) (ends P' S') y) :
    wp (catching m handler) (ends P' S') x := by
  refine wp_catching h hok ?_
  intro e y hends
  cases e with
  | err e => exact herr e y hends
  | crash c => exact hends.elim
  | dangling a => exact hends.elim
  | outOfFuel => exact hends.elim

theorem wp_ends_loop {body : β → α → Prog σ Halt β} {I : List α → β → σ → Prop}
    {all : List α} {acc : β} (hstart : I [] acc x)
    (hbody : ∀ done a todo acc x, done ++ a :: todo = all → I done acc x →
      wp (body acc a) (ends (I (done ++ [a])) S) x) :
    wp (loop body acc all) (ends (I all) S) x := by
  refine wp_mono (wp_loop (E := fun e y => ends (fun (_ : β) _ => False) S (.error e) y)
    hstart ?_) ?_
  · intro done a todo acc x hall hI
    refine wp_mono (hbody done a todo acc x hall hI) ?_
    rintro (e | b) y hends
    · cases e <;> exact hends
    · exact hends
  · rintro (e | b) y hends
    · cases e <;> exact hends
    · exact hends

/-- A call that returns no error returns none of any kind. -/
theorem wp_ends_of_ok (h : wp m (post P fun _ => False) x) : wp m (ends P S) x :=
  wp_mono h fun r y hpost => by
    rcases r with (_ | _ | _ | _) | _
    · exact hpost.elim
    · exact hpost
    · exact hpost
    · exact hpost
    · exact hpost

end Post

section NameStorePost

variable {α β : Type} {P : α → NameStore → Prop} {Q Q' : NameStore → Prop} {m : Op α}

@[simp] theorem wp_post_fail (e : GoErr) : wp (fail e : Op α) (post P Q) s ↔ Q s := Iff.rfl

@[simp] theorem wp_post_fail_bind (e : GoErr) {f : α → Op β} {R : β → NameStore → Prop} :
    wp ((fail e : Op α) >>= f) (post R Q) s ↔ Q s := Iff.rfl

theorem consult_run (answer : ℕ → α) (s : NameStore) :
    consult answer s = (.ok (answer s.ticks), { s with ticks := s.ticks + 1 }) := rfl

@[simp] theorem wp_consult (answer : ℕ → α) {R : Except Halt α → NameStore → Prop} :
    wp (consult answer) R s ↔ R (.ok (answer s.ticks)) { s with ticks := s.ticks + 1 } :=
  Iff.rfl

@[simp] theorem wp_consult_bind (answer : ℕ → α) {f : α → Op β}
    {R : Except Halt β → NameStore → Prop} :
    wp (consult answer >>= f) R s ↔
      wp (f (answer s.ticks)) R { s with ticks := s.ticks + 1 } := Iff.rfl

theorem wp_tryErr {R : Except GoErr α → NameStore → Prop} {S : NameStore → Prop} (h : wp m (post P Q) s)
    (hok : ∀ a t, P a t → R (.ok a) t) (herr : ∀ e t, Q t → R (.error e) t) :
    wp (tryErr m) (post R S) s := by
  refine wp_catching (P := post (fun r t => ∃ a, r = .ok a ∧ P a t) Q) ?_ ?_ ?_
  · refine wp_bind h (fun a t hP => ⟨a, rfl, hP⟩) ?_
    intro e t hpost
    cases e <;> exact hpost
  · rintro _ t ⟨a, rfl, hP⟩
    exact hok a t hP
  · intro e t hpost
    cases e with
    | err e => exact herr e t hpost
    | crash c => exact hpost.elim
    | dangling a => exact hpost.elim
    | outOfFuel => exact hpost.elim

end NameStorePost

end Grits
