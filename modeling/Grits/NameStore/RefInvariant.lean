import Grits.NameStore.HeldTree
import Grits.NameStore.RefManager

/-!
# The counts of the dense reference manager

`Represents refs count` ties the Go map of the reference manager to a count in
the sense of `RefCount`.  The reference manager itself holds one reference to
each node object it tracks; `Managed s t` says that `t` differs from `s` at most
by what the reference manager does: the references to node objects from outside
of it are the same.
-/

namespace Grits

open Prog RefCount

/-! ## Counts and the map that stores them -/

/-- The map holds the positive counts. -/
def Represents (refs : Finmap fun _ : BlobAddr => ℤ) (count : BlobAddr →₀ ℕ) : Prop :=
  ∀ addr, refs.lookup addr = if count addr = 0 then none else some (count addr : ℤ)

section Represents

variable {refs refs' : Finmap fun _ : BlobAddr => ℤ} {count : BlobAddr →₀ ℕ} {addr : BlobAddr}

theorem represents_empty : Represents ∅ 0 := by
  intro addr
  simp

theorem Represents.unique (h : Represents refs count) (h' : Represents refs' count) :
    refs' = refs :=
  Finmap.ext_lookup fun addr => by rw [h, h']

theorem Represents.lookup_eq_none_iff (h : Represents refs count) :
    refs.lookup addr = none ↔ count addr = 0 := by
  rw [h addr]
  split <;> simp_all

theorem Represents.lookup_of_ne_zero (h : Represents refs count) (hcount : count addr ≠ 0) :
    refs.lookup addr = some (count addr : ℤ) := by
  rw [h addr, if_neg hcount]

theorem Represents.eq_of_lookup (h : Represents refs count) {n : ℤ}
    (hlookup : refs.lookup addr = some n) : count addr ≠ 0 ∧ n = count addr := by
  rw [h addr] at hlookup
  split at hlookup
  next => cases hlookup
  next hne =>
    cases hlookup
    exact ⟨hne, rfl⟩

theorem Represents.take (h : Represents refs count) (addr : BlobAddr) :
    Represents (refs.insert addr ((count addr : ℤ) + 1)) (count + Finsupp.single addr 1) := by
  intro other
  by_cases hother : other = addr
  · subst hother
    rw [Finmap.lookup_insert, Finsupp.add_apply, Finsupp.single_eq_same, if_neg (by omega)]
    push_cast
    rfl
  · rw [Finmap.lookup_insert_of_ne _ hother, h other, Finsupp.add_apply,
      Finsupp.single_eq_of_ne hother, add_zero]

theorem Represents.decrement (h : Represents refs count) (hcount : 1 < count addr) :
    Represents (refs.insert addr ((count addr : ℤ) - 1)) (count - Finsupp.single addr 1) := by
  intro other
  by_cases hother : other = addr
  · subst hother
    rw [Finmap.lookup_insert, Finsupp.tsub_apply, Finsupp.single_eq_same, if_neg (by omega)]
    push_cast [hcount.le]
    rfl
  · rw [Finmap.lookup_insert_of_ne _ hother, h other, Finsupp.tsub_apply,
      Finsupp.single_eq_of_ne hother, tsub_zero]

theorem Represents.erase (h : Represents refs count) (addr : BlobAddr) :
    Represents (refs.erase addr) (count.erase addr) := by
  intro other
  by_cases hother : other = addr
  · subst hother
    rw [Finmap.lookup_erase, Finsupp.erase_same, if_pos rfl]
  · rw [Finmap.lookup_erase_ne hother, h other, Finsupp.erase_ne hother]

end Represents

/-! ## References from outside the reference manager -/

variable {E : Env} {held : Multiset BlobAddr} {s t u : NameStore}

/-- The reference of the reference manager to the node object at `addr`. -/
def tracked (s : NameStore) (addr : BlobAddr) : ℤ :=
  if (s.refCount.lookup addr).isSome then 1 else 0

/-- The references to the node object at `addr` from outside the reference
manager. -/
def outside (s : NameStore) (addr : BlobAddr) : ℤ := nodeCount s addr - tracked s addr

theorem tracked_of_lookup {addr : BlobAddr} {n : ℤ} (h : s.refCount.lookup addr = some n) :
    tracked s addr = 1 := by
  rw [tracked, h]
  rfl

theorem tracked_of_lookup_eq_none {addr : BlobAddr} (h : s.refCount.lookup addr = none) :
    tracked s addr = 0 := by
  rw [tracked, h]
  rfl

/-- The reference manager may have worked, but nothing else has. -/
structure Managed (s t : NameStore) : Prop where
  rootAddr : t.rootAddr = s.rootAddr
  serialNumber : t.serialNumber = s.serialNumber
  kept : ∀ addr node, s.fileCache.lookup addr = some node →
    ∃ node', t.fileCache.lookup addr = some node' ∧ node'.metadata = node.metadata ∧
      ∀ map, node.childrenMap = some map → node'.childrenMap = some map
  outside : ∀ addr, outside t addr = outside s addr

theorem Managed.refl (s : NameStore) : Managed s s where
  rootAddr := rfl
  serialNumber := rfl
  kept := fun _ node hnode => ⟨node, hnode, rfl, fun _ h => h⟩
  outside := fun _ => rfl

theorem Managed.trans (h : Managed s t) (h' : Managed t u) : Managed s u where
  rootAddr := h'.rootAddr.trans h.rootAddr
  serialNumber := h'.serialNumber.trans h.serialNumber
  kept := by
    intro addr node hnode
    obtain ⟨node', hnode', hmetadata, hchildren⟩ := h.kept addr node hnode
    obtain ⟨node'', hnode'', hmetadata', hchildren'⟩ := h'.kept addr node' hnode'
    exact ⟨node'', hnode'', hmetadata'.trans hmetadata, fun map hmap =>
      hchildren' map (hchildren map hmap)⟩
  outside := fun addr => (h'.outside addr).trans (h.outside addr)

theorem Quiet.managed (h : Quiet 0 s t) : Managed s t where
  rootAddr := h.rootAddr
  serialNumber := h.serialNumber
  kept := h.kept
  outside := by
    intro addr
    rw [Grits.outside, Grits.outside, h.nodeCount, tracked, tracked, h.refCount]
    simp

/-- If the counts are the same again, the node counts are too. -/
theorem Managed.quiet (h : Managed s t) (hrefs : t.refCount = s.refCount) : Quiet 0 s t where
  rootAddr := h.rootAddr
  serialNumber := h.serialNumber
  refCount := hrefs
  kept := h.kept
  nodeCount := by
    intro addr
    have houtside := h.outside addr
    rw [Grits.outside, Grits.outside, tracked, tracked, hrefs] at houtside
    simp only [Pi.zero_apply]
    omega

theorem Cached.managed {addr : BlobAddr} (h : Cached s addr) (hmanaged : Managed s t) :
    Cached t addr := by
  obtain ⟨node, hnode⟩ := h
  obtain ⟨node', hnode', -⟩ := hmanaged.kept addr node hnode
  exact ⟨node', hnode'⟩

theorem ChildrenRead.managed {addr : BlobAddr} {children : Children}
    (h : ChildrenRead s addr children) (hmanaged : Managed s t) : ChildrenRead t addr children := by
  obtain ⟨node, hnode, hchildren⟩ := h
  obtain ⟨node', hnode', -, hkept⟩ := hmanaged.kept addr node hnode
  exact ⟨node', hnode', hkept children hchildren⟩

theorem Ready.managed {E : Encoding} {addr : BlobAddr} (h : Ready E s addr)
    (hmanaged : Managed s t) : Ready E t addr := by
  rcases h with ⟨children, hread, hdir⟩ | ⟨hcached, hfile⟩
  · exact .inl ⟨children, hread.managed hmanaged, hdir⟩
  · exact .inr ⟨hcached.managed hmanaged, hfile⟩

/-- Changing the count of a tracked node is the manager's own business. -/
theorem managed_insertRef {addr : BlobAddr} {n m : ℤ} (h : s.refCount.lookup addr = some n) :
    Managed s { s with refCount := s.refCount.insert addr m } := by
  refine { Managed.refl s with outside := ?_ }
  intro other
  change nodeCount s other - _ = _
  rw [outside]
  congr 1
  unfold tracked
  by_cases hother : other = addr
  · subst hother
    simp [h]
  · rw [Finmap.lookup_insert_of_ne _ hother]

/-- The manager starts to track a node and takes its object. -/
theorem managed_track {addr : BlobAddr} {n : ℤ} (hnone : s.refCount.lookup addr = none)
    (hquiet : Quiet (Pi.single addr 1) { s with refCount := s.refCount.insert addr n } t) :
    Managed s t where
  rootAddr := hquiet.rootAddr
  serialNumber := hquiet.serialNumber
  kept := hquiet.kept
  outside := by
    intro other
    have hcount : nodeCount t other = nodeCount s other + (Pi.single addr 1 : BlobAddr → ℤ) other :=
      hquiet.nodeCount other
    rw [outside, outside, hcount]
    unfold tracked
    rw [hquiet.refCount]
    by_cases hother : other = addr
    · subst hother
      rw [Pi.single_eq_same]
      simp [hnone]
    · rw [Pi.single_eq_of_ne hother, Finmap.lookup_insert_of_ne _ hother]
      ring

/-- Quiet changes do not depend on what the reference manager counts. -/
theorem Quiet.setRefs {δ : BlobAddr → ℤ} (h : Quiet δ s t)
    (refs : Finmap fun _ : BlobAddr => ℤ) :
    Quiet δ { s with refCount := refs } { t with refCount := refs } where
  rootAddr := h.rootAddr
  serialNumber := h.serialNumber
  refCount := rfl
  kept := h.kept
  nodeCount := h.nodeCount

/-- The manager stops tracking a node and releases its object. -/
theorem managed_untrack {addr : BlobAddr} {n : ℤ} (h : s.refCount.lookup addr = some n)
    (hquiet : Quiet (Pi.single addr (-1)) { s with refCount := s.refCount.erase addr } t) :
    Managed s t where
  rootAddr := hquiet.rootAddr
  serialNumber := hquiet.serialNumber
  kept := hquiet.kept
  outside := by
    intro other
    have hcount : nodeCount t other =
        nodeCount s other + (Pi.single addr (-1) : BlobAddr → ℤ) other := hquiet.nodeCount other
    rw [outside, outside, hcount]
    unfold tracked
    rw [hquiet.refCount]
    by_cases hother : other = addr
    · subst hother
      rw [Pi.single_eq_same, Finmap.lookup_erase, h]
      simp only [Option.isSome_none, Option.isSome_some, Bool.false_eq_true, if_true, if_false]
      ring
    · rw [Pi.single_eq_of_ne hother, Finmap.lookup_erase_ne hother]
      ring

end Grits
