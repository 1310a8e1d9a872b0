import Grits.NameStore.Reachable

/-!
# A store whose callers hold references

`Referenced E held holders s`: besides the store itself, callers hold the references `held` to
blobs and `holders` to nodes.  Every call keeps the references it neither takes nor releases.
-/

namespace Grits

open Prog RefCount

variable {E : Env} {H : Hooks} {held holders : Multiset BlobAddr} {s t : NameStore}

/-- The invariant of a store with references `held` to blobs and `holders` to nodes. -/
structure Referenced (E : Encoding) (held holders : Multiset BlobAddr) (s : NameStore) : Prop where
  sound : Sound E held s
  inv : Inv E holders s

theorem Inv.referenced {E : Encoding} (h : Inv E holders s) : Referenced E 0 holders s :=
  ⟨h.sound, h⟩

theorem Sound.weaken {E : Encoding} (h : Sound E held s) : Sound E 0 s := h.mono (Multiset.zero_le _)

/-- A quiet call that moves the references to blobs. -/
theorem Referenced.moved {E : Encoding} {held' : Multiset BlobAddr} (h : Referenced E held holders s)
    (ht : Sound E held' t) (hst : Quiet 0 s t) : Referenced E held' holders t :=
  ⟨ht, h.inv.kept ⟨ht.weaken, hst⟩⟩

/-! ## Blobs -/

theorem Referenced.addDataBlock_spec (h : Referenced E.toEncoding held holders s) (data : Bytes) :
    wp (addDataBlock E data) (post (fun addr t => addr = E.sum data ∧
      Referenced E.toEncoding (addr ::ₘ held) holders t ∧ t.rootAddr = s.rootAddr)
      (fun _ => False)) s := by
  refine wp_post_mono (Grits.addDataBlock_spec h.sound data) ?_ (fun _ h => h)
  rintro addr t ⟨haddr, ht, hst⟩
  exact ⟨haddr, h.moved ht hst.quiet, hst.quiet.rootAddr⟩

theorem Referenced.releaseBlob_spec {addr : BlobAddr}
    (h : Referenced E.toEncoding (addr ::ₘ held) holders s) :
    wp (releaseBlob E addr) (post (fun _ t => Referenced E.toEncoding held holders t ∧
      t.rootAddr = s.rootAddr) (fun _ => False)) s := by
  refine wp_post_mono (Grits.releaseBlob_spec h.sound) ?_ (fun _ h => h)
  rintro _ t ⟨ht, hst⟩
  exact ⟨h.moved ht hst.quiet, hst.quiet.rootAddr⟩

/-! ## Nodes -/

theorem getFileNode_sound (hdense : E.sparse = false) (h : Sound E.toEncoding held s)
    (addr : BlobAddr) :
    wp (getFileNode E addr) (post (fun _ t => Sound E.toEncoding held t)
      (fun t => Sound E.toEncoding held t)) s := by
  refine wp_post_bind (loadFileNode_spec h hdense addr) ?_ (fun _ ht => ht.sound)
  rintro _ t ⟨hst, hcached⟩
  exact wp_post_mono (takeNode_spec hst.sound hcached) (fun _ _ hu => hu.1) (fun _ hfalse => hfalse.elim)

theorem Referenced.getFileNode_spec (hdense : E.sparse = false)
    (h : Referenced E.toEncoding held holders s) (addr : BlobAddr) :
    wp (getFileNode E addr) (post (fun _ t => Referenced E.toEncoding held (addr ::ₘ holders) t ∧
      t.rootAddr = s.rootAddr) (fun t => Referenced E.toEncoding held holders t)) s := by
  refine wp_post_mono (wp_post_both (getFileNode_sound hdense h.sound addr)
    ((inv_iff_accounts.mp h.inv).getFileNode_spec hdense addr)) ?_ ?_
  · rintro _ t ⟨hsound, ht, hst⟩
    exact ⟨⟨hsound, inv_iff_accounts.mpr ht⟩, hst.rootAddr⟩
  · rintro t ⟨hsound, hst⟩
    exact h.moved hsound hst.quiet

theorem Referenced.releaseNode_spec (hdense : E.sparse = false) {addr : BlobAddr}
    (h : Referenced E.toEncoding held (addr ::ₘ holders) s) :
    wp (releaseNode E addr) (post (fun _ t => Referenced E.toEncoding held holders t ∧
      t.rootAddr = s.rootAddr) (fun _ => False)) s := by
  have hinv := inv_iff_accounts.mp h.inv
  refine wp_post_mono (wp_post_both (Grits.releaseNode_spec h.sound hdense hinv.nodeCount_pos)
    (hinv.releaseNode_spec hdense)) ?_ (fun _ h => h.1)
  rintro _ t ⟨⟨hsound, -⟩, ht, hst⟩
  exact ⟨⟨hsound, inv_iff_accounts.mpr ht⟩, hst.rootAddr⟩

/-! ## Links -/

/-- A commit takes and releases references to nodes of trees only. -/
theorem commit_sound (hdense : E.sparse = false) (h : Referenced E.toEncoding held holders s)
    {newRoot : BlobAddr} (hcached : Cached s newRoot) :
    wp (commit E s.rootAddr (some newRoot)) (post (fun _ t => Sound E.toEncoding held t)
      (fun t => Sound E.toEncoding held t)) s := by
  obtain ⟨count, hrefs, hcounted, hready⟩ := h.inv.counted
  unfold commit
  refine wp_post_bind (recursiveTake_spec hdense h.inv.outside_nonneg h.sound hrefs hcounted hready
    hcached) ?_ (fun _ ht => ht.sound)
  rintro _ t ⟨ht, hst, count', hrefs', hcounted', hready'⟩
  have houtside : ∀ addr, 0 ≤ outside t addr := by
    intro addr
    rw [hst.outside]
    exact h.inv.outside_nonneg addr
  rw [show newRoot ::ₘ {s.rootAddr} = s.rootAddr ::ₘ {newRoot} from
    Multiset.pair_comm newRoot s.rootAddr] at hcounted'
  have hrelease := wp_tryErr (S := fun u => Sound E.toEncoding held u)
    (R := fun r u => r = .ok () ∧ Sound E.toEncoding held u)
    (recursiveRelease_spec hdense houtside ht hrefs' hcounted' hready')
    (fun _ _ h => ⟨rfl, h.1⟩) (fun _ _ h => h.elim)
  refine wp_post_bind hrelease ?_ (fun _ h => h)
  rintro _ u ⟨rfl, hu⟩
  exact { hu with }

/-- A link that returns keeps the references. -/
theorem Referenced.multiLink_spec (hdense : E.sparse = false) (hH : H.ReadOnly E.toEncoding)
    (h : Referenced E.toEncoding held holders s) (requests : List LinkRequest)
    (returnResults : Bool) (principal : PrincipalRef) :
    wp (multiLink E H requests returnResults principal) (fun r t => Returned r →
      Referenced E.toEncoding held holders t) s := by
  have hsound : wp (multiLink E H requests returnResults principal) (fun r t => Returned r →
      Sound E.toEncoding held t) s := by
    unfold multiLink
    refine wp_bind (prepare_spec hdense hH h.sound requests returnResults principal) ?_ ?_
    swap
    · rintro (_ | _ | _ | _) t hpost hreturned
      · exact Kept.sound hpost
      · exact hpost.elim
      · exact hpost.elim
      · exact hpost.elim
    rintro ⟨oldRoot, newRoot, response⟩ t ⟨hst, hold, -, hcached, -⟩
    have ht := h.moved hst.sound hst.quiet
    have hroot : oldRoot = t.rootAddr := by rw [hst.quiet.rootAddr, ← hold]
    subst hroot
    cases newRoot with
    | none =>
        refine wp_bind (commit_none_spec hdense (inv_iff_accounts.mp ht.inv)) ?_ ?_
        · rintro _ u ⟨⟩
        · rintro _ u ⟨⟩ hreturned
          exact hreturned.elim
    | some newRoot =>
        refine wp_bind (commit_sound hdense ht (hcached newRoot rfl)) ?_ ?_
        · intro _ u hu _
          exact hu
        · rintro (_ | _ | _ | _) u hpost hreturned
          · exact hpost
          · exact hpost.elim
          · exact hpost.elim
          · exact hpost.elim
  refine wp_mono (wp_and hsound
    (Grits.multiLink_spec hdense hH h.inv requests returnResults principal)) ?_
  rintro ((_ | _ | _ | _) | _) t ⟨ht, hspec⟩ hreturned
  · exact h.moved (ht hreturned) hspec.quiet
  · exact hreturned.elim
  · exact hreturned.elim
  · exact hreturned.elim
  · exact ⟨ht hreturned, hspec.1⟩

/-! ## Other goroutines -/

/-- A call that respects the references of all callers and leaves the tree as it is. -/
def Harmless (E : Env) (others : Op Unit) : Prop :=
  ∀ held holders s, Referenced E.toEncoding held holders s →
    wp others (post (fun _ t => Referenced E.toEncoding held holders t ∧ t.rootAddr = s.rootAddr)
      (fun _ => False)) s

theorem harmless_pure (E : Env) : Harmless E (pure ()) := fun _ _ _ h => ⟨h, rfl⟩

/-- Only what nobody refers to is cleaned up. -/
theorem cleanupAt_sound (h : Referenced E.toEncoding held holders s) (addr : BlobAddr) :
    wp (cleanupAt E addr) (post (fun _ t => Sound E.toEncoding held t) (fun _ => False)) s := by
  unfold cleanupAt
  rw [wp_get_bind]
  cases hnode : s.fileCache.lookup addr with
  | none => exact h.sound
  | some node =>
      simp only
      split
      next => exact h.sound
      next hcount =>
        rw [not_not] at hcount
        cases hrefs : s.refCount.lookup addr with
        | some n =>
            have houtside := h.inv.outside_nonneg addr
            rw [outside, nodeCount_of_lookup hnode, hcount, tracked_of_lookup hrefs] at houtside
            omega
        | none =>
            simp only
            refine wp_post_bind (releaseBlob_elsewhere _ (h.sound.eraseNode hnode)) ?_
              (fun _ h => h)
            rintro _ t ⟨ht, hst⟩
            have hnode' : t.fileCache.lookup addr = some node := by rw [hst.fileCache, hnode]
            have hexported := tryErr_run
              (exportedBlob_run hnode' (h.sound.nodes addr node hnode).blob)
            rw [wp_bind_iff, wp, hexported, andThen_ok]
            refine wp_post_bind (releaseBlob_elsewhere _ ht) ?_ (fun _ h => h)
            rintro _ u ⟨hu, htu⟩
            obtain ⟨blobs, ticks, rfl⟩ := hst.trans htu
            exact hu

/-- The eviction worker is harmless. -/
theorem harmless_cleanup (E : Env) : Harmless E (cleanup E) := by
  intro held holders s h
  have htick : Referenced E.toEncoding held holders { s with ticks := s.ticks + 1 } :=
    h.moved (h.sound.tick _) { Quiet.refl s with }
  unfold cleanup
  rw [wp_get_bind, wp_consult_bind]
  refine wp_post_loop_const ⟨htick, rfl⟩ ?_
  rintro addr - _ t ⟨ht, hroot⟩
  refine wp_post_mono (wp_post_both (cleanupAt_sound ht addr)
    ((inv_iff_accounts.mp ht.inv).cleanupAt_spec addr)) ?_ (fun _ h => h.1)
  rintro _ u ⟨hsound, hu⟩
  exact ⟨⟨hsound, inv_iff_accounts.mpr hu.accounts⟩, hu.rootAddr.trans hroot⟩

end Grits
