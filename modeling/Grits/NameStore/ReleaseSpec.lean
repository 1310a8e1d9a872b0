import Grits.NameStore.TakeSpec

/-!
# Releasing a tree

`recursiveRelease` of the root of a counted tree gives back one reference and,
where it was the last one, the references of the node in turn.  A node stays in
the map of the reference manager until its children have been released; `busy`
counts these nodes, which all lie above the part of the tree being released.
-/

namespace Grits

open Prog RefCount

variable {E : Env} {held : Multiset BlobAddr} {s : NameStore}

theorem nodeChildren_ready (hs : Sound E.toEncoding held s) {addr : BlobAddr}
    (h : Ready E.toEncoding s addr) :
    ∃ children, nodeChildren E addr s = (.ok children, s) ∧
      E.references addr = Encoding.targets (children.getD ∅) := by
  rcases h with ⟨children, hread, hdir⟩ | ⟨hcached, hfile⟩
  · exact ⟨some children, nodeChildren_read hs hread, hdir.references⟩
  · exact ⟨none, nodeChildren_file hs hcached hfile, Encoding.references_eq_zero hfile⟩

/-- The state of a release that began in `s`: the nodes in `count` are counted,
those in `busy` are about to go. -/
structure Releasing (E : Encoding) (held : Multiset BlobAddr) (s : NameStore)
    (busy count : BlobAddr →₀ ℕ) (refs : Multiset BlobAddr) (t : NameStore) : Prop where
  sound : Sound E held t
  managed : Managed s t
  represents : Represents t.refCount (count + busy)
  counted : Counted E.references count refs
  ready : AllReady E t count

/-- The specification of `recursiveRelease` for trees of at most this height. -/
def ReleasesBelow (E : Env) (held : Multiset BlobAddr) (s : NameStore) (fuel : ℕ) : Prop :=
  ∀ (addr : BlobAddr) (busy count : BlobAddr →₀ ℕ) (refs : Multiset BlobAddr) (t : NameStore),
    E.rank addr < fuel → (∀ other, busy other ≠ 0 → E.rank addr < E.rank other) →
    Releasing E.toEncoding held s busy count (addr ::ₘ refs) t →
    wp (recursiveReleaseFrom E fuel addr) (post
      (fun _ u => ∃ count' ≤ count, Releasing E.toEncoding held s busy count' refs u)
      (fun _ => False)) t

/-- The loop of `recursiveRelease` over the children of a node. -/
theorem releaseChildren_spec {fuel : ℕ} (ih : ReleasesBelow E held s fuel)
    {busy count : BlobAddr →₀ ℕ} {refs : Multiset BlobAddr}
    (entries : List (Σ _ : GoString, BlobAddr)) {t : NameStore}
    (hrank : ∀ entry ∈ entries, E.rank entry.2 < fuel)
    (hbusy : ∀ entry ∈ entries, ∀ other, busy other ≠ 0 → E.rank entry.2 < E.rank other)
    (ht : Releasing E.toEncoding held s busy count
      (refs + (entries.map (·.2) : List BlobAddr)) t) :
    wp (loop (fun (_ : Unit) entry => do
        loadFileNode E entry.2
        recursiveReleaseFrom E fuel entry.2) () entries)
      (post (fun _ u => ∃ count' ≤ count, Releasing E.toEncoding held s busy count' refs u)
      (fun _ => False)) t := by
  induction entries generalizing count t with
  | nil => exact ⟨count, le_rfl, by simpa using ht⟩
  | cons entry rest ihRest =>
      have ht' : Releasing E.toEncoding held s busy count
          (entry.2 ::ₘ (refs + (rest.map (·.2) : List BlobAddr))) t := by
        rwa [List.map_cons, ← Multiset.cons_coe, Multiset.add_cons] at ht
      -- the child is still counted, so it is loaded
      have hpos := ht'.counted.pos_of_mem_held (Multiset.mem_cons_self entry.2 _)
      have hcached := (ht'.ready entry.2 hpos.ne').cached
      rw [loop_cons]
      refine wp_post_bind (P := fun _ u => ∃ count' ≤ count, Releasing E.toEncoding held s busy
        count' (refs + (rest.map (·.2) : List BlobAddr)) u) (Q := fun _ => False) ?_ ?_
        (fun _ h => h)
      · rw [wp_bind_iff, wp, loadFileNode_cached hcached, andThen_ok]
        exact ih entry.2 busy count _ t (hrank entry List.mem_cons_self)
          (hbusy entry List.mem_cons_self) ht'
      · rintro _ u ⟨count', hle, hu⟩
        refine wp_post_mono (ihRest (fun e he => hrank e (List.mem_cons_of_mem _ he))
          (fun e he => hbusy e (List.mem_cons_of_mem _ he)) hu) ?_ (fun _ h => h)
        rintro _ v ⟨count'', hle', hv⟩
        exact ⟨count'', hle'.trans hle, hv⟩

/-- Giving back a reference to a node that has others. -/
theorem release_shared_spec {busy count : BlobAddr →₀ ℕ} {refs : Multiset BlobAddr}
    {addr : BlobAddr} {t : NameStore} (hbusy : busy addr = 0) (hcount : 1 < count addr)
    (ht : Releasing E.toEncoding held s busy count (addr ::ₘ refs) t) :
    Releasing E.toEncoding held s busy (count - Finsupp.single addr 1) refs
      { t with refCount := t.refCount.insert addr ((count addr : ℤ) - 1) } := by
  have hsum : (count + busy) addr = count addr := by rw [Finsupp.add_apply, hbusy, add_zero]
  have hmany : 1 < (count + busy) addr := by omega
  have hlookup := ht.represents.lookup_of_ne_zero (Nat.ne_zero_of_lt hmany)
  have hmanaged := managed_insertRef (m := (count addr : ℤ) - 1) hlookup
  refine ⟨{ ht.sound with }, ht.managed.trans hmanaged, ?_, ht.counted.release_shared hcount, ?_⟩
  · have hrefs := ht.represents.decrement hmany
    have hswap : count + busy - Finsupp.single addr 1 = count - Finsupp.single addr 1 + busy := by
      ext other
      by_cases hother : other = addr
      · subst hother
        simp [hbusy]
      · simp [Finsupp.single_eq_of_ne hother]
    rw [hsum, hswap] at hrefs
    exact hrefs
  · intro other hother
    refine (ht.ready other fun hzero => hother ?_).managed hmanaged
    rw [Finsupp.tsub_apply, hzero, Nat.zero_sub]

/-- The last reference to a node: it is busy until its children are released. -/
theorem release_last_spec {busy count : BlobAddr →₀ ℕ} {refs : Multiset BlobAddr}
    {addr : BlobAddr} {t : NameStore} (hcount : count addr = 1)
    (ht : Releasing E.toEncoding held s busy count (addr ::ₘ refs) t) :
    Releasing E.toEncoding held s (busy + Finsupp.single addr 1) (count.erase addr)
      (refs + E.references addr) t := by
  refine ⟨ht.sound, ht.managed, ?_, ht.counted.release_last hcount, ?_⟩
  · have hswap : count.erase addr + (busy + Finsupp.single addr 1) = count + busy := by
      ext other
      by_cases hother : other = addr
      · subst hother
        simp [hcount]
        omega
      · simp [Finsupp.single_eq_of_ne hother, Finsupp.erase_ne hother]
    rw [hswap]
    exact ht.represents
  · intro other hother
    refine ht.ready other fun hzero => hother ?_
    by_cases h : other = addr
    · rw [h, Finsupp.erase_same]
    · rw [Finsupp.erase_ne h, hzero]

/-- Once its children are released, a busy node goes. -/
theorem release_busy_spec (hdense : E.sparse = false) {busy count : BlobAddr →₀ ℕ}
    {refs : Multiset BlobAddr} {addr : BlobAddr} {t : NameStore}
    (houtside : 0 ≤ outside s addr) (hbusy : busy addr = 0) (hcount : count addr = 0)
    (ht : Releasing E.toEncoding held s (busy + Finsupp.single addr 1) count refs t) :
    wp (do releaseNode E addr; Prog.modify fun s => { s with refCount := s.refCount.erase addr })
      (post (fun _ u => Releasing E.toEncoding held s busy count refs u) (fun _ => False)) t := by
  have hone : (count + (busy + Finsupp.single addr 1) : BlobAddr →₀ ℕ) addr = 1 := by
    simp [hbusy, hcount]
  have hlookup := ht.represents.lookup_of_ne_zero (hone.trans_ne one_ne_zero)
  have hnode : 0 < nodeCount t addr := by
    have := ht.managed.outside addr
    rw [outside, tracked_of_lookup hlookup] at this
    omega
  refine wp_post_bind (releaseNode_spec ht.sound hdense hnode) ?_ (fun _ h => h)
  rintro _ u ⟨hu, hquiet⟩
  have hmanaged : Managed t { u with refCount := u.refCount.erase addr } := by
    rw [hquiet.refCount]
    exact managed_untrack hlookup (hquiet.setRefs (t.refCount.erase addr))
  refine ⟨{ hu with }, ht.managed.trans hmanaged, ?_, ht.counted, ht.ready.managed hmanaged⟩
  have hrefs := ht.represents.erase addr
  have hgone : (count + (busy + Finsupp.single addr 1)).erase addr = count + busy := by
    ext other
    by_cases hother : other = addr
    · subst hother
      simp [hbusy, hcount]
    · rw [Finsupp.erase_ne hother]
      simp [Finsupp.single_eq_of_ne hother]
  rw [hgone] at hrefs
  change Represents (u.refCount.erase addr) _
  rw [hquiet.refCount]
  exact hrefs

theorem recursiveReleaseFrom_spec (hdense : E.sparse = false)
    (houtside : ∀ addr, 0 ≤ outside s addr) (fuel : ℕ) : ReleasesBelow E held s fuel := by
  induction fuel with
  | zero =>
      intro addr _ _ _ _ hfuel
      omega
  | succ fuel ih =>
      intro addr busy count refs t hfuel hbusy ht
      have hfree : busy addr = 0 := by
        by_contra hne
        exact lt_irrefl _ (hbusy addr hne)
      have hpos := ht.counted.pos_of_mem_held (Multiset.mem_cons_self addr refs)
      have hsum : (count + busy) addr = count addr := by
        rw [Finsupp.add_apply, hfree, add_zero]
      have hlookup := ht.represents.lookup_of_ne_zero (hsum.trans_ne hpos.ne')
      rw [hsum] at hlookup
      rw [recursiveReleaseFrom, wp_get_bind, hlookup]
      simp only
      rw [if_neg (by omega)]
      split
      next hone =>
        have hone : count addr = 1 := by exact_mod_cast hone
        have hlast := release_last_spec hone ht
        obtain ⟨children, hrun, hrefs⟩ := nodeChildren_ready ht.sound (ht.ready addr hpos.ne')
        rw [wp_bind_iff, wp, hrun, andThen_ok, wp_consult_bind]
        generalize hentries : E.childOrder t.ticks (children.getD ∅) = entries
        have hcoe : (entries : Multiset _) = (children.getD ∅).entries := by
          rw [← hentries]
          exact E.coe_childOrder _ _
        rw [hrefs, Encoding.targets, ← hcoe, Multiset.map_coe] at hlast
        have htick : Kept E.toEncoding held t { t with ticks := t.ticks + 1 } :=
          ⟨ht.sound.tick _, { Quiet.refl t with }⟩
        have hstart : Releasing E.toEncoding held s (busy + Finsupp.single addr 1)
            (count.erase addr) (refs + (entries.map (·.2) : List BlobAddr))
            { t with ticks := t.ticks + 1 } :=
          ⟨htick.sound, ht.managed.trans htick.quiet.managed, hlast.represents, hlast.counted,
            hlast.ready.managed htick.quiet.managed⟩
        have hbelow : ∀ entry ∈ entries, E.rank entry.2 < E.rank addr := by
          intro entry hentry
          refine Encoding.rank_lt_of_mem_references ?_
          rw [hrefs, Encoding.mem_targets]
          exact ⟨entry.1, (mem_entries_iff hcoe).mp hentry⟩
        refine wp_post_bind (releaseChildren_spec ih entries ?_ ?_ hstart) ?_ (fun _ h => h)
        · intro entry hentry
          have := hbelow entry hentry
          omega
        · intro entry hentry other hother
          by_cases heq : other = addr
          · rw [heq]
            exact hbelow entry hentry
          · refine (hbelow entry hentry).trans (hbusy other ?_)
            rwa [Finsupp.add_apply, Finsupp.single_eq_of_ne heq, add_zero] at hother
        · rintro _ u ⟨count', hle, hu⟩
          have hzero : count' addr = 0 := by
            have := hle addr
            rwa [Finsupp.erase_same, Nat.le_zero] at this
          refine wp_post_mono (release_busy_spec hdense (houtside addr) hfree hzero hu) ?_
            (fun _ h => h)
          intro _ v hv
          refine ⟨count', hle.trans ?_, hv⟩
          intro other
          by_cases heq : other = addr
          · rw [heq, Finsupp.erase_same]
            exact Nat.zero_le _
          · rw [Finsupp.erase_ne heq]
      next hne =>
        have hmany : 1 < count addr := by
          have : count addr ≠ 1 := by exact_mod_cast hne
          omega
        exact ⟨_, tsub_le_self, release_shared_spec hfree hmany ht⟩

/-- Releasing the root of a counted tree always succeeds. -/
theorem recursiveRelease_spec (hdense : E.sparse = false) {count : BlobAddr →₀ ℕ}
    {refs : Multiset BlobAddr} {addr : BlobAddr} (houtside : ∀ addr, 0 ≤ outside s addr)
    (hs : Sound E.toEncoding held s) (hrefs : Represents s.refCount count)
    (hcounted : Counted E.references count (addr ::ₘ refs))
    (hready : AllReady E.toEncoding s count) :
    wp (recursiveRelease E (some addr)) (post
      (fun _ t => Sound E.toEncoding held t ∧ Managed s t ∧ ∃ count',
        Represents t.refCount count' ∧ Counted E.references count' refs ∧
        AllReady E.toEncoding t count')
      (fun _ => False)) s := by
  have hstart : Releasing E.toEncoding held s 0 count (addr ::ₘ refs) s :=
    ⟨hs, .refl s, by rwa [add_zero], hcounted, hready⟩
  rw [recursiveRelease, if_neg (by simp [hdense])]
  refine wp_post_mono (recursiveReleaseFrom_spec hdense houtside (E.rank addr + 1) addr 0 count
    refs s (Nat.lt_succ_self _) (fun _ h => absurd rfl h) hstart) ?_ (fun _ h => h)
  rintro _ t ⟨count', -, ht⟩
  exact ⟨ht.sound, ht.managed, count', by simpa using ht.represents, ht.counted, ht.ready⟩

end Grits
