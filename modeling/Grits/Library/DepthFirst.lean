import Mathlib.Data.Finset.Card
import Mathlib.Logic.Relation
import Mathlib.Tactic

/-!
# Depth-first search

The order in which a depth-first search is done with the vertices of a graph.  The search
visits each vertex once, so its recursion is no deeper than the graph has vertices; without
cycles, every vertex comes after those it points to.
-/

namespace Grits

namespace DepthFirst

open Relation

/-- A search under way: the vertices it has come to, and those it is done with. -/
structure Search (V : Type) where
  visited : List V
  sorted : List V

section Visit

variable {V : Type} [DecidableEq V]

/-- Visit a vertex, and before it is done what it points to.  Nothing comes back from a
recursion that gets deeper than `depth`. -/
def visit (next : V → List V) : ℕ → Search V → V → Option (Search V)
  | 0, _, _ => none
  | depth + 1, s, v =>
      if v ∈ s.visited then some s
      else
        ((next v).foldlM (visit next depth) { s with visited := v :: s.visited }).map fun t =>
          { t with sorted := t.sorted ++ [v] }

/-- Visit all vertices. -/
def sort (next : V → List V) (vs : List V) : Option (List V) :=
  (vs.foldlM (visit next (vs.length + 1)) ⟨[], []⟩).map Search.sorted

end Visit

variable {V : Type} {next : V → List V} {s t : Search V} {new vs sorted : List V} {v w : V}
  {depth : ℕ}

/-! ## What a visit adds -/

/-- From `s` to `t` the search came to the vertices `new`, and is done with them. -/
structure Progress (s t : Search V) (new : List V) : Prop where
  sorted : t.sorted = s.sorted ++ new
  visited : ∀ v, v ∈ t.visited ↔ v ∈ s.visited ∨ v ∈ new
  nodup : new.Nodup
  fresh : ∀ v ∈ new, v ∉ s.visited

theorem Progress.refl (s : Search V) : Progress s s [] where
  sorted := (List.append_nil _).symm
  visited := fun v => by simp
  nodup := List.nodup_nil
  fresh := fun v hv => absurd hv List.not_mem_nil

theorem Progress.trans {u : Search V} {more : List V} (h : Progress s t new)
    (h' : Progress t u more) : Progress s u (new ++ more) where
  sorted := by rw [h'.sorted, h.sorted, List.append_assoc]
  visited := fun v => by
    rw [h'.visited, h.visited, List.mem_append, or_assoc]
  nodup := by
    refine List.nodup_append.mpr ⟨h.nodup, h'.nodup, ?_⟩
    intro v hv w hw heq
    subst heq
    exact h'.fresh v hw ((h.visited v).mpr (.inr hv))
  fresh := by
    intro v hv hold
    rcases List.mem_append.mp hv with hv | hv
    · exact h.fresh v hv hold
    · exact h'.fresh v hv ((h.visited v).mpr (.inl hold))

/-- A vertex that was open before its neighbours were visited is done after them. -/
theorem Progress.close {u : Search V} (h : Progress { s with visited := v :: s.visited } u new)
    (hv : v ∉ s.visited) :
    Progress s { u with sorted := u.sorted ++ [v] } (new ++ [v]) where
  sorted := by
    show u.sorted ++ [v] = _
    rw [h.sorted, List.append_assoc]
  visited := by
    intro w
    show w ∈ u.visited ↔ _
    rw [h.visited, List.mem_cons, List.mem_append, List.mem_singleton]
    tauto
  nodup := by
    refine List.nodup_append.mpr ⟨h.nodup, List.nodup_singleton v, ?_⟩
    intro w hw x hx heq
    rw [List.mem_singleton.mp hx] at heq
    subst heq
    exact h.fresh w hw List.mem_cons_self
  fresh := by
    intro w hw
    rcases List.mem_append.mp hw with hw | hw
    · exact fun hold => h.fresh w hw (List.mem_cons_of_mem _ hold)
    · rw [List.mem_singleton.mp hw]
      exact hv

/-- `w` stands before `v`. -/
def Precedes (l : List V) (w v : V) : Prop := ∃ before after, l = before ++ v :: after ∧ w ∈ before

theorem Precedes.append {l : List V} (h : Precedes l w v) (more : List V) :
    Precedes (l ++ more) w v := by
  obtain ⟨before, after, rfl, hw⟩ := h
  exact ⟨before, after ++ more, by simp, hw⟩

/-- Every vertex comes after those it points to. -/
def Ordered (next : V → List V) (l : List V) : Prop := ∀ v ∈ l, ∀ w ∈ next v, Precedes l w v

/-- The vertex `w` is one that `v` points to. -/
def Edge (next : V → List V) (v w : V) : Prop := w ∈ next v

/-- The vertex is being visited. -/
def Search.Open (s : Search V) (v : V) : Prop := v ∈ s.visited ∧ v ∉ s.sorted

theorem Progress.open (h : Progress s t new) (hopen : t.Open v) : s.Open v := by
  obtain ⟨hvisited, hsorted⟩ := hopen
  rw [h.sorted, List.mem_append, not_or] at hsorted
  exact ⟨((h.visited v).mp hvisited).resolve_right hsorted.2, hsorted.1⟩

/-- A list of visits adds vertices if each of them does. -/
theorem foldlM_progress {P : V → Prop} {f : Search V → V → Option (Search V)} {ws : List V}
    (hf : ∀ s w t, P w → f s w = some t →
      ∃ new, Progress s t new ∧ (∀ x ∈ new, P x) ∧ w ∈ t.visited)
    (hws : ∀ w ∈ ws, P w) (h : ws.foldlM f s = some t) :
    ∃ new, Progress s t new ∧ (∀ x ∈ new, P x) ∧ ∀ w ∈ ws, w ∈ t.visited := by
  induction ws generalizing s with
  | nil =>
      rw [List.foldlM_nil] at h
      cases h
      exact ⟨[], .refl _, fun x hx => absurd hx List.not_mem_nil,
        fun w hw => absurd hw List.not_mem_nil⟩
  | cons w ws ih =>
      rw [List.foldlM_cons] at h
      obtain ⟨u, hfirst, hrest⟩ := Option.bind_eq_some_iff.mp h
      obtain ⟨new, hnew, hP, hw⟩ := hf s w u (hws w List.mem_cons_self) hfirst
      obtain ⟨more, hmore, hP', hall⟩ :=
        ih (fun w hw => hws w (List.mem_cons_of_mem _ hw)) hrest
      refine ⟨new ++ more, hnew.trans hmore, ?_, ?_⟩
      · intro x hx
        rcases List.mem_append.mp hx with hx | hx
        · exact hP x hx
        · exact hP' x hx
      · intro x hx
        rcases List.mem_cons.mp hx with rfl | hx
        · exact (hmore.visited x).mpr (.inl hw)
        · exact hall x hx

variable [DecidableEq V]

/-- What a visit of a new vertex comes to. -/
theorem visit_cases (h : visit next depth s v = some t) :
    v ∈ s.visited ∧ t = s ∨
      ∃ depth' u, depth = depth' + 1 ∧ v ∉ s.visited ∧
        (next v).foldlM (visit next depth') { s with visited := v :: s.visited } = some u ∧
        t = { u with sorted := u.sorted ++ [v] } := by
  cases depth with
  | zero => cases h
  | succ depth =>
      rw [visit] at h
      split at h
      next hv =>
        cases h
        exact .inl ⟨hv, rfl⟩
      next hv =>
        obtain ⟨u, hu, rfl⟩ := Option.map_eq_some_iff.mp h
        exact .inr ⟨depth, u, rfl, hv, hu, rfl⟩

/-- A visit adds vertices that can be reached. -/
theorem visit_progress {P : V → Prop} (hclosed : ∀ v, P v → ∀ w ∈ next v, P w) (hv : P v)
    (h : visit next depth s v = some t) :
    ∃ new, Progress s t new ∧ (∀ x ∈ new, P x) ∧ v ∈ t.visited := by
  induction depth generalizing s v t with
  | zero => cases h
  | succ depth ih =>
      rcases visit_cases h with ⟨hold, rfl⟩ | ⟨depth', u, hdepth, hfresh, hu, rfl⟩
      · exact ⟨[], .refl t, fun x hx => absurd hx List.not_mem_nil, hold⟩
      · cases hdepth
        obtain ⟨new, hnew, hP, -⟩ := foldlM_progress
          (fun s w t hw hvisit => ih hw hvisit) (hclosed v hv) hu
        refine ⟨new ++ [v], hnew.close hfresh, ?_, ?_⟩
        · intro x hx
          rcases List.mem_append.mp hx with hx | hx
          · exact hP x hx
          · rw [List.mem_singleton.mp hx]
            exact hv
        · show v ∈ u.visited
          exact (hnew.visited v).mpr (.inl List.mem_cons_self)

/-- A list of visits, as `visit_progress` has it for one. -/
theorem visits_progress {P : V → Prop} {ws : List V}
    (hclosed : ∀ v, P v → ∀ w ∈ next v, P w) (hws : ∀ w ∈ ws, P w)
    (h : ws.foldlM (visit next depth) s = some t) :
    ∃ new, Progress s t new ∧ (∀ x ∈ new, P x) ∧ ∀ w ∈ ws, w ∈ t.visited :=
  foldlM_progress (fun _ _ _ hw hvisit => visit_progress hclosed hw hvisit) hws h

/-! ## The depth of the recursion -/

/-- The vertices that are left. -/
def unvisited (vs : List V) (s : Search V) : Finset V := vs.toFinset \ s.visited.toFinset

theorem unvisited_subset (vs : List V) (hsub : ∀ v ∈ s.visited, v ∈ t.visited) :
    unvisited vs t ⊆ unvisited vs s := by
  intro v hv
  rw [unvisited, Finset.mem_sdiff, List.mem_toFinset, List.mem_toFinset] at hv ⊢
  exact ⟨hv.1, fun hold => hv.2 (hsub v hold)⟩

/-- Visits end if the depth is more than what is left. -/
theorem exists_visit {vs : List V} (hclosed : ∀ v ∈ vs, ∀ w ∈ next v, w ∈ vs) (hv : v ∈ vs)
    (hdepth : (unvisited vs s).card < depth) : ∃ t, visit next depth s v = some t := by
  induction depth generalizing s v with
  | zero => exact absurd hdepth (Nat.not_lt_zero _)
  | succ depth ih =>
      rw [visit]
      by_cases hold : v ∈ s.visited
      · rw [if_pos hold]
        exact ⟨s, rfl⟩
      · rw [if_neg hold]
        -- the vertex itself is not left while its neighbours are visited
        have hless : (unvisited vs { s with visited := v :: s.visited }).card < depth := by
          have hlt : (unvisited vs { s with visited := v :: s.visited }).card <
              (unvisited vs s).card := by
            apply Finset.card_lt_card
            refine ⟨unvisited_subset vs fun w hw => List.mem_cons_of_mem _ hw, ?_⟩
            intro hsub
            have hmem : v ∈ unvisited vs s := by simp [unvisited, hv, hold]
            have hout := hsub hmem
            simp [unvisited] at hout
          omega
        have hall : ∀ (ws : List V) (s : Search V), (∀ w ∈ ws, w ∈ vs) →
            (unvisited vs s).card < depth → ∃ t, ws.foldlM (visit next depth) s = some t := by
          intro ws
          induction ws with
          | nil => exact fun s _ _ => ⟨s, rfl⟩
          | cons w ws ihws =>
              intro s hws hs
              have hw : w ∈ vs := hws w List.mem_cons_self
              obtain ⟨u, hu⟩ := ih hw hs
              obtain ⟨new, hnew, -⟩ := visit_progress hclosed hw hu
              have hcard := Finset.card_le_card
                (unvisited_subset vs fun x hx => (hnew.visited x).mpr (.inl hx))
              obtain ⟨t, ht⟩ :=
                ihws u (fun w hw => hws w (List.mem_cons_of_mem _ hw)) (by omega)
              refine ⟨t, ?_⟩
              rw [List.foldlM_cons, hu]
              exact ht
        obtain ⟨u, hu⟩ := hall (next v) _ (hclosed v hv) hless
        rw [hu]
        exact ⟨_, rfl⟩

/-- The search ends. -/
theorem exists_sort {vs : List V} (hclosed : ∀ v ∈ vs, ∀ w ∈ next v, w ∈ vs) :
    ∃ sorted, sort next vs = some sorted := by
  have hall : ∀ (ws : List V) (s : Search V), (∀ w ∈ ws, w ∈ vs) →
      ∃ t, ws.foldlM (visit next (vs.length + 1)) s = some t := by
    intro ws
    induction ws with
    | nil => exact fun s _ => ⟨s, rfl⟩
    | cons w ws ih =>
        intro s hws
        have hcard : (unvisited vs s).card < vs.length + 1 := by
          have hsub : (unvisited vs s).card ≤ vs.toFinset.card :=
            Finset.card_le_card Finset.sdiff_subset
          have hlength := vs.toFinset_card_le
          omega
        obtain ⟨u, hu⟩ := exists_visit hclosed (hws w List.mem_cons_self) hcard
        obtain ⟨t, ht⟩ := ih u fun w hw => hws w (List.mem_cons_of_mem _ hw)
        refine ⟨t, ?_⟩
        rw [List.foldlM_cons, hu]
        exact ht
  obtain ⟨t, ht⟩ := hall vs ⟨[], []⟩ fun w hw => hw
  rw [sort, ht]
  exact ⟨t.sorted, rfl⟩

/-! ## The order -/

/-- The search is done with each vertex once. -/
theorem sort_perm (hclosed : ∀ v ∈ vs, ∀ w ∈ next v, w ∈ vs)
    (h : sort next vs = some sorted) : sorted.Perm vs.dedup := by
  obtain ⟨t, ht, rfl⟩ := Option.map_eq_some_iff.mp h
  obtain ⟨new, hnew, hsub, hall⟩ := visits_progress hclosed (fun w hw => hw) ht
  have hsorted : t.sorted = new := by rw [hnew.sorted, List.nil_append]
  rw [hsorted, List.perm_ext_iff_of_nodup hnew.nodup vs.nodup_dedup]
  intro v
  rw [List.mem_dedup]
  constructor
  · exact hsub v
  · intro hv
    rcases (hnew.visited v).mp (hall v hv) with hv | hv
    · exact absurd hv List.not_mem_nil
    · exact hv

/-- Without cycles, a visit of a vertex that reaches no open one keeps the order. -/
theorem visit_ordered (hacyclic : ∀ v, ¬ TransGen (Edge next) v v) (hs : Ordered next s.sorted)
    (hopen : ∀ g, s.Open g → ¬ ReflTransGen (Edge next) v g)
    (h : visit next depth s v = some t) : Ordered next t.sorted := by
  induction depth generalizing s v t with
  | zero => cases h
  | succ depth ih =>
      rcases visit_cases h with ⟨-, rfl⟩ | ⟨depth', u, hdepth, hfresh, hu, rfl⟩
      · exact hs
      cases hdepth
      -- the open vertices are the old ones and `v`, and no neighbour of `v` reaches them
      have hreach : ∀ w ∈ next v, ∀ g,
          Search.Open { s with visited := v :: s.visited } g → ¬ ReflTransGen (Edge next) w g := by
        rintro w hw g ⟨hvisited, hsorted⟩ hpath
        rcases List.mem_cons.mp hvisited with rfl | hold
        · exact hacyclic g (TransGen.head' hw hpath)
        · exact hopen g ⟨hold, hsorted⟩ (ReflTransGen.head hw hpath)
      have hall : ∀ (ws : List V) (s' : Search V), (∀ w ∈ ws, w ∈ next v) →
          Ordered next s'.sorted →
          (∀ g, s'.Open g → Search.Open { s with visited := v :: s.visited } g) →
          ws.foldlM (visit next depth) s' = some u → Ordered next u.sorted := by
        intro ws
        induction ws with
        | nil =>
            intro s' _ hs' _ hfold
            cases hfold
            exact hs'
        | cons w ws ihws =>
            intro s' hws hs' hopen' hfold
            rw [List.foldlM_cons] at hfold
            obtain ⟨m, hfirst, hrest⟩ := Option.bind_eq_some_iff.mp hfold
            have hm : Ordered next m.sorted := ih hs'
              (fun g hg => hreach w (hws w List.mem_cons_self) g (hopen' g hg)) hfirst
            obtain ⟨new, hnew, -⟩ :=
              visit_progress (P := fun _ => True) (fun _ _ _ _ => trivial) trivial hfirst
            exact ihws m (fun w hw => hws w (List.mem_cons_of_mem _ hw)) hm
              (fun g hg => hopen' g (hnew.open hg)) hrest
      have hordered : Ordered next u.sorted :=
        hall (next v) { s with visited := v :: s.visited } (fun w hw => hw) hs (fun g hg => hg) hu
      obtain ⟨new, hnew, -, hvisited⟩ :=
        visits_progress (P := fun _ => True) (fun _ _ _ _ => trivial) (fun _ _ => trivial) hu
      show Ordered next (u.sorted ++ [v])
      intro x hx w hw
      rcases List.mem_append.mp hx with hx | hx
      · exact (hordered x hx w hw).append [v]
      · cases List.mem_singleton.mp hx
        refine ⟨u.sorted, [], rfl, ?_⟩
        by_contra hsorted
        exact hreach w hw w (hnew.open ⟨hvisited w hw, hsorted⟩) ReflTransGen.refl

/-- Without cycles, every vertex comes after those it points to. -/
theorem sort_ordered (hacyclic : ∀ v, ¬ TransGen (Edge next) v v)
    (h : sort next vs = some sorted) : Ordered next sorted := by
  obtain ⟨t, ht, rfl⟩ := Option.map_eq_some_iff.mp h
  have hall : ∀ (ws : List V) (s : Search V), Ordered next s.sorted → (∀ g, ¬ s.Open g) →
      ws.foldlM (visit next (vs.length + 1)) s = some t → Ordered next t.sorted := by
    intro ws
    induction ws with
    | nil =>
        intro s hs _ hfold
        cases hfold
        exact hs
    | cons w ws ih =>
        intro s hs hopen hfold
        rw [List.foldlM_cons] at hfold
        obtain ⟨u, hfirst, hrest⟩ := Option.bind_eq_some_iff.mp hfold
        have hu : Ordered next u.sorted :=
          visit_ordered hacyclic hs (fun g hg => absurd hg (hopen g)) hfirst
        obtain ⟨new, hnew, -⟩ :=
          visit_progress (P := fun _ => True) (fun _ _ _ _ => trivial) trivial hfirst
        exact ih u hu (fun g hg => hopen g (hnew.open hg)) hrest
  exact hall vs ⟨[], []⟩ (fun v hv => absurd hv List.not_mem_nil)
    (fun g hg => absurd hg.1 List.not_mem_nil) ht

/-! ## Lists that are in order already -/

/-- Every vertex comes after the others it points to. -/
def InOrder (next : V → List V) (vs : List V) : Prop :=
  ∀ before v after, vs = before ++ v :: after → ∀ w ∈ next v, w = v ∨ w ∈ before

theorem foldlM_visited {ws : List V} (h : ∀ w ∈ ws, w ∈ s.visited) :
    ws.foldlM (visit next (depth + 1)) s = some s := by
  induction ws with
  | nil => rfl
  | cons w ws ih =>
      have hfirst : visit next (depth + 1) s w = some s := by
        rw [visit, if_pos (h w List.mem_cons_self)]
      rw [List.foldlM_cons, hfirst]
      exact ih fun x hx => h x (List.mem_cons_of_mem _ hx)

/-- A search that is done with all it has come to takes the rest as it stands exactly if that
is in order. -/
theorem foldlM_sorted_iff {rest : List V} (hnodup : (s.sorted ++ rest).Nodup)
    (hdone : ∀ x, x ∈ s.visited ↔ x ∈ s.sorted) :
    (∃ t, rest.foldlM (visit next (depth + 2)) s = some t ∧ t.sorted = s.sorted ++ rest) ↔
      ∀ before v after, rest = before ++ v :: after →
        ∀ w ∈ next v, w = v ∨ w ∈ s.sorted ++ before := by
  induction rest generalizing s with
  | nil =>
      constructor
      · intro _ before v after h
        exact absurd h.symm (by simp)
      · intro _
        exact ⟨s, rfl, (List.append_nil _).symm⟩
  | cons v rest ih =>
      have hfresh : v ∉ s.visited := by
        rw [hdone]
        intro hv
        exact (List.nodup_append.mp hnodup).2.2 v hv v List.mem_cons_self rfl
      have hnodup' : ((s.sorted ++ [v]) ++ rest).Nodup := by
        rw [List.append_assoc]
        exact hnodup
      constructor
      · rintro ⟨t, ht, hsorted⟩
        rw [List.foldlM_cons] at ht
        obtain ⟨u, hfirst, hrest⟩ := Option.bind_eq_some_iff.mp ht
        rcases visit_cases hfirst with ⟨hold, -⟩ | ⟨depth', m, hdepth, -, hm, rfl⟩
        · exact absurd hold hfresh
        cases hdepth
        obtain ⟨new, hnew, -, hvisited⟩ :=
          visits_progress (P := fun _ => True) (fun _ _ _ _ => trivial) (fun _ _ => trivial) hm
        obtain ⟨more, hmore, -⟩ :=
          visits_progress (P := fun _ => True) (fun _ _ _ _ => trivial) (fun _ _ => trivial) hrest
        have hm' : m.sorted = s.sorted ++ new := hnew.sorted
        have hlist : new ++ v :: more = v :: rest := by
          have hall : t.sorted = (m.sorted ++ [v]) ++ more := hmore.sorted
          rw [hsorted, hm', List.append_assoc, List.append_assoc] at hall
          exact (List.append_cancel_left hall).symm
        -- nothing is done between `s.sorted` and `v`
        have hnil : new = [] := by
          cases new with
          | nil => rfl
          | cons x new =>
              have hx : x = v := (List.cons.inj hlist).1
              subst hx
              exact absurd List.mem_cons_self (hnew.fresh x List.mem_cons_self)
        subst hnil
        rw [List.append_nil] at hm'
        have hnext : ∀ w ∈ next v, w = v ∨ w ∈ s.sorted := by
          intro w hw
          rcases (hnew.visited w).mp (hvisited w hw) with hold | hnone
          · rcases List.mem_cons.mp hold with heq | hold
            · exact .inl heq
            · exact .inr ((hdone w).mp hold)
          · exact absurd hnone List.not_mem_nil
        have hrest' := (ih (s := { m with sorted := m.sorted ++ [v] })
          (by rw [hm']; exact hnodup') ?_).mp ⟨t, hrest, ?_⟩
        · intro before x after hsplit w hw
          cases before with
          | nil =>
              obtain ⟨rfl, -⟩ := List.cons.inj hsplit
              rw [List.append_nil]
              exact hnext w hw
          | cons y before =>
              have h := hrest' before x after (List.cons.inj hsplit).2 w hw
              have hy : v = y := (List.cons.inj hsplit).1
              subst hy
              show w = x ∨ w ∈ s.sorted ++ v :: before
              rw [show (s.sorted ++ v :: before) = (s.sorted ++ [v]) ++ before by simp, ← hm']
              exact h
        · intro x
          show x ∈ m.visited ↔ x ∈ m.sorted ++ [v]
          rw [hnew.visited, hm', List.mem_append, List.mem_singleton, List.mem_cons, hdone]
          simp [or_comm]
        · rw [hsorted, hm', List.append_assoc]
          rfl
      · intro h
        have hnext := h [] v rest rfl
        rw [List.append_nil] at hnext
        have hfirst : visit next (depth + 2) s v =
            some { visited := v :: s.visited, sorted := s.sorted ++ [v] } := by
          rw [visit, if_neg hfresh, foldlM_visited]
          · rfl
          · intro w hw
            rcases hnext w hw with rfl | hw
            · exact List.mem_cons_self
            · exact List.mem_cons_of_mem _ ((hdone w).mpr hw)
        obtain ⟨t, ht, hsorted⟩ := (ih (s := ⟨v :: s.visited, s.sorted ++ [v]⟩) hnodup' (by
          intro x
          rw [List.mem_cons, List.mem_append, List.mem_singleton, hdone, or_comm])).mpr (by
          intro before x after hsplit w hw
          rw [List.append_assoc]
          exact h (v :: before) x after (by rw [hsplit]; rfl) w hw)
        refine ⟨t, ?_, ?_⟩
        · rw [List.foldlM_cons, hfirst]
          exact ht
        · rw [hsorted, List.append_assoc]
          rfl

/-- The search keeps a list as it is exactly if it is in order. -/
theorem sort_eq_self_iff (hnodup : vs.Nodup) : sort next vs = some vs ↔ InOrder next vs := by
  rw [sort, Option.map_eq_some_iff]
  cases vs with
  | nil =>
      refine iff_of_true ⟨⟨[], []⟩, rfl, rfl⟩ ?_
      intro before v after h
      exact absurd h.symm (by simp)
  | cons v vs => exact foldlM_sorted_iff (s := ⟨[], []⟩) hnodup fun x => Iff.rfl

end DepthFirst

end Grits
