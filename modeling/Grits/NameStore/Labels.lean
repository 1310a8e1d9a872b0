import Grits.NameStore.Guarantees

/-!
# The labels of a lookup

The entries of a resolved path are labelled with the components joined by
`filepath.Join`, which cleans what it joins.  The labels are the paths of the
entries exactly if the components are settled, or a single `.`.
-/

namespace Grits

open Prog SlashPath

/-! ## Labels -/

/-- The label of an entry from that of the entry above it. -/
def nextLabel (current part : GoString) : GoString :=
  if current = [] then part else joinClean current part

/-- The label of the last entry for the components of a path. -/
def label (parts : List GoString) : GoString := parts.foldl nextLabel []

@[simp] theorem label_nil : label [] = [] := rfl

theorem label_concat (parts : List GoString) (part : GoString) :
    label (parts ++ [part]) = nextLabel (label parts) part := by
  rw [label, List.foldl_append]
  rfl

/-- The next label, where the last one is the path. -/
theorem nextLabel_join {parts : List GoString} (hnames : Names parts) (hne : parts ≠ [])
    (part : GoString) : nextLabel (join parts) part = clean (join (parts ++ [part])) := by
  have hjoin : join parts ≠ [] := fun h => hne ((join_eq_nil_iff hnames).mp h)
  rw [nextLabel, if_neg hjoin, joinClean, if_neg fun h => hjoin h.1, if_neg hjoin, join_concat hne]

/-- Settled components are labelled with their path. -/
theorem label_of_settled {parts : List GoString} (hnames : Names parts) (h : Settled parts) :
    label parts = join parts := by
  induction parts using List.reverseRecOn with
  | nil => rfl
  | append_singleton parts part ih =>
      rw [label_concat, ih hnames.of_concat h.of_concat]
      by_cases hne : parts = []
      · subst hne
        exact (join_singleton part).symm
      · rw [nextLabel_join hnames.of_concat hne, h.clean_join hnames (by simp)]

/-! ## Which labels are paths -/

/-- What the cleaned path must be for a component to keep the label a path. -/
theorem settled_of_clean {parts : List GoString} {part : GoString} (hne : parts ≠ [])
    (hnames : Names (parts ++ [part])) (hparts : parts = [['.']] ∨ Settled parts)
    (hclean : clean (join (parts ++ [part])) = join (parts ++ [part])) :
    Settled (parts ++ [part]) := by
  -- a path that got shorter has changed
  have hshorter : ∀ kept : List GoString, (parts ++ [part]).foldl (cleanStep false) [] = kept →
      ¬ (join kept.reverse).length + 1 < (join (parts ++ [part])).length := by
    intro kept hkept hlt
    rw [clean_join hnames (by simp), hkept] at hclean
    rw [← hclean] at hlt
    split at hlt
    next hnil =>
      rw [hnil] at hlt
      exact absurd hlt (by decide)
    next => omega
  have hlength := length_join_concat hne part
  have hpos : 0 < part.length := List.length_pos_of_ne_nil (hnames part (by simp)).1
  rcases hparts with rfl | hsettled
  · exfalso
    -- the component `.` is left out
    refine hshorter (cleanStep false [] part) rfl ?_
    have hkept : (join (cleanStep false [] part).reverse).length ≤ part.length := by
      unfold cleanStep
      split
      next => exact Nat.zero_le _
      next =>
        split
        next => exact (congrArg List.length (join_singleton part)).le
        next => exact (congrArg List.length (join_singleton part)).le
    have hone : (join [['.']]).length = 1 := rfl
    omega
  · have hfold : (parts ++ [part]).foldl (cleanStep false) [] =
        cleanStep false parts.reverse part := by
      rw [List.foldl_append, hsettled.foldl_cleanStep hnames.of_concat]
      rfl
    by_cases hdot : part = ['.']
    · exfalso
      refine hshorter parts.reverse ?_ ?_
      · rw [hfold, cleanStep.eq_def, if_pos (.inr hdot)]
      · rw [List.reverse_reverse]
        omega
    · obtain ⟨ups, names, rfl, hups, hdots⟩ := hsettled
      by_cases hup : part = ['.', '.']
      · rcases List.eq_nil_or_concat names with rfl | ⟨init, last, rfl⟩
        · refine ⟨ups ++ [part], [], by simp, ?_, fun _ hmem => absurd hmem List.not_mem_nil⟩
          intro other hother
          rcases List.mem_append.mp hother with hother | hother
          · exact hups other hother
          · rw [List.mem_singleton.mp hother, hup]
        · exfalso
          -- the component `..` takes the last name away
          rw [List.concat_eq_append, ← List.append_assoc] at *
          refine hshorter (ups ++ init).reverse ?_ ?_
          · rw [hfold, cleanStep.eq_def, if_neg (by simp [hup]), if_pos hup, List.reverse_concat]
            simp only
            rw [if_neg (hdots last (by simp)).2]
          · have hle := length_join_le (ups ++ init) last
            rw [List.reverse_reverse]
            omega
      · refine ⟨ups, names ++ [part], by simp, hups, ?_⟩
        intro other hother
        rcases List.mem_append.mp hother with hother | hother
        · exact hdots other hother
        · rw [List.mem_singleton.mp hother]
          exact ⟨hdot, hup⟩

/-- The labels of all entries are paths exactly for settled components, and for `.`. -/
theorem labels_iff {parts : List GoString} (hnames : Names parts) :
    (∀ above, above <+: parts → label above = join above) ↔
      parts = [['.']] ∨ Settled parts := by
  constructor
  · intro hlabels
    induction parts using List.reverseRecOn with
    | nil => exact .inr ⟨[], [], rfl, fun _ h => absurd h List.not_mem_nil,
        fun _ h => absurd h List.not_mem_nil⟩
    | append_singleton parts part ih =>
        have habove := ih hnames.of_concat fun above h => hlabels above (h.trans (List.prefix_append _ _))
        by_cases hne : parts = []
        · subst hne
          by_cases hdot : part = ['.']
          · exact .inl (by rw [hdot]; rfl)
          · refine .inr ?_
            by_cases hup : part = ['.', '.']
            · exact ⟨[part], [], rfl, by simpa using hup, fun _ h => absurd h List.not_mem_nil⟩
            · exact settled_of_no_dots (by simpa using ⟨hdot, hup⟩)
        · refine .inr (settled_of_clean hne hnames habove ?_)
          have hlabel := hlabels _ (List.prefix_refl _)
          rwa [label_concat, hlabels parts (List.prefix_append _ _),
            nextLabel_join hnames.of_concat hne] at hlabel
  · rintro (rfl | hsettled) above habove
    · rcases List.prefix_cons_iff.mp habove with rfl | ⟨rest, rfl, hrest⟩
      · rfl
      · rw [List.prefix_nil.mp hrest]
        rfl
    · obtain ⟨below, rfl⟩ := habove
      exact label_of_settled (fun part hpart => hnames part (List.mem_append_left _ hpart))
        hsettled.of_append

/-! ## The documented entries -/

variable {E : Env} {holders : Multiset BlobAddr} {s : NameStore}

/-- The entries of a lookup below `start` under these labels: one for the start, and
one for every component, by what is found there. -/
inductive Described (E : Env) (s : NameStore) (start : BlobAddr)
    (labelled : List GoString → GoString) :
    List GoString → List PathNodePair → Option BlobAddr → Prop
  | start {metadata : GNodeMetadata} (hmetadata : E.MetadataAt start metadata) :
      Described E s start labelled [] [.found [] start metadata] (some start)
  | entry {parts : List GoString} {part : GoString} {pairs : List PathNodePair}
      {pair : PathNodePair} {current next : Option BlobAddr}
      (habove : Described E s start labelled parts pairs current)
      (hentry : Entry E s (labelled (parts ++ [part])) part current pair next) :
      Described E s start labelled (parts ++ [part]) (pairs ++ [pair]) next

/-- The entries as documented: each is labelled with its path. -/
abbrev Documented (E : Env) (s : NameStore) (start : BlobAddr) :=
  Described E s start join

namespace Described

variable {start : BlobAddr} {labelled labelled' : List GoString → GoString}
  {parts : List GoString} {part : GoString} {pairs : List PathNodePair} {pair : PathNodePair}
  {last last' : Option BlobAddr}

theorem length_eq (h : Described E s start labelled parts pairs last) :
    pairs.length = parts.length + 1 := by
  induction h with
  | start => rfl
  | entry _ _ ih => rw [List.length_append, List.length_append, ih]; rfl

/-- The last entry has the label of all components. -/
theorem getLast?_path (h : Described E s start labelled parts pairs last) (hne : parts ≠ []) :
    pairs.getLast?.map (·.path) = some (labelled parts) := by
  cases h with
  | start => exact absurd rfl hne
  | entry _ hentry => rw [List.getLast?_concat, Option.map_some, hentry.path_eq]

theorem concat_inv (h : Described E s start labelled (parts ++ [part]) (pairs ++ [pair]) last) :
    pair.path = labelled (parts ++ [part]) ∧
      ∃ current, Described E s start labelled parts pairs current := by
  generalize hparts : parts ++ [part] = all at h
  generalize hpairs : pairs ++ [pair] = allPairs at h
  cases h with
  | start => simp at hparts
  | entry habove hentry =>
      obtain ⟨rfl, hpart⟩ := List.append_inj' hparts rfl
      obtain ⟨rfl, hpair⟩ := List.append_inj' hpairs rfl
      cases hpart
      cases hpair
      exact ⟨hentry.path_eq, _, habove⟩

/-- The entries determine the labels. -/
theorem labelled_eq (h : Described E s start labelled parts pairs last)
    (h' : Described E s start labelled' parts pairs last') :
    ∀ above, above <+: parts → above ≠ [] → labelled above = labelled' above := by
  induction h generalizing last' with
  | start => exact fun above habove hne => absurd (List.prefix_nil.mp habove) hne
  | entry _ hentry ih =>
      obtain ⟨hpath, current, habove'⟩ := h'.concat_inv
      intro above habove hne
      rcases List.prefix_concat_iff.mp habove with rfl | habove
      · rw [← hentry.path_eq, hpath]
      · exact ih habove' above habove hne

/-- Equal labels describe equal entries. -/
theorem congr (h : Described E s start labelled parts pairs last)
    (heq : ∀ above, above <+: parts → above ≠ [] → labelled above = labelled' above) :
    Described E s start labelled' parts pairs last := by
  induction h with
  | start hmetadata => exact .start hmetadata
  | entry _ hentry ih =>
      rw [heq _ (List.prefix_refl _) (by simp)] at hentry
      refine .entry (ih ?_) hentry
      exact fun above habove => heq above (habove.trans (List.prefix_append _ _))

end Described

/-- The rounds of a walk describe the components that are not empty. -/
theorem Walk.Followed.described {start : BlobAddr} {metadata : GNodeMetadata}
    (hmetadata : E.MetadataAt start metadata) {parts : List GoString} {walk : Walk}
    (h : Walk.Followed E s ⟨[.found [] start metadata], some start, []⟩ parts walk) :
    walk.currentPath = label (parts.filter (· ≠ [])) ∧
      Described E s start label (parts.filter (· ≠ [])) walk.paths walk.current := by
  generalize hfirst : (⟨[.found [] start metadata], some start, []⟩ : Walk) = first at h
  induction h with
  | nil =>
      subst hfirst
      exact ⟨rfl, .start hmetadata⟩
  | @concat walk' walk'' parts part _ hpart ih =>
      obtain ⟨hpath, habove⟩ := ih
      rw [Walk.Stepped] at hpart
      split at hpart
      next hnil =>
        have hfilter : (parts ++ [part]).filter (· ≠ []) = parts.filter (· ≠ []) := by
          rw [List.filter_append, hnil, List.filter_cons_of_neg (by simp), List.filter_nil,
            List.append_nil]
        rw [hpart, hfilter]
        exact ⟨hpath, habove⟩
      next hne =>
        obtain ⟨pair, hpaths, hnext, hentry⟩ := hpart
        have hfilter : (parts ++ [part]).filter (· ≠ []) = parts.filter (· ≠ []) ++ [part] := by
          rw [List.filter_append, List.filter_cons_of_pos (by simpa using hne), List.filter_nil]
        have hlabel : walk'.nextPath part = label (parts.filter (· ≠ []) ++ [part]) := by
          rw [label_concat, ← hpath]
          rfl
        rw [hfilter, hpaths, hnext, hlabel]
        rw [hlabel] at hentry
        exact ⟨rfl, habove.entry hentry⟩

/-- A relative path is always resolved, and the response is as documented if and only
if no component is `.`, unless it is the only one, and every `..` comes first. -/
theorem resolveFromLocal_documented_iff (hdense : E.sparse = false) (hs : Reachable E holders s)
    {path : GoString} (hplain : Plain path) {startNode : Option BlobAddr}
    (hstart : ∀ addr, startNode = some addr → Cached s addr) :
    ∃ response t, resolveFromLocal E path startNode s = (.ok response, t) ∧
      ((∃ last, Documented E s (startNode.getD s.rootAddr) (components path) response.paths last) ↔
        components path = [['.']] ∨ Settled (components path)) := by
  have hinv := hs.inv hdense
  have hcached : Cached s (startNode.getD s.rootAddr) := by
    cases startNode with
    | none => exact hinv.root_ready.cached
    | some addr => exact hstart addr rfl
  have hrel : isRooted (trimRight path) = false := by
    rw [hplain.trimRight_eq, hplain.isRooted_eq]
  obtain ⟨response, t, hrun, -, -, hresolved⟩ :=
    exists_run_of_wp (resolveFromLocal_cached hinv.sound hdense hrel hcached)
  refine ⟨response, t, hrun, ?_⟩
  obtain ⟨metadata, walk, hmetadata, hpaths, hfollowed⟩ := hresolved.walked
  obtain ⟨-, hdescribed⟩ := hfollowed.described hmetadata
  rw [← components, components_trimRight, ← hpaths] at hdescribed
  rw [← labels_iff (names_components path)]
  constructor
  · rintro ⟨last, hdocumented⟩ above habove
    by_cases hne : above = []
    · rw [hne]
      rfl
    · exact hdescribed.labelled_eq hdocumented above habove hne
  · intro hlabels
    exact ⟨_, hdescribed.congr fun above habove _ => hlabels above habove⟩

/-- The file is found, under its path. -/
theorem resolveFromLocal_documented_iff_file :
    ∃ response t last, resolveFromLocal Table.smallEnv "a".toList none Table.smallVolume =
        (.ok response, t) ∧
      Documented Table.smallEnv Table.smallVolume Table.smallVolume.rootAddr ["a".toList]
        response.paths last := by
  have hplain : Plain "a".toList := by decide
  have hstart : ∀ addr, (none : Option BlobAddr) = some addr → Cached Table.smallVolume addr :=
    nofun
  obtain ⟨response, t, hrun, hiff⟩ := resolveFromLocal_documented_iff rfl
    Table.reachable_smallVolume hplain hstart
  have hsettled : Settled (components "a".toList) := settled_of_no_dots (by decide)
  obtain ⟨last, hdocumented⟩ := hiff.mpr (.inr hsettled)
  exact ⟨response, t, last, hrun, hdocumented⟩

/-- The entry `a` of the directory `.` is labelled as the entry `a` of the root. -/
theorem resolveFromLocal_dot_mislabelled :
    ∃ s response t, Reachable Table.smallEnv 0 s ∧
      resolveFromLocal Table.smallEnv "./a".toList none s = (.ok response, t) ∧
      ¬ ∃ last, Documented Table.smallEnv s s.rootAddr [".".toList, "a".toList] response.paths
        last := by
  have hlabels : (resolveFromLocal Table.smallEnv "./a".toList none Table.smallVolume).1.toOption.map
      (fun response => response.paths.getLast?.map (·.path)) = some (some "a".toList) := by
    decide +kernel
  rcases hrun : resolveFromLocal Table.smallEnv "./a".toList none Table.smallVolume with
    ⟨_ | response, t⟩
  · rw [hrun] at hlabels
    cases hlabels
  · rw [hrun] at hlabels
    refine ⟨_, response, t, Table.reachable_smallVolume, hrun, ?_⟩
    rintro ⟨last, hdocumented⟩
    have hlast := hdocumented.getLast?_path (by simp)
    have hlabel : response.paths.getLast?.map (·.path) = some "a".toList := Option.some.inj hlabels
    rw [hlabel] at hlast
    exact absurd hlast (by decide)

end Grits
