import Grits.Library.FirstByKey
import Grits.NameStore.Labels

/-!
# Lookups of several paths

A lookup of several paths merges the entries of its paths by their labels.  It
returns what lookups of the single paths return if and only if paths under the
same label lead to the same place.
-/

namespace Grits

open Prog SlashPath FirstByKey

variable {E : Env} {holders : Multiset BlobAddr} {s t : NameStore}

/-! ## The entries of a path -/

/-- Where a path leads in a tree. -/
inductive Place where
  | node (addr : BlobAddr)
  | notFound
  | notDir

namespace Encoding

variable (E : Encoding)

/-- Where the path leads in the tree at `root`. -/
noncomputable def place (root : BlobAddr) (parts : List GoString) : Place :=
  match E.walk (some root) parts with
  | some addr => .node addr
  | none =>
      match E.walk (some root) parts.dropLast with
      | none => .notFound
      | some parent =>
          match E.childrenAt parent with
          | none => .notDir
          | some _ => .notFound

/-- The entry of a place. -/
noncomputable def placeEntry (path : GoString) : Place → PathNodePair
  | .node addr => E.entryAt path addr
  | .notFound => .failed path .notFound
  | .notDir => .failed path .notDir

/-- The entry for these components. -/
noncomputable def entryOf (root : BlobAddr) (parts : List GoString) : PathNodePair :=
  E.placeEntry (label parts) (E.place root parts)

/-- The entries of a path, from the root down. -/
noncomputable def entriesOf (root : BlobAddr) (parts : List GoString) : List PathNodePair :=
  (List.range (parts.length + 1)).map fun i => E.entryOf root (parts.take i)

variable {E}

theorem entryOf_path (root : BlobAddr) (parts : List GoString) :
    (E.entryOf root parts).path = label parts := by
  rw [entryOf]
  cases E.place root parts with
  | node addr => exact entryAt_path _ _
  | notFound => rfl
  | notDir => rfl

theorem entriesOf_concat (root : BlobAddr) (parts : List GoString) (part : GoString) :
    E.entriesOf root (parts ++ [part]) =
      E.entriesOf root parts ++ [E.entryOf root (parts ++ [part])] := by
  rw [entriesOf, List.length_append, List.length_singleton, List.range_succ, List.map_append,
    List.map_singleton, entriesOf]
  congr 1
  · refine List.map_congr_left fun i hi => ?_
    rw [List.mem_range] at hi
    rw [List.take_append_of_le_length (by omega)]
  · rw [List.take_of_length_le (by simp)]

/-- A walk leaves empty components out. -/
theorem foldl_resolvePart_filter (walk : Walk) (parts : List GoString) :
    parts.foldl E.resolvePart walk = (parts.filter (· ≠ [])).foldl E.resolvePart walk := by
  induction parts generalizing walk with
  | nil => rfl
  | cons part parts ih =>
      rw [List.foldl_cons, ih]
      by_cases hpart : part = []
      · rw [hpart, resolvePart_nil, List.filter_cons_of_neg (by simp)]
      · rw [List.filter_cons_of_pos (by simpa using hpart), List.foldl_cons]

theorem foldl_resolvePart_eq (root : BlobAddr) {parts : List GoString}
    (hne : ∀ part ∈ parts, part ≠ []) :
    parts.foldl E.resolvePart (E.walkStart root) =
      ⟨E.entriesOf root parts, E.walk (some root) parts, label parts⟩ := by
  induction parts using List.reverseRecOn with
  | nil => rfl
  | append_singleton parts part ih =>
      have hpart : part ≠ [] := hne part (by simp)
      have hwalk : E.walk (some root) (parts ++ [part]) =
          PathTree.child E.entries (E.walk (some root) parts) part := PathTree.walk_concat ..
      rw [List.foldl_append, ih fun other hother => hne other (List.mem_append_left _ hother),
        List.foldl_cons, List.foldl_nil, entriesOf_concat, entryOf, place, List.dropLast_concat,
        hwalk, label_concat, resolvePart, if_neg hpart]
      cases E.walk (some root) parts with
      | none => rfl
      | some current =>
          simp only [PathTree.child, Option.bind_some, entries]
          cases E.childrenAt current with
          | none => rfl
          | some children =>
              simp only [Option.map_some, Option.bind_some]
              cases children.lookup part with
              | none => rfl
              | some child => rfl

/-- The entries of a resolved path. -/
theorem paths_resolve (root : BlobAddr) (path : GoString) :
    (E.resolve root path).paths = E.entriesOf root (components path) := by
  have hne : ∀ part ∈ components path, part ≠ [] := fun part hpart =>
    (names_components path part hpart).1
  rw [resolve, foldl_resolvePart_filter, ← components, components_trimRight,
    foldl_resolvePart_eq root hne]

end Encoding

/-! ## Batches -/

theorem appendUnseen_eq (paths more : List PathNodePair) :
    appendUnseen paths more = appendNew (·.path) paths more := by
  induction more generalizing paths with
  | nil => rfl
  | cons pair more ih =>
      rw [appendUnseen, appendNew]
      split
      next => exact ih paths
      next => exact ih (paths ++ [pair])

/-- The entries of several paths, merged. -/
noncomputable def Encoding.batch (E : Encoding) (root : BlobAddr) (paths : List GoString) :
    List PathNodePair :=
  appendNew (·.path) [] (paths.map fun path => E.entriesOf root (components path)).flatten

/-- The paths are relative. -/
def Relative (paths : List GoString) : Prop := ∀ path ∈ paths, isRooted (trimRight path) = false

theorem lookupLoop_held {held : Multiset BlobAddr} (hs : Sound E.toEncoding held s)
    (hdense : E.sparse = false) (hheld : HeldTree E.toEncoding s s.rootAddr)
    {paths : List GoString} (hrel : Relative paths) :
    loop (lookupStep E none) [] paths s = (.ok (E.batch s.rootAddr paths), s) := by
  have hstep : ∀ acc, ∀ path ∈ paths, lookupStep E none acc path s =
      (.ok (appendNew (·.path) acc (E.entriesOf s.rootAddr (components path))), s) := by
    intro acc path hpath
    have hresolve : resolveFromLocal E (trimRight path) none s = _ :=
      resolveFromLocal_held hs hdense hheld rfl (by rw [trimRight_trimRight, hrel path hpath])
    rw [lookupStep, bind_run hresolve, Encoding.paths_resolve, components_trimRight,
      appendUnseen_eq]
    rfl
  rw [Encoding.batch, ← foldl_appendNew]
  generalize ([] : List PathNodePair) = acc
  induction paths generalizing acc with
  | nil => rfl
  | cons path paths ih =>
      rw [loop_cons, bind_run (hstep acc path List.mem_cons_self), List.foldl_cons]
      exact ih (fun other hother => hrel other (List.mem_cons_of_mem _ hother))
        (fun acc other hother => hstep acc other (List.mem_cons_of_mem _ hother)) _

/-- A lookup in a volume without callbacks. -/
theorem lookup_held (hdense : E.sparse = false) (h : Inv E.toEncoding holders s)
    {paths : List GoString} (hrel : Relative paths) (principal : PrincipalRef) :
    lookup E [] paths [] principal s =
      (.ok ⟨E.batch s.rootAddr paths, s.serialNumber⟩, s) := by
  have hloop := lookupLoop_held h.sound hdense h.heldTree hrel
  have hbody : (do
      let entries ← loop (lookupStep E none) [] paths
      runLookupCallbacks [] ⟨paths, [], principal⟩ none ⟨entries, s.serialNumber⟩ :
        Op LookupResponse) s = (.ok ⟨E.batch s.rootAddr paths, s.serialNumber⟩, s) := by
    rw [bind_run hloop]
    rfl
  have hreleasing := tryErr_run hbody
  unfold lookup
  rw [bind_run (get_run s)]
  change (releasing E none _) s = _
  rw [releasing, bind_run hreleasing]
  rfl

/-! ## Batches and single lookups -/

/-- A lookup of several paths has all entries that lookups of the single paths
return, each label once, and depends on their order in the order of its entries. -/
def AgreesWithSingle (E : Env) (s : NameStore) (paths : List GoString)
    (principal : PrincipalRef) : Prop :=
  ∃ response, lookup E [] paths [] principal s = (.ok response, s) ∧
    (response.paths.map (·.path)).Nodup ∧
    (∀ path ∈ paths, ∃ single, lookup E [] [path] [] principal s = (.ok single, s) ∧
      ∀ pair ∈ single.paths, pair ∈ response.paths) ∧
    ∀ paths', paths'.Perm paths → ∃ response', lookup E [] paths' [] principal s =
      (.ok response', s) ∧ response'.paths.Perm response.paths

/-- `above` is the first of the paths on the way to `path` that has its label. -/
def FirstLabelled (path : GoString) (above : List GoString) : Prop :=
  ∃ i ≤ (components path).length, above = (components path).take i ∧
    ∀ j < i, label ((components path).take j) ≠ label above

/-- Paths on the way to requested paths that have one label lead to one place. -/
def LabelsAgree (E : Encoding) (root : BlobAddr) (paths : List GoString) : Prop :=
  ∀ path ∈ paths, ∀ path' ∈ paths, ∀ above above', FirstLabelled path above →
    FirstLabelled path' above' → label above = label above' →
      E.place root above = E.place root above'

theorem firstIn_entriesOf {E : Encoding} {root : BlobAddr} {path : GoString} {pair : PathNodePair} :
    FirstIn (·.path) (E.entriesOf root (components path)) pair ↔
      ∃ above, FirstLabelled path above ∧ pair = E.entryOf root above := by
  rw [Encoding.entriesOf, firstIn_map_range]
  simp only [Encoding.entryOf_path]
  constructor
  · rintro ⟨i, hi, rfl, hfirst⟩
    exact ⟨_, ⟨i, by omega, rfl, hfirst⟩, rfl⟩
  · rintro ⟨above, ⟨i, hi, rfl, hfirst⟩, rfl⟩
    exact ⟨i, by omega, rfl, hfirst⟩

/-- A place that the entry of a path shows: a node of the tree, or none. -/
def Place.Known (E : Encoding) : Place → Prop
  | .node addr => ∃ metadata, E.MetadataAt addr metadata
  | _ => True

theorem place_known (hs : Sound E.toEncoding 0 s) {root : BlobAddr}
    (hheld : HeldTree E.toEncoding s root) (parts : List GoString) :
    (E.place root parts).Known E.toEncoding := by
  rw [Encoding.place]
  cases hwalk : E.walk (some root) parts with
  | some addr =>
      obtain ⟨node, hnode⟩ := (hheld parts addr hwalk).cached
      exact ⟨node.metadata, (hs.nodes addr node hnode).metadata⟩
  | none =>
      simp only
      split
      next => trivial
      next => split <;> trivial

theorem placeEntry_inj {E : Encoding} {path : GoString} {place place' : Place}
    (h : place.Known E) (h' : place'.Known E)
    (heq : E.placeEntry path place = E.placeEntry path place') : place = place' := by
  have hnode : ∀ addr, Place.Known E (.node addr) →
      ∃ metadata, E.placeEntry path (.node addr) = .found path addr metadata :=
    fun addr ⟨metadata, hmetadata⟩ => ⟨metadata, hmetadata.entryAt path⟩
  cases place with
  | node addr =>
      obtain ⟨metadata, hfound⟩ := hnode addr h
      rw [hfound] at heq
      cases place' with
      | node addr' =>
          obtain ⟨metadata', hfound'⟩ := hnode addr' h'
          rw [hfound'] at heq
          exact congrArg Place.node (congrArg PathNodePair.addr heq)
      | notFound => cases congrArg PathNodePair.error heq
      | notDir => cases congrArg PathNodePair.error heq
  | notFound =>
      cases place' with
      | node addr' =>
          obtain ⟨metadata', hfound'⟩ := hnode addr' h'
          rw [hfound'] at heq
          cases congrArg PathNodePair.error heq
      | notFound => rfl
      | notDir => cases congrArg PathNodePair.error heq
  | notDir =>
      cases place' with
      | node addr' =>
          obtain ⟨metadata', hfound'⟩ := hnode addr' h'
          rw [hfound'] at heq
          cases congrArg PathNodePair.error heq
      | notFound => cases congrArg PathNodePair.error heq
      | notDir => rfl

/-- Entries of a loaded tree are equal exactly if they have one label and place. -/
theorem entryOf_eq_iff (hs : Sound E.toEncoding 0 s) {root : BlobAddr}
    (hheld : HeldTree E.toEncoding s root) {above above' : List GoString} :
    E.entryOf root above = E.entryOf root above' ↔
      label above = label above' ∧ E.place root above = E.place root above' := by
  constructor
  · intro heq
    have hlabel : label above = label above' := by
      rw [← Encoding.entryOf_path root above, heq, Encoding.entryOf_path]
    refine ⟨hlabel, ?_⟩
    rw [Encoding.entryOf, Encoding.entryOf, hlabel] at heq
    exact placeEntry_inj (place_known hs hheld above) (place_known hs hheld above') heq
  · rintro ⟨hlabel, hplace⟩
    rw [Encoding.entryOf, Encoding.entryOf, hlabel, hplace]

theorem consistent_entriesOf (hs : Sound E.toEncoding 0 s) {root : BlobAddr}
    (hheld : HeldTree E.toEncoding s root) {paths : List GoString} :
    Consistent (·.path) (paths.map fun path => E.entriesOf root (components path)) ↔
      LabelsAgree E.toEncoding root paths := by
  constructor
  · intro h path hpath path' hpath' above above' habove habove' hlabel
    refine ((entryOf_eq_iff hs hheld).mp (h _ (List.mem_map_of_mem hpath) _
      (List.mem_map_of_mem hpath') _ _ (firstIn_entriesOf.mpr ⟨above, habove, rfl⟩)
      (firstIn_entriesOf.mpr ⟨above', habove', rfl⟩) ?_)).2
    change (E.entryOf root above).path = (E.entryOf root above').path
    rw [Encoding.entryOf_path, Encoding.entryOf_path, hlabel]
  · intro h entries hentries entries' hentries' pair pair' hpair hpair' hkey
    obtain ⟨path, hpath, rfl⟩ := List.mem_map.mp hentries
    obtain ⟨path', hpath', rfl⟩ := List.mem_map.mp hentries'
    obtain ⟨above, habove, rfl⟩ := firstIn_entriesOf.mp hpair
    obtain ⟨above', habove', rfl⟩ := firstIn_entriesOf.mp hpair'
    change (E.entryOf root above).path = (E.entryOf root above').path at hkey
    rw [Encoding.entryOf_path, Encoding.entryOf_path] at hkey
    exact (entryOf_eq_iff hs hheld).mpr
      ⟨hkey, h path hpath path' hpath' above above' habove habove' hkey⟩

theorem relative_singleton {paths : List GoString} (h : Relative paths) {path : GoString}
    (hpath : path ∈ paths) : Relative [path] := by
  intro other hother
  rw [List.mem_singleton.mp hother]
  exact h path hpath

/-- A lookup of several paths agrees with single lookups if and only if paths under one
label lead to one place. -/
theorem lookup_agrees_iff (hdense : E.sparse = false) (hs : Reachable E holders s)
    {paths : List GoString} (hrel : Relative paths) (principal : PrincipalRef) :
    AgreesWithSingle E s paths principal ↔ LabelsAgree E.toEncoding s.rootAddr paths := by
  have hinv := hs.inv hdense
  rw [← consistent_entriesOf hinv.sound hinv.heldTree, ← merged_iff]
  have hsingle : ∀ path ∈ paths, ∀ pair, pair ∈ E.batch s.rootAddr [path] ↔
      FirstIn (·.path) (E.entriesOf s.rootAddr (components path)) pair := by
    intro path _ pair
    rw [Encoding.batch, List.map_singleton, List.flatten_singleton, mem_appendNew_nil]
  constructor
  · rintro ⟨response, hrun, -, hsingles, -⟩
    rw [lookup_held hdense hinv hrel] at hrun
    cases hrun
    intro entries hentries pair hpair
    obtain ⟨path, hpath, rfl⟩ := List.mem_map.mp hentries
    obtain ⟨single, hrun, hmem⟩ := hsingles path hpath
    rw [lookup_held hdense hinv (relative_singleton hrel hpath)] at hrun
    cases hrun
    exact hmem pair ((hsingle path hpath pair).mpr hpair)
  · intro hmerged
    refine ⟨_, lookup_held hdense hinv hrel principal, nodup_merged _ _, ?_, ?_⟩
    · intro path hpath
      refine ⟨_, lookup_held hdense hinv (relative_singleton hrel hpath) principal, ?_⟩
      intro pair hpair
      rw [hsingle path hpath] at hpair
      exact hmerged _ (List.mem_map_of_mem hpath) pair hpair
    · intro paths' hperm
      have hrel' : Relative paths' := fun path hpath => hrel path (hperm.mem_iff.mp hpath)
      refine ⟨_, lookup_held hdense hinv hrel' principal, ?_⟩
      exact (merged_iff.mp hmerged).perm (hperm.map _)

/-- Nothing is merged in the entries of settled components. -/
theorem batch_of_settled {E : Encoding} {root : BlobAddr} {path : GoString}
    (h : Settled (components path)) :
    E.batch root [path] = E.entriesOf root (components path) := by
  have hnames : ∀ i, Names ((components path).take i) := fun i part hpart =>
    names_components path part (List.mem_of_mem_take hpart)
  have hlabel : ∀ i, label ((components path).take i) = join ((components path).take i) := by
    intro i
    rw [← List.take_append_drop i (components path)] at h
    exact label_of_settled (hnames i) h.of_append
  rw [Encoding.batch, List.map_singleton, List.flatten_singleton, appendNew_of_nodup,
    List.nil_append]
  rw [List.nil_append, Encoding.entriesOf, List.map_map]
  refine List.Nodup.map_on ?_ List.nodup_range
  intro i hi j hj heq
  simp only [Function.comp_apply, Encoding.entryOf_path, hlabel] at heq
  have htake : (components path).take i = (components path).take j := by
    rw [← components_join (hnames i), heq, components_join (hnames j)]
  have hlength := congrArg List.length htake
  rw [List.length_take, List.length_take] at hlength
  rw [List.mem_range] at hi hj
  omega

theorem getLast?_entriesOf {E : Encoding} (root : BlobAddr) (parts : List GoString) :
    (E.entriesOf root parts).getLast? = some (E.entryOf root parts) := by
  rw [Encoding.entriesOf, List.range_succ, List.map_append, List.map_singleton,
    List.getLast?_concat, List.take_length]

/-- The labels of settled components tell them apart. -/
theorem labelsAgree_of_settled {E : Encoding} {root : BlobAddr} {paths : List GoString}
    (h : ∀ path ∈ paths, Settled (components path)) : LabelsAgree E root paths := by
  have hlabel : ∀ path ∈ paths, ∀ above, FirstLabelled path above →
      Names above ∧ label above = join above := by
    rintro path hpath above ⟨i, -, rfl, -⟩
    have hnames : Names ((components path).take i) := fun part hpart =>
      names_components path part (List.mem_of_mem_take hpart)
    have hsettled := h path hpath
    rw [← List.take_append_drop i (components path)] at hsettled
    exact ⟨hnames, label_of_settled hnames hsettled.of_append⟩
  intro path hpath path' hpath' above above' habove habove' heq
  obtain ⟨hnames, hjoin⟩ := hlabel path hpath above habove
  obtain ⟨hnames', hjoin'⟩ := hlabel path' hpath' above' habove'
  have hsame : above = above' := by
    rw [← components_join hnames, ← hjoin, heq, hjoin', components_join hnames']
  rw [hsame]

/-- A lookup of the root and the file, each also alone. -/
theorem lookup_agrees_iff_file :
    AgreesWithSingle Table.smallEnv Table.smallVolume ["a".toList, []] .backend := by
  have hrel : Relative ["a".toList, []] := by
    intro path hpath
    rcases List.mem_cons.mp hpath with rfl | hpath
    · decide
    · rw [List.mem_singleton.mp hpath]
      decide
  refine (lookup_agrees_iff rfl Table.reachable_smallVolume hrel .backend).mpr ?_
  refine labelsAgree_of_settled fun path hpath => settled_of_no_dots ?_
  rcases List.mem_cons.mp hpath with rfl | hpath
  · decide
  · rw [List.mem_singleton.mp hpath]
    decide

/-- Below the missing directory `.` there is no file `a`; the file `a` of the root,
asked for after it, is reported missing with it. -/
theorem lookup_dot_hides_file :
    ∃ s paths, Reachable Table.smallEnv 0 s ∧ Relative paths ∧
      ¬ AgreesWithSingle Table.smallEnv s paths .backend := by
  have hbatch : (lookup Table.smallEnv [] ["./a".toList, "a".toList] [] .backend
      Table.smallVolume).1.toOption.map
        (fun response => response.paths.all fun pair => pair.path = [] ∨ pair.error ≠ none) =
      some true := by decide +kernel
  have hsingle : (lookup Table.smallEnv [] ["a".toList] [] .backend
      Table.smallVolume).1.toOption.map
        (fun response => response.paths.any fun pair => pair.path ≠ [] ∧ pair.error = none) =
      some true := by decide +kernel
  have hrel : Relative ["./a".toList, "a".toList] := by
    intro path hpath
    rcases List.mem_cons.mp hpath with rfl | hpath
    · decide
    · rw [List.mem_singleton.mp hpath]
      decide
  refine ⟨_, _, Table.reachable_smallVolume, hrel, ?_⟩
  rintro ⟨response, hrun, -, hsingles, -⟩
  obtain ⟨single, hrun', hmem⟩ := hsingles "a".toList (by simp)
  rw [hrun] at hbatch
  rw [hrun'] at hsingle
  have hall := Option.some.inj hbatch
  obtain ⟨pair, hpair, hfound⟩ := List.any_eq_true.mp (Option.some.inj hsingle)
  have hfailed := List.all_eq_true.mp hall pair (hmem pair hpair)
  rw [decide_eq_true_eq] at hfound hfailed
  rcases hfailed with hnil | herror
  · exact hfound.1 hnil
  · exact herror hfound.2

end Grits
