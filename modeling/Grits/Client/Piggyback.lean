import Grits.Client.SlowLookup

/-!
# Mini-roots in a lookup

`_slowLookup` asks for its path and for the mini-roots in one request.  The status of the
reply is that of its last entry, which is the path's own only if no mini-root adds
another one.
-/

namespace Grits

open Prog SlashPath FirstByKey

variable {E : Env} {holders held : Multiset BlobAddr} {s : NameStore} {m : AuthModule}

/-! ## Labels of labels -/

/-- A label is a path whose components keep their labels. -/
theorem exists_join_label {parts : List GoString} (hnames : Names parts) :
    ∃ kept, Names kept ∧ (kept = [['.']] ∨ Settled kept) ∧ label parts = join kept := by
  induction parts using List.reverseRecOn with
  | nil => exact ⟨[], names_nil, .inr (settled_of_no_dots (by simp)), rfl⟩
  | append_singleton parts part ih =>
      obtain ⟨kept, hkept, hsettled, hlabel⟩ := ih hnames.of_concat
      have hpart : part ≠ [] ∧ '/' ∉ part := hnames part (by simp)
      rw [label_concat, hlabel]
      by_cases hnil : kept = []
      · subst hnil
        have hsingle : Names [part] := fun other hother => by
          rwa [List.mem_singleton.mp hother]
        refine ⟨[part], hsingle, ?_, (join_singleton part).symm⟩
        by_cases hdot : part = ['.']
        · exact .inl (by rw [hdot])
        · by_cases hup : part = ['.', '.']
          · exact .inr ⟨[part], [], rfl, by simpa using hup, fun _ h => absurd h List.not_mem_nil⟩
          · exact .inr (settled_of_no_dots (by simpa using ⟨hdot, hup⟩))
      · rw [nextLabel_join hkept hnil]
        exact exists_clean_join (hkept.concat hpart.1 hpart.2) (by simp)

theorem label_components_label {parts : List GoString} (hnames : Names parts) :
    label (components (label parts)) = label parts := by
  obtain ⟨kept, hkept, hsettled, hlabel⟩ := exists_join_label hnames
  rw [hlabel, components_join hkept]
  exact (labels_iff hkept).mpr hsettled kept (List.prefix_refl _)

/-- Where a path is its own label, so are the paths on the way to it. -/
theorem label_take {path : GoString} (h : label (components path) = path) (i : ℕ) :
    label ((components path).take i) = join ((components path).take i) := by
  have hnames := names_components path
  obtain ⟨kept, hkept, hsettled, hlabel⟩ := exists_join_label hnames
  have hcomponents : components path = kept := by
    rw [← components_join hkept, ← hlabel, h]
  rw [hcomponents]
  exact (labels_iff hkept).mpr hsettled _ (List.take_prefix _ _)

/-! ## The places of an answer -/

/-- The places on the way to a path, from the root down. -/
def onTheWay (path : GoString) : List (List GoString) :=
  (List.range ((components path).length + 1)).map fun i => (components path).take i

/-- The places that an answer has entries for. -/
def places (paths : List GoString) : List (List GoString) :=
  appendNew label [] (paths.map onTheWay).flatten

/-- The place of the last entry. -/
def lastPlace (paths : List GoString) : List GoString := (places paths).getLastD []

theorem batch_eq_map_places (root : BlobAddr) (paths : List GoString) :
    E.batch root paths = (places paths).map (E.entryOf root) := by
  have hlabel : label = fun parts => (E.entryOf root parts).path := by
    funext parts
    rw [Encoding.entryOf_path]
  have hentries : (paths.map fun path => E.entriesOf root (components path)).flatten =
      (paths.map onTheWay).flatten.map (E.entryOf root) := by
    rw [List.map_flatten, List.map_map]
    congr 1
    refine List.map_congr_left fun path _ => ?_
    rw [Function.comp_apply, Encoding.entriesOf, onTheWay, List.map_map]
    rfl
  rw [Encoding.batch, hentries, places, hlabel]
  exact appendNew_map (·.path) (E.entryOf root) [] _

theorem names_of_mem_places {paths : List GoString} {parts : List GoString}
    (h : parts ∈ places paths) : Names parts := by
  have hmem := (mem_appendNew_nil.mp h).mem
  obtain ⟨way, hway, hparts⟩ := List.mem_flatten.mp hmem
  obtain ⟨path, -, rfl⟩ := List.mem_map.mp hway
  obtain ⟨i, -, rfl⟩ := List.mem_map.mp hparts
  exact fun part hpart => names_components path part (List.mem_of_mem_take hpart)

theorem places_ne_nil {paths : List GoString} (h : paths ≠ []) : places paths ≠ [] := by
  obtain ⟨path, rest, rfl⟩ := List.exists_cons_of_ne_nil h
  intro hnil
  have hmem : (components path).take 0 ∈ ((path :: rest).map onTheWay).flatten := by
    refine List.mem_flatten.mpr ⟨onTheWay path, by simp, ?_⟩
    exact List.mem_map.mpr ⟨0, by simp, rfl⟩
  obtain ⟨parts, hparts, -⟩ := exists_firstIn label hmem
  have hplaces := mem_appendNew_nil.mpr hparts
  rw [← places, hnil] at hplaces
  exact List.not_mem_nil hplaces

/-- The entries of the first path come first. -/
theorem exists_places_cons (path : GoString) (rest : List GoString) :
    ∃ new, places (path :: rest) = places [path] ++ new := by
  have hflatten : ((path :: rest).map onTheWay).flatten =
      ([path].map onTheWay).flatten ++ (rest.map onTheWay).flatten := by simp
  obtain ⟨new, hnew, -⟩ := exists_appendNew label (places [path])
    (rest.map onTheWay).flatten
  refine ⟨new, ?_⟩
  rw [← hnew, places, places, hflatten, appendNew_append]

/-- A path that is its own label has an entry for every place on the way to it. -/
theorem places_singleton {path : GoString} (h : label (components path) = path) :
    places [path] = onTheWay path := by
  have hnodup : ((([] : List (List GoString)) ++ onTheWay path).map label).Nodup := by
    rw [List.nil_append, onTheWay, List.map_map]
    refine List.Nodup.map_on ?_ List.nodup_range
    intro i hi j hj heq
    have htake : ∀ k, Names ((components path).take k) := fun k part hpart =>
      names_components path part (List.mem_of_mem_take hpart)
    rw [Function.comp_apply, Function.comp_apply, label_take h, label_take h] at heq
    have hparts := congrArg components heq
    rw [components_join (htake i), components_join (htake j)] at hparts
    have hlength := congrArg List.length hparts
    rw [List.length_take, List.length_take] at hlength
    rw [List.mem_range] at hi hj
    omega
  rw [places, List.map_singleton, List.flatten_singleton]
  exact appendNew_of_nodup label hnodup

theorem lastPlace_singleton {path : GoString} (h : label (components path) = path) :
    lastPlace [path] = components path := by
  rw [lastPlace, places_singleton h, onTheWay, List.range_succ, List.map_append,
    List.map_singleton, List.getLastD_concat, List.take_length]

/-- The entry under the label of the path is its own. -/
theorem find?_places (path : GoString) (rest : List GoString) :
    (places (path :: rest)).find? (fun parts => label parts == path) =
      if label (components path) = path then some (components path) else none := by
  split
  next hlabel =>
    have hmem : components path ∈ places (path :: rest) := by
      obtain ⟨new, hnew⟩ := exists_places_cons path rest
      rw [hnew, places_singleton hlabel]
      refine List.mem_append_left _ (List.mem_map.mpr ⟨(components path).length, ?_, ?_⟩)
      · exact List.mem_range.mpr (Nat.lt_succ_self _)
      · exact List.take_length
    have hsome : ((places (path :: rest)).find? fun parts => label parts == path).isSome := by
      rw [List.find?_isSome]
      exact ⟨_, hmem, beq_iff_eq.mpr hlabel⟩
    obtain ⟨parts, hparts⟩ := Option.isSome_iff_exists.mp hsome
    have hfound := List.find?_some hparts
    rw [beq_iff_eq] at hfound
    have hfirst := mem_appendNew_nil.mp (List.mem_of_find?_eq_some hparts)
    rw [hparts, hfirst.unique (mem_appendNew_nil.mp hmem) (hfound.trans hlabel.symm)]
  next hlabel =>
    rw [List.find?_eq_none]
    intro parts hparts heq
    rw [beq_iff_eq] at heq
    have hself := label_components_label (names_of_mem_places hparts)
    rw [heq] at hself
    exact hlabel hself

/-! ## The reply -/

/-- The error the server has for a place. -/
noncomputable def answerAt (policy : Policy) (E : Encoding) (root : BlobAddr)
    (principal : PrincipalRef) (parts : List GoString) : Option LookupError :=
  (policy.prune principal (E.entryOf root parts)).error

/-- The reply to an accepted request. -/
noncomputable def answer (policy : Policy) (E : Encoding) (root : BlobAddr)
    (principal : PrincipalRef) (serialNumber : ℤ) (paths : List GoString) : LookupReply :=
  .entries (leafStatus (answerAt policy E root principal (lastPlace paths)))
    ⟨(places paths).map fun parts => policy.prune principal (E.entryOf root parts), serialNumber⟩

theorem isRooted_of_valid {path : GoString} (h : validRelativePath path = true) :
    isRooted (trimRight path) = false := by
  rw [validRelativePath, Bool.or_eq_true, beq_iff_eq] at h
  rcases h with rfl | h
  · rfl
  · refine isRooted_trimRight ?_
    cases path with
    | nil => rfl
    | cons c rest =>
        rw [Bool.and_eq_true, Bool.and_eq_true, Bool.and_eq_true] at h
        have hfirst := h.1.1.2
        rw [List.head?_cons, bne_iff_ne, Ne, Option.some.injEq] at hfirst
        simp [isRooted, hfirst]

theorem relative_of_accepts {volume : GoString} {paths : List GoString}
    (h : acceptsLookup volume paths = true) : Relative paths := by
  rw [acceptsLookup, Bool.and_eq_true] at h
  exact fun path hpath => isRooted_of_valid (List.all_eq_true.mp h.2 path hpath)

/-- While a loaded node is held its content can be asked for, and the state is afterwards
what it was. -/
theorem heldEntry_run (hdense : E.sparse = false) (hs : Sound E.toEncoding held s)
    {addr : BlobAddr} {node : FileNode} (hnode : s.fileCache.lookup addr = some node)
    {rest : Op Unit} (hrest : rest (holding s addr node) = (.ok (), holding s addr node)) :
    getFileNode E addr s = (.ok (), holding s addr node) ∧
      releasing E (some addr) (do
        let node ← getNode addr
        if node.metadata.type = .directory then fatalIfBlobMissing (exportedBlob addr)
        else pure ()
        rest) (holding s addr node) = (.ok (), s) := by
  obtain ⟨-, hsound, -, hrelease⟩ := holding_spec hs hdense hnode
  have hheld := holding_lookup s addr node
  constructor
  · exact getFileNode_held hs hdense hnode
  · refine releasing_run (t := holding s addr node) ?_ hrelease
    rw [bind_run (getNode_run hheld)]
    by_cases hdir : node.metadata.type = .directory
    · rw [if_pos hdir, bind_run (fatalIfBlobMissing_run
        (exportedBlob_cached hsound ⟨_, hheld⟩))]
      exact hrest
    · rw [if_neg hdir]
      exact hrest

/-- Found entries whose nodes are loaded are served without a change. -/
theorem serveEntries_run (hdense : E.sparse = false) (pairs : List PathNodePair)
    (hs : Sound E.toEncoding held s)
    (hcached : ∀ pair ∈ pairs, pair.error = none → Cached s pair.addr) :
    serveEntries E pairs s = (.ok (), s) := by
  induction pairs generalizing s with
  | nil => rfl
  | cons pair rest ih =>
      have hrest := fun other hother => hcached other (List.mem_cons_of_mem _ hother)
      rw [serveEntries]
      split
      next => exact ih hs hrest
      next hfound =>
        rw [not_or, not_not] at hfound
        obtain ⟨node, hnode⟩ := hcached pair List.mem_cons_self hfound.1
        obtain ⟨-, hsound, hquiet, -⟩ := holding_spec hs hdense hnode
        have hserve := ih hsound fun other hother herror =>
          (hrest other hother herror).quiet hquiet
        obtain ⟨hget, hrun⟩ := heldEntry_run hdense hs hnode hserve
        rw [bind_run hget]
        exact hrun

theorem cached_of_found (h : Inv E.toEncoding holders s) {policy : Policy}
    {principal : PrincipalRef} {parts : List GoString}
    (hfound : (policy.prune principal (E.entryOf s.rootAddr parts)).error = none) :
    Cached s (policy.prune principal (E.entryOf s.rootAddr parts)).addr := by
  unfold Policy.prune at hfound ⊢
  split at hfound
  next hpermitted =>
    rw [if_pos hpermitted]
    rw [Encoding.entryOf] at hfound ⊢
    cases hplace : E.place s.rootAddr parts with
    | notFound =>
        rw [hplace] at hfound
        cases hfound
    | notDir =>
        rw [hplace] at hfound
        cases hfound
    | node addr =>
        rw [hplace] at hfound
        have hwalk : E.walk (some s.rootAddr) parts = some addr := by
          rw [Encoding.place] at hplace
          split at hplace
          next found hwalk =>
            cases hplace
            exact hwalk
          next =>
            split at hplace
            next => cases hplace
            next => split at hplace <;> cases hplace
        rw [Encoding.placeEntry, Encoding.entryAt] at hfound ⊢
        split at hfound
        next metadata hmetadata => exact (h.heldTree parts addr hwalk).cached
        next => cases hfound
  next => cases hfound

theorem handleLookup_accepted (hdense : E.sparse = false) (h : Inv E.toEncoding holders s)
    {volume : GoString} {paths : List GoString} (haccepts : acceptsLookup volume paths = true)
    (principal : PrincipalRef) :
    handleLookup E [makeLookupCallback m E] volume paths principal s =
      (.ok (answer (m.policyAt E.toEncoding s.rootAddr) E.toEncoding s.rootAddr principal
        s.serialNumber paths), s) := by
  have hne : paths ≠ [] := by
    rintro rfl
    simp [acceptsLookup] at haccepts
  have hlookup := lookup_auth_held (m := m) hdense h (relative_of_accepts haccepts) principal
  rw [batch_eq_map_places, List.map_map] at hlookup
  have hserve : serveEntries E ((places paths).map ((m.policyAt E.toEncoding s.rootAddr).prune
      principal ∘ E.entryOf s.rootAddr)) s = (.ok (), s) := by
    refine serveEntries_run hdense _ h.sound fun pair hpair hfound => ?_
    obtain ⟨parts, -, rfl⟩ := List.mem_map.mp hpair
    exact cached_of_found h hfound
  rw [handleLookup, haccepts, if_neg (by simp), bind_run (tryErr_run hlookup)]
  simp only
  rw [bind_run (tryErr_run hserve)]
  simp only [pure_run, answer, LookupResponse.leaf, List.getLast?_map]
  have hlast : (places paths).getLast? = some (lastPlace paths) := by
    rw [lastPlace, List.getLastD_eq_getLast?, List.getLast?_eq_some_getLast (places_ne_nil hne)]
    rfl
  rw [hlast]
  rfl

/-! ## The outcome -/

/-- What an outcome says of the path asked for. -/
def LookupOutcome.result : LookupOutcome → LookupOutcome
  | .accessDenied _ => .accessDenied none
  | outcome => outcome

/-- `_slowLookup` ends in the same way with these mini-roots as without any. -/
def SameOutcome (E : Env) (callbacks : List LookupCallback) (s : NameStore) (volume : GoString)
    (principal : PrincipalRef) (now : ℤ) (miniRoots : List (GoString × MiniRoot))
    (path : GoString) : Prop :=
  ∃ outcome alone, slowLookup E callbacks volume principal now miniRoots path s = (.ok outcome, s) ∧
    slowLookup E callbacks volume principal now [] path s = (.ok alone, s) ∧
    outcome.result = alone.result

/-- The reply to the paths says of the first of them what a reply to it alone says. -/
def Unmasked (policy : Policy) (E : Encoding) (root : BlobAddr) (principal : PrincipalRef)
    (volume path : GoString) (paths : List GoString) : Prop :=
  let error := fun asked => answerAt policy E root principal (lastPlace asked)
  acceptsLookup volume [path] = true →
    if acceptsLookup volume paths = true then
      (error paths = some .accessDenied → error [path] = some .accessDenied) ∧
        if label (components path) = path then
          error paths = some .notFound → error [path] = some .notFound
        else error [path] = some .accessDenied → error paths = some .accessDenied
    else if label (components path) = path then error [path] = some .notFound
    else error [path] ≠ some .accessDenied

/-- The outcome under the status that a last entry gives, if the path's own entry says
`own`. -/
def statusOutcome (own : LookupOutcome) : Option LookupError → LookupOutcome
  | some .notFound => .notFound
  | some .accessDenied => .accessDenied none
  | _ => own

/-- What the path's own entry says. -/
noncomputable def ownOutcome (policy : Policy) (E : Encoding) (root : BlobAddr)
    (principal : PrincipalRef) (path : GoString) : LookupOutcome :=
  (entryOutcome (if label (components path) = path then
    some (policy.prune principal (E.entryOf root (components path))) else none)).result

theorem readReply_answer (policy : Policy) (E : Encoding) (root : BlobAddr)
    (principal : PrincipalRef) (serialNumber : ℤ) (path : GoString) (rest : List GoString) :
    (readReply path (answer policy E root principal serialNumber (path :: rest))).result =
      statusOutcome (ownOutcome policy E root principal path)
        (answerAt policy E root principal (lastPlace (path :: rest))) := by
  have hpath : (fun parts => (policy.prune principal (E.entryOf root parts)).path) = label := by
    funext parts
    rw [← Encoding.entryOf_path (E := E) root parts, Policy.prune]
    split
    next => rfl
    next => rfl
  have hne : ((places (path :: rest)).map fun parts =>
      policy.prune principal (E.entryOf root parts)) ≠ [] := by
    rw [Ne, List.map_eq_nil_iff]
    exact places_ne_nil (List.cons_ne_nil _ _)
  have hfind : ((places (path :: rest)).map fun parts =>
      policy.prune principal (E.entryOf root parts)).find? (fun entry => entry.path == path) =
      if label (components path) = path then
        some (policy.prune principal (E.entryOf root (components path))) else none := by
    have hkey : ((fun entry : PathNodePair => entry.path == path) ∘ fun parts =>
        policy.prune principal (E.entryOf root parts)) = fun parts => label parts == path := by
      funext parts
      rw [Function.comp_apply, ← congrFun hpath parts]
    rw [List.find?_map, hkey, find?_places]
    split
    next => rfl
    next => rfl
  have hown : (entryOutcome ((((places (path :: rest)).map fun parts =>
      policy.prune principal (E.entryOf root parts)).find?
        fun entry => entry.path == path))).result =
      ownOutcome policy E root principal path := by
    rw [hfind, ownOutcome]
  -- any other status leaves it to the entry
  have hentry : ∀ status, status = 200 ∨ status = 207 →
      (readReply path (.entries status ⟨(places (path :: rest)).map fun parts =>
        policy.prune principal (E.entryOf root parts), serialNumber⟩)).result =
      ownOutcome policy E root principal path := by
    rintro status (rfl | rfl)
    · rw [readReply, if_neg (by decide), if_neg (by decide), if_neg hne]
      exact hown
    · rw [readReply, if_neg (by decide), if_neg (by decide), if_neg hne]
      exact hown
  rw [answer]
  cases answerAt policy E root principal (lastPlace (path :: rest)) with
  | none => exact hentry _ (.inl rfl)
  | some error =>
      cases error with
      | notFound => rfl
      | accessDenied => rfl
      | notDir => exact hentry _ (.inr rfl)
      | internal => exact hentry _ (.inr rfl)

/-! ## Requests that are accepted -/

theorem utf8Length_append (s t : GoString) : utf8Length (s ++ t) = utf8Length s + utf8Length t := by
  rw [utf8Length, List.map_append, List.sum_append]
  rfl

theorem utf8Length_between {s t : GoString} (h : utf8Length s ≤ utf8Length t)
    (front back : GoString) :
    utf8Length (front ++ s ++ back) ≤ utf8Length (front ++ t ++ back) := by
  simp only [utf8Length_append]
  omega

/-- A request for one of the paths is accepted if the whole request is. -/
theorem acceptsLookup_of_cons {volume path : GoString} {rest : List GoString}
    (h : acceptsLookup volume (path :: rest) = true) : acceptsLookup volume [path] = true := by
  rw [acceptsLookup, Bool.and_eq_true, Bool.and_eq_true, decide_eq_true_eq, List.all_cons,
    Bool.and_eq_true] at h
  obtain ⟨⟨hlength, -⟩, hpath, -⟩ := h
  have helements : utf8Length (jsonElements [jsonString path]) ≤
      utf8Length (jsonElements ((path :: rest).map jsonString)) := by
    cases rest with
    | nil => exact le_rfl
    | cons next rest =>
        have hcons : jsonElements ((path :: next :: rest).map jsonString) =
            jsonElements [jsonString path] ++
              (',' :: jsonElements ((next :: rest).map jsonString)) := by
          simp [jsonElements, List.intercalate]
        rw [hcons, utf8Length_append]
        exact Nat.le_add_right _ _
  have hbody : utf8Length (lookupBody volume [path]) ≤
      utf8Length (lookupBody volume (path :: rest)) := by
    exact utf8Length_between helements _ _
  rw [acceptsLookup, Bool.and_eq_true, Bool.and_eq_true, decide_eq_true_eq, List.all_cons,
    Bool.and_eq_true]
  exact ⟨⟨hbody.trans hlength, rfl⟩, hpath, rfl⟩

theorem slowLookup_accepted (hdense : E.sparse = false) (h : Inv E.toEncoding holders s)
    {volume path : GoString} {now : ℤ} {miniRoots : List (GoString × MiniRoot)}
    (haccepts : acceptsLookup volume (slowPaths now miniRoots path) = true)
    (principal : PrincipalRef) :
    ∃ outcome, slowLookup E [makeLookupCallback m E] volume principal now miniRoots path s =
        (.ok outcome, s) ∧
      outcome.result =
        statusOutcome (ownOutcome (m.policyAt E.toEncoding s.rootAddr) E.toEncoding s.rootAddr
            principal path)
          (answerAt (m.policyAt E.toEncoding s.rootAddr) E.toEncoding s.rootAddr principal
            (lastPlace (slowPaths now miniRoots path))) := by
  have hreply := handleLookup_accepted (m := m) hdense h haccepts principal
  refine ⟨_, (bind_run hreply).trans rfl, ?_⟩
  exact readReply_answer _ _ _ _ _ _ _

theorem slowLookup_refused {callbacks : List LookupCallback} {volume path : GoString} {now : ℤ}
    {miniRoots : List (GoString × MiniRoot)}
    (hrefused : acceptsLookup volume (slowPaths now miniRoots path) ≠ true)
    (principal : PrincipalRef) :
    slowLookup E callbacks volume principal now miniRoots path s = (.ok .notFound, s) := by
  have hfalse : acceptsLookup volume (slowPaths now miniRoots path) = false := by
    simpa using hrefused
  have hreply : handleLookup E callbacks volume (slowPaths now miniRoots path) principal s =
      (.ok (.error 400), s) := by
    rw [handleLookup, if_pos hfalse]
    rfl
  exact (bind_run hreply).trans rfl

section Status

variable {policy : Policy} {E : Encoding} {root : BlobAddr} {principal : PrincipalRef}
  {path : GoString}

/-- Where a path is its own label, the last entry for it alone is its own. -/
theorem ownOutcome_of_label (hlabel : label (components path) = path) :
    ∃ own, own ≠ .notFound ∧ own ≠ .accessDenied none ∧
      ownOutcome policy E root principal path =
        statusOutcome own (answerAt policy E root principal (lastPlace [path])) := by
  rw [lastPlace_singleton hlabel, ownOutcome, if_pos hlabel, answerAt, entryOutcome]
  cases (policy.prune principal (E.entryOf root (components path))).error with
  | none => exact ⟨_, by simp [LookupOutcome.result], by simp [LookupOutcome.result], rfl⟩
  | some error =>
      cases error with
      | notFound => exact ⟨.failed, by simp, by simp, rfl⟩
      | notDir => exact ⟨.failed, by simp, by simp, rfl⟩
      | accessDenied => exact ⟨.failed, by simp, by simp, rfl⟩
      | internal => exact ⟨.failed, by simp, by simp, rfl⟩

theorem ownOutcome_of_not_label (hlabel : label (components path) ≠ path) :
    ownOutcome policy E root principal path = .notFound := by
  rw [ownOutcome, if_neg hlabel]
  rfl

theorem statusOutcome_eq_notFound {own : LookupOutcome} {error : Option LookupError} :
    statusOutcome own error = .notFound ↔
      error = some .notFound ∨ own = .notFound ∧ error ≠ some .accessDenied := by
  cases error with
  | none => simp [statusOutcome]
  | some error => cases error <;> simp [statusOutcome]

theorem statusOutcome_labelled_iff (hlabel : label (components path) = path)
    {error : Option LookupError} :
    statusOutcome (ownOutcome policy E root principal path) error =
        statusOutcome (ownOutcome policy E root principal path)
          (answerAt policy E root principal (lastPlace [path])) ↔
      (error = some .accessDenied →
        answerAt policy E root principal (lastPlace [path]) = some .accessDenied) ∧
      (error = some .notFound →
        answerAt policy E root principal (lastPlace [path]) = some .notFound) := by
  obtain ⟨own, hfound, hdenied, hown⟩ :=
    @ownOutcome_of_label policy E root principal path hlabel
  rw [hown]
  generalize answerAt policy E root principal (lastPlace [path]) = alone
  have hfound' := Ne.symm hfound
  have hdenied' := Ne.symm hdenied
  rcases error with _ | (_ | _ | _ | _) <;> rcases alone with _ | (_ | _ | _ | _) <;>
    simp [statusOutcome, hfound', hdenied']

theorem statusOutcome_unlabelled_iff (hlabel : label (components path) ≠ path)
    {error : Option LookupError} :
    statusOutcome (ownOutcome policy E root principal path) error =
        statusOutcome (ownOutcome policy E root principal path)
          (answerAt policy E root principal (lastPlace [path])) ↔
      (error = some .accessDenied →
        answerAt policy E root principal (lastPlace [path]) = some .accessDenied) ∧
      (answerAt policy E root principal (lastPlace [path]) = some .accessDenied →
        error = some .accessDenied) := by
  rw [ownOutcome_of_not_label hlabel]
  generalize answerAt policy E root principal (lastPlace [path]) = alone
  rcases error with _ | (_ | _ | _ | _) <;> rcases alone with _ | (_ | _ | _ | _) <;>
    simp [statusOutcome]

/-- When the path alone is not found. -/
theorem notFound_alone_iff :
    LookupOutcome.notFound.result = statusOutcome (ownOutcome policy E root principal path)
        (answerAt policy E root principal (lastPlace [path])) ↔
      if label (components path) = path then
        answerAt policy E root principal (lastPlace [path]) = some .notFound
      else answerAt policy E root principal (lastPlace [path]) ≠ some .accessDenied := by
  rw [LookupOutcome.result, eq_comm, statusOutcome_eq_notFound]
  · split
    next hlabel =>
      obtain ⟨own, hfound, -, hown⟩ :=
        @ownOutcome_of_label policy E root principal path hlabel
      rw [hown, statusOutcome_eq_notFound]
      simp only [hfound, false_and, or_false]
      exact ⟨fun h => h.elim id And.left, .inl⟩
    next hlabel =>
      rw [ownOutcome_of_not_label hlabel]
      simp only [true_and]
      refine ⟨?_, .inr⟩
      rintro (h | h)
      · rw [h]
        simp
      · exact h
  · simp

end Status

/-- The mini-roots leave the outcome alone if and only if they do not mask it. -/
theorem slowLookup_agrees_iff (hdense : E.sparse = false) (hs : Reachable E holders s)
    (m : AuthModule) (volume : GoString) (principal : PrincipalRef) (now : ℤ)
    (miniRoots : List (GoString × MiniRoot)) (path : GoString) :
    SameOutcome E [makeLookupCallback m E] s volume principal now miniRoots path ↔
      Unmasked (m.policyAt E.toEncoding s.rootAddr) E.toEncoding s.rootAddr principal volume path
        (slowPaths now miniRoots path) := by
  have hinv := hs.inv hdense
  have hone : slowPaths now [] path = [path] := rfl
  -- both lookups are runs of a function
  have hsame : ∀ {outcome alone : LookupOutcome},
      slowLookup E [makeLookupCallback m E] volume principal now miniRoots path s =
        (.ok outcome, s) →
      slowLookup E [makeLookupCallback m E] volume principal now [] path s = (.ok alone, s) →
      (SameOutcome E [makeLookupCallback m E] s volume principal now miniRoots path ↔
        outcome.result = alone.result) := by
    intro outcome alone houtcome halone
    constructor
    · rintro ⟨outcome', alone', houtcome', halone', hresult⟩
      rw [houtcome] at houtcome'
      rw [halone] at halone'
      cases houtcome'
      cases halone'
      exact hresult
    · exact fun hresult => ⟨outcome, alone, houtcome, halone, hresult⟩
  unfold Unmasked
  simp only
  by_cases halone : acceptsLookup volume [path] = true
  · obtain ⟨alone, hrunAlone, hresultAlone⟩ := slowLookup_accepted (m := m) hdense hinv
      (by rwa [hone] : acceptsLookup volume (slowPaths now [] path) = true) principal
    rw [hone] at hresultAlone
    by_cases haccepts : acceptsLookup volume (slowPaths now miniRoots path) = true
    · obtain ⟨outcome, hrun, hresult⟩ := slowLookup_accepted (m := m) hdense hinv haccepts principal
      rw [hsame hrun hrunAlone, hresult, hresultAlone, if_pos haccepts]
      by_cases hlabel : label (components path) = path
      · rw [if_pos hlabel, statusOutcome_labelled_iff hlabel]
        exact ⟨fun h _ => h, fun h => h halone⟩
      · rw [if_neg hlabel, statusOutcome_unlabelled_iff hlabel]
        exact ⟨fun h _ => h, fun h => h halone⟩
    · rw [hsame (slowLookup_refused haccepts principal) hrunAlone, hresultAlone, if_neg haccepts,
        notFound_alone_iff]
      exact ⟨fun h _ => h, fun h => h halone⟩
  · have haccepts : acceptsLookup volume (slowPaths now miniRoots path) ≠ true :=
      fun h => halone (acceptsLookup_of_cons h)
    have hrefused : acceptsLookup volume (slowPaths now [] path) ≠ true := by
      rw [hone]
      exact halone
    rw [hsame (slowLookup_refused haccepts principal) (slowLookup_refused hrefused principal)]
    constructor
    · intro _ haccepted
      cases halone haccepted
    · intro _
      rfl

/-- A mini-root above the path adds no entry. -/
theorem slowLookup_agrees_iff_above :
    SameOutcome Table.authEnv [makeLookupCallback Table.authModule Table.authEnv]
      Table.writeVolume "v".toList (.of Table.authPrincipal) 0
      [("d".toList, ⟨some (Table.cid Table.grantedDigest), 0⟩)] "d/a".toList := by
  refine (slowLookup_agrees_iff rfl Table.reachable_writeVolume _ _ _ _ _ _).mpr ?_
  have hpaths : slowPaths 0 [("d".toList, ⟨some (Table.cid Table.grantedDigest), 0⟩)]
      "d/a".toList = ["d/a".toList, "d".toList] := by decide +kernel
  have hlast : lastPlace ["d/a".toList, "d".toList] = lastPlace ["d/a".toList] := by
    decide +kernel
  have haccepts : acceptsLookup "v".toList ["d/a".toList, "d".toList] = true := by
    decide +kernel
  have hlabel : label (components "d/a".toList) = "d/a".toList := by decide +kernel
  intro _
  rw [hpaths, if_pos haccepts, if_pos hlabel]
  beta_reduce
  rw [hlast]
  exact ⟨id, id⟩

/-- `d` is readable, and what was at `b` is not any more. -/
theorem slowLookup_masked :
    ∃ s principal path, Reachable Table.authEnv 0 s ∧
      ¬ SameOutcome Table.authEnv [makeLookupCallback Table.authModule Table.authEnv] s
        "v".toList principal 0 [("b".toList, ⟨some (Table.cid Table.grantedDigest), 0⟩)] path := by
  have hmasked : (slowLookup Table.authEnv [makeLookupCallback Table.authModule Table.authEnv]
      "v".toList (.of Table.authPrincipal) 0
      [("b".toList, ⟨some (Table.cid Table.grantedDigest), 0⟩)] "d".toList
      Table.writeVolume).1 = .ok (.accessDenied none) := by decide +kernel
  have halone : (slowLookup Table.authEnv [makeLookupCallback Table.authModule Table.authEnv]
      "v".toList (.of Table.authPrincipal) 0 [] "d".toList Table.writeVolume).1.toOption.map
        (fun outcome => decide (outcome.result = .accessDenied none)) = some false := by
    decide +kernel
  refine ⟨_, .of Table.authPrincipal, "d".toList, Table.reachable_writeVolume, ?_⟩
  rintro ⟨outcome, alone, hrun, hrunAlone, hresult⟩
  rw [hrun] at hmasked
  rw [hrunAlone] at halone
  cases hmasked
  rw [Except.toOption, Option.map_some, Option.some.injEq, decide_eq_false_iff_not] at halone
  exact halone hresult.symm

end Grits
