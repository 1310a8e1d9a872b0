import Grits.Library.PathTree
import Grits.Library.Unicode
import Mathlib.Data.List.AList
import Mathlib.Data.List.Sort

/-!
# Comparing two trees in the shell

`client/lib/diff/main.js`: the files that the client reads are named by their CIDs, and
`_diff` walks two of them together.
-/

namespace Grits

namespace ShellDiff

/-- `'.'` -/
def dot : JsString := [46]

/-- `'/'` -/
def slash : UInt16 := 47

/-- The files of the client.  What a CID names contains no CID of itself. -/
structure Files (Cid : Type) where
  /-- `file.children()`, nothing for what is not a directory -/
  children : Cid → Option (AList fun _ : JsString => Cid)
  /-- The height of what a CID names. -/
  rank : Cid → ℕ
  rank_lt : ∀ {cid map name child}, children cid = some map → map.lookup name = some child →
    rank child < rank cid

/-- A line of the output: `[path, cid_a, cid_b]`. -/
@[ext]
structure Line (Cid : Type) where
  path : JsString
  left : Option Cid
  right : Option Cid
  deriving DecidableEq

variable {Cid : Type} (F : Files Cid)

/-- `file.isDir()` -/
def Files.isDir (cid : Cid) : Bool := (F.children cid).isSome

theorem Files.rank_of_mem {cid : Cid} {map : AList fun _ : JsString => Cid}
    (h : F.children cid = some map) {entry : Σ _ : JsString, Cid} (hentry : entry ∈ map.entries) :
    F.rank entry.2 < F.rank cid := F.rank_lt h (AList.mem_lookup_iff.mpr hentry)

/-- `_miss` -/
def miss (file : Cid) (relPath : JsString) : List (Line Cid) :=
  match h : F.children file with
  | none => []
  | some map =>
      map.entries.flatMap fun entry =>
        let cp := relPath ++ slash :: entry.1
        ⟨cp, some entry.2, none⟩ :: if F.isDir entry.2 then miss entry.2 cp else []
termination_by F.rank file
decreasing_by exact F.rank_of_mem h ‹_›

/-- The keys of `await file.children()`. -/
def Files.keys (file : Cid) : List JsString := ((F.children file).map AList.keys).getD []

/-- `(await file.children()).get(name)` -/
def Files.get (file : Cid) (name : JsString) : Option Cid :=
  (F.children file).bind fun map => map.lookup name

theorem Files.rank_get {file child : Cid} {name : JsString} (h : F.get file name = some child) :
    F.rank child < F.rank file := by
  obtain ⟨map, hmap, hchild⟩ := Option.bind_eq_some_iff.mp h
  exact F.rank_lt hmap hchild

/-- `[...new Set([...ca.keys(), ...cb.keys()])].sort()` -/
def sortedNames (ca cb : List JsString) : List JsString :=
  (ca ++ cb).dedup.insertionSort (· ≤ ·)

/-- `_diff`, where `r` is `opts.r`. -/
def diff [DecidableEq Cid] (r : Bool) (left right : Cid) (relPath : JsString) : List (Line Cid) :=
  if left = right then []
  else if r = true ∧ F.isDir left = true ∧ F.isDir right = true then
    (sortedNames (F.keys left) (F.keys right)).flatMap fun name =>
      let cp := if relPath = dot then name else relPath ++ slash :: name
      match h : F.get left name, F.get right name with
      | none, none => []
      | none, some childB =>
          ⟨cp, none, some childB⟩ :: if F.isDir childB then miss F childB cp else []
      | some childA, none =>
          ⟨cp, some childA, none⟩ :: if F.isDir childA then miss F childA cp else []
      | some childA, some childB => diff r childA childB cp
  else [⟨relPath, some left, some right⟩]
termination_by F.rank left
decreasing_by exact F.rank_get h

/-! ## What a comparison should be -/

/-- The entries of a directory, by their names. -/
def Files.entries (cid : Cid) : Option (JsString → Option Cid) :=
  if F.isDir cid then some (F.get cid) else none

/-- The file at a path below another one. -/
def Files.walk (file : Option Cid) (path : List JsString) : Option Cid :=
  PathTree.walk F.entries file path

/-- There is a directory. -/
def Files.IsDirAt (file : Option Cid) : Prop := ∃ cid, file = some cid ∧ F.isDir cid = true

/-- The trees differ at the path, and it is not a directory in both. -/
def Due (left right : Option Cid) (path : List JsString) : Prop :=
  F.walk left path ≠ F.walk right path ∧
    ¬ (F.IsDirAt (F.walk left path) ∧ F.IsDirAt (F.walk right path))

/-- The text of a path below the compared roots. -/
def pathText : List JsString → JsString
  | [] => dot
  | name :: rest => name ++ rest.flatMap (slash :: ·)

/-- The line for a path. -/
def dueLine (left right : Option Cid) (path : List JsString) : Line Cid :=
  ⟨pathText path, F.walk left path, F.walk right path⟩

/-- There is one line for each path that is due, and no other line. -/
def Exact (left right : Cid) (lines : List (Line Cid)) : Prop :=
  ∃ paths : List (List JsString), paths.Nodup ∧
    (∀ path, path ∈ paths ↔ Due F (some left) (some right) path) ∧
    lines.Perm (paths.map (dueLine F (some left) (some right)))

/-- One of the files has an entry of this name. -/
def Files.HasEntry (file : Option Cid) (name : JsString) : Prop := F.walk file [name] ≠ none

/-- Where `diff` does what it should. -/
structure Comparable (left right : Cid) : Prop where
  /-- Where a file meets a directory, the directory is empty. -/
  clash : ∀ path a b, F.walk (some left) path = some a → F.walk (some right) path = some b →
    F.isDir a ≠ F.isDir b → ∀ name, ¬ F.HasEntry (some a) name ∧ ¬ F.HasEntry (some b) name
  /-- A directory that is only on the right is empty. -/
  rightOnly : ∀ path b, F.walk (some left) path = none → F.walk (some right) path = some b →
    ∀ name, ¬ F.HasEntry (some b) name
  /-- If both roots have a directory `.`, nothing differs below it. -/
  dotted : F.IsDirAt (F.walk (some left) [dot]) → F.IsDirAt (F.walk (some right) [dot]) →
    ∀ name rest, ¬ Due F (some left) (some right) (dot :: name :: rest)

/-! ## Lines and their paths -/

section Traces

variable {L N E : Type}

/-- The lines are those for the paths of a set, one for each. -/
def Traces (lines : List L) (P : List N → Prop) (line : List N → L) : Prop :=
  ∃ paths : List (List N), paths.Nodup ∧ (∀ path, path ∈ paths ↔ P path) ∧
    lines = paths.map line

theorem Traces.nil {P : List N → Prop} {line : List N → L} (h : ∀ path, ¬ P path) :
    Traces [] P line :=
  ⟨[], List.nodup_nil, fun path => ⟨fun hmem => absurd hmem List.not_mem_nil,
    fun hpath => absurd hpath (h path)⟩, rfl⟩

theorem Traces.cons {lines : List L} {P Q : List N → Prop} {line : List N → L}
    (h : Traces lines P line) (path : List N) (hpath : ¬ P path)
    (hQ : ∀ other, Q other ↔ other = path ∨ P other) : Traces (line path :: lines) Q line := by
  obtain ⟨paths, hnodup, hmem, rfl⟩ := h
  refine ⟨path :: paths, List.nodup_cons.mpr ⟨fun h => hpath ((hmem path).mp h), hnodup⟩, ?_, rfl⟩
  intro other
  rw [List.mem_cons, hQ, hmem]

theorem Traces.congr {lines : List L} {P Q : List N → Prop} {line line' : List N → L}
    (h : Traces lines P line) (hQ : ∀ path, Q path ↔ P path)
    (hline : ∀ path, P path → line' path = line path) : Traces lines Q line' := by
  obtain ⟨paths, hnodup, hmem, rfl⟩ := h
  refine ⟨paths, hnodup, fun path => (hmem path).trans (hQ path).symm, ?_⟩
  exact List.map_congr_left fun path hpath => (hline path ((hmem path).mp hpath)).symm

/-- Each entry gives the lines for the paths below its own name. -/
theorem Traces.flatMap {entries : List E} (name : E → N) {lines : E → List L}
    {P : E → List N → Prop} {line : List N → L} (hnames : (entries.map name).Nodup)
    (h : ∀ entry ∈ entries, Traces (lines entry) (P entry) fun rest => line (name entry :: rest)) :
    Traces (entries.flatMap lines)
      (fun path => ∃ entry ∈ entries, ∃ rest, path = name entry :: rest ∧ P entry rest) line := by
  induction entries with
  | nil => exact .nil (by simp)
  | cons entry entries ih =>
      rw [List.map_cons, List.nodup_cons] at hnames
      obtain ⟨paths, hnodup, hmem, hlines⟩ := h entry List.mem_cons_self
      obtain ⟨more, hmore, hmemMore, hlinesMore⟩ :=
        ih hnames.2 fun other hother => h other (List.mem_cons_of_mem _ hother)
      refine ⟨paths.map (name entry :: ·) ++ more, ?_, ?_, ?_⟩
      · refine List.nodup_append.mpr ⟨hnodup.map (List.cons_injective), hmore, ?_⟩
        rintro path hpath _ hpath' rfl
        obtain ⟨rest, -, heq⟩ := List.mem_map.mp hpath
        obtain ⟨other, hother, rest', heq', -⟩ := (hmemMore path).mp hpath'
        rw [← heq, List.cons.injEq] at heq'
        exact hnames.1 (heq'.1 ▸ List.mem_map_of_mem hother)
      · intro path
        rw [List.mem_append, hmemMore, List.mem_map]
        constructor
        · rintro (⟨rest, hrest, rfl⟩ | ⟨other, hother, rest, rfl, hrest⟩)
          · exact ⟨entry, List.mem_cons_self, rest, rfl, (hmem rest).mp hrest⟩
          · exact ⟨other, List.mem_cons_of_mem _ hother, rest, rfl, hrest⟩
        · rintro ⟨other, hother, rest, rfl, hrest⟩
          rcases List.mem_cons.mp hother with rfl | hother
          · exact .inl ⟨rest, (hmem rest).mpr hrest, rfl⟩
          · exact .inr ⟨other, hother, rest, rfl, hrest⟩
      · rw [List.flatMap_cons, hlines, hlinesMore, List.map_append, List.map_map]
        rfl

end Traces

/-! ## One-sided trees -/

variable {F}

theorem Files.walk_none (path : List JsString) : F.walk none path = none :=
  PathTree.walk_none F.entries path

theorem Files.walk_cons (cid : Cid) (name : JsString) (path : List JsString) :
    F.walk (some cid) (name :: path) = F.walk (F.get cid name) path := by
  rw [walk, PathTree.walk_cons, PathTree.child, Option.bind_some, entries]
  split
  next => rfl
  next hdir =>
    have hnone : F.get cid name = none := by
      rw [isDir, Option.isSome_iff_ne_none, ne_eq, not_not] at hdir
      rw [get, hdir]
      rfl
    rw [hnone]
    rfl

theorem Files.walk_single (cid : Cid) (name : JsString) :
    F.walk (some cid) [name] = F.get cid name := F.walk_cons cid name []

theorem Files.children_eq_none {cid : Cid} (h : F.isDir cid = false) : F.children cid = none := by
  rwa [isDir, Option.isSome_eq_false_iff, Option.isNone_iff_eq_none] at h

theorem Files.walk_file {cid : Cid} (h : F.children cid = none) {path : List JsString}
    (hne : path ≠ []) : F.walk (some cid) path = none := by
  obtain ⟨name, rest, rfl⟩ := List.exists_cons_of_ne_nil hne
  have hnone : F.get cid name = none := by
    rw [get, h]
    rfl
  rw [walk_cons, hnone, walk_none]

/-- The line that `_miss` gives a path below a file. -/
def missLine (F : Files Cid) (file : Cid) (relPath : JsString) (path : List JsString) : Line Cid :=
  ⟨relPath ++ path.flatMap (slash :: ·), F.walk (some file) path, none⟩

/-- The line of a file and those that `_miss` gives below it. -/
theorem traces_of_miss {file : Cid} {relPath : JsString}
    (h : Traces (miss F file relPath) (fun path => path ≠ [] ∧ F.walk (some file) path ≠ none)
      (missLine F file relPath)) (line : Line Cid) :
    Traces (line :: if F.isDir file then miss F file relPath else [])
      (fun path => F.walk (some file) path ≠ none)
      fun path => if path = [] then line else missLine F file relPath path := by
  have hself : F.walk (some file) [] ≠ none := Option.some_ne_none file
  have hbelow : Traces (if F.isDir file then miss F file relPath else [])
      (fun path => path ≠ [] ∧ F.walk (some file) path ≠ none)
      fun path => if path = [] then line else missLine F file relPath path := by
    split
    next => exact h.congr (fun _ => Iff.rfl) fun path hpath => if_neg hpath.1
    next hdir =>
      refine .nil fun path hpath => hpath.2 (Files.walk_file ?_ hpath.1)
      rwa [Files.isDir, Option.isSome_iff_ne_none, ne_eq, not_not] at hdir
  refine hbelow.cons [] (fun h => h.1 rfl) fun other => ?_
  constructor
  · intro hother
    by_cases hnil : other = []
    · exact .inl hnil
    · exact .inr ⟨hnil, hother⟩
  · rintro (rfl | hother)
    · exact hself
    · exact hother.2

theorem miss_dir {file : Cid} {map : AList fun _ : JsString => Cid}
    (h : F.children file = some map) (relPath : JsString) :
    miss F file relPath = map.entries.flatMap fun entry =>
      ⟨relPath ++ slash :: entry.1, some entry.2, none⟩ ::
        if F.isDir entry.2 then miss F entry.2 (relPath ++ slash :: entry.1) else [] := by
  rw [miss]
  split
  next heq =>
    rw [h] at heq
    cases heq
  next heq =>
    rw [h] at heq
    cases heq
    rfl

theorem miss_traces (F : Files Cid) (file : Cid) (relPath : JsString) :
    Traces (miss F file relPath) (fun path => path ≠ [] ∧ F.walk (some file) path ≠ none)
      (missLine F file relPath) := by
  induction hrank : F.rank file using Nat.strong_induction_on generalizing file relPath with
  | _ n ih =>
      subst hrank
      cases hfile : F.children file with
      | none =>
          rw [miss.eq_def, hfile]
          exact .nil fun path hpath => hpath.2 (Files.walk_file hfile hpath.1)
      | some map =>
          rw [miss_dir hfile]
          have hget : ∀ name, F.get file name = map.lookup name := by
            intro name
            rw [Files.get, hfile]
            rfl
          have hentry : ∀ entry ∈ map.entries, Traces
              (⟨relPath ++ slash :: entry.1, some entry.2, none⟩ ::
                if F.isDir entry.2 then miss F entry.2 (relPath ++ slash :: entry.1) else [])
              (fun rest => F.walk (some entry.2) rest ≠ none)
              fun rest => missLine F file relPath (entry.1 :: rest) := by
            intro entry hmem
            have hbelow := ih _ (F.rank_of_mem hfile hmem) entry.2
              (relPath ++ slash :: entry.1) rfl
            refine (traces_of_miss hbelow _).congr (fun _ => Iff.rfl) fun rest _ => ?_
            rw [missLine, Files.walk_cons, hget, AList.mem_lookup_iff.mpr hmem]
            by_cases hrest : rest = []
            · subst hrest
              simp [Files.walk]
            · simp [missLine, hrest]
          refine (Traces.flatMap Sigma.fst map.nodupKeys hentry).congr (fun path => ?_) fun _ _ => rfl
          constructor
          · rintro ⟨hne, hpath⟩
            obtain ⟨name, rest, rfl⟩ := List.exists_cons_of_ne_nil hne
            rw [Files.walk_cons, hget] at hpath
            cases hchild : map.lookup name with
            | none =>
                rw [hchild, Files.walk_none] at hpath
                exact absurd rfl hpath
            | some child =>
                rw [hchild] at hpath
                exact ⟨⟨name, child⟩, AList.mem_lookup_iff.mp hchild, rest, rfl, hpath⟩
          · rintro ⟨entry, hmem, rest, rfl, hpath⟩
            rw [Files.walk_cons, hget, AList.mem_lookup_iff.mpr hmem]
            exact ⟨List.cons_ne_nil _ _, hpath⟩

/-! ## Both trees -/

/-- A file meets a directory. -/
def Clash (F : Files Cid) (left right : Option Cid) : Prop :=
  ∃ a b, left = some a ∧ right = some b ∧ F.isDir a ≠ F.isDir b

/-- The path is due, and `_diff` gets there. -/
def Visited (F : Files Cid) (left right : Option Cid) (path : List JsString) : Prop :=
  Due F left right path ∧ ∀ above name rest, path = above ++ name :: rest →
    ¬ Clash F (F.walk left above) (F.walk right above)

/-- The line that `_diff` gives a path. -/
def codeLine (F : Files Cid) : Option Cid → Option Cid → JsString → List JsString → Line Cid
  | left, right, relPath, [] => ⟨relPath, left, right⟩
  | none, right, relPath, name :: rest =>
      ⟨relPath ++ (name :: rest).flatMap (slash :: ·), F.walk right (name :: rest), none⟩
  | some a, right, relPath, name :: rest =>
      codeLine F (F.walk (some a) [name]) (F.walk right [name])
        (if relPath = dot ∧ F.isDir a = true ∧ right.any F.isDir = true then name
          else relPath ++ slash :: name) rest

theorem walk_single_cons (x : Option Cid) (name : JsString) (rest : List JsString) :
    F.walk x (name :: rest) = F.walk (F.walk x [name]) rest := rfl

theorem due_cons {x y : Option Cid} {name : JsString} {rest : List JsString} :
    Due F x y (name :: rest) ↔ Due F (F.walk x [name]) (F.walk y [name]) rest := Iff.rfl

theorem visited_cons {x y : Option Cid} (hclash : ¬ Clash F x y) {name : JsString}
    {rest : List JsString} :
    Visited F x y (name :: rest) ↔ Visited F (F.walk x [name]) (F.walk y [name]) rest := by
  rw [Visited, Visited, due_cons]
  refine and_congr_right fun _ => ⟨fun h above other below heq => ?_, fun h above other below heq => ?_⟩
  · exact h (name :: above) other below (by rw [heq]; rfl)
  · cases above with
    | nil => exact hclash
    | cons first above =>
        rw [List.cons_append, List.cons.injEq] at heq
        obtain ⟨rfl, rfl⟩ := heq
        exact h above other below rfl

theorem not_clash_none_left (y : Option Cid) : ¬ Clash F none y := by
  rintro ⟨a, b, ha, -⟩
  cases ha

theorem not_clash_none_right (x : Option Cid) : ¬ Clash F x none := by
  rintro ⟨a, b, -, hb, -⟩
  cases hb

theorem not_isDirAt_none : ¬ F.IsDirAt none := by
  rintro ⟨cid, h, -⟩
  cases h

theorem visited_none_left (y : Option Cid) (path : List JsString) :
    Visited F none y path ↔ F.walk y path ≠ none := by
  rw [Visited, Due, Files.walk_none]
  constructor
  · rintro ⟨⟨hne, -⟩, -⟩
    exact Ne.symm hne
  · intro hne
    refine ⟨⟨Ne.symm hne, fun h => not_isDirAt_none h.1⟩, fun above _ _ _ => ?_⟩
    rw [Files.walk_none]
    exact not_clash_none_left _

theorem visited_none_right (x : Option Cid) (path : List JsString) :
    Visited F x none path ↔ F.walk x path ≠ none := by
  rw [Visited, Due, Files.walk_none]
  constructor
  · rintro ⟨⟨hne, -⟩, -⟩
    exact hne
  · intro hne
    refine ⟨⟨hne, fun h => not_isDirAt_none h.2⟩, fun above _ _ _ => ?_⟩
    rw [Files.walk_none]
    exact not_clash_none_right _

theorem codeLine_none_left (y : Option Cid) (relPath : JsString) {path : List JsString}
    (h : path ≠ []) : codeLine F none y relPath path =
      ⟨relPath ++ path.flatMap (slash :: ·), F.walk y path, none⟩ := by
  obtain ⟨name, rest, rfl⟩ := List.exists_cons_of_ne_nil h
  rfl

theorem codeLine_none_right (x : Option Cid) (relPath : JsString) (path : List JsString) :
    codeLine F x none relPath path =
      ⟨relPath ++ path.flatMap (slash :: ·), F.walk x path, none⟩ := by
  induction path generalizing x relPath with
  | nil => simp [codeLine, Files.walk]
  | cons name rest ih =>
      cases x with
      | none => simp [codeLine, Files.walk_none]
      | some a =>
          rw [codeLine, Files.walk_none, ih, if_neg (by simp)]
          simp [walk_single_cons (some a) name rest]

theorem mem_sortedNames {ca cb : List JsString} {name : JsString} :
    name ∈ sortedNames ca cb ↔ name ∈ ca ∨ name ∈ cb := by
  rw [sortedNames, (List.perm_insertionSort _ _).mem_iff, List.mem_dedup, List.mem_append]

theorem nodup_sortedNames (ca cb : List JsString) : (sortedNames ca cb).Nodup :=
  (List.perm_insertionSort _ _).nodup_iff.mpr (List.nodup_dedup _)

theorem Files.mem_keys {file : Cid} {name : JsString} (h : F.get file name ≠ none) :
    name ∈ F.keys file := by
  obtain ⟨child, hchild⟩ := Option.ne_none_iff_exists'.mp h
  obtain ⟨map, hmap, hlookup⟩ := Option.bind_eq_some_iff.mp hchild
  rw [keys, hmap]
  exact AList.mem_keys.mpr (AList.lookup_isSome.mp (by rw [hlookup]; rfl))

/-- Below two files that are not both directories and do not clash nothing is visited. -/
theorem visited_of_not_dirs {left right : Cid} (hne : left ≠ right)
    (hdirs : ¬ (F.isDir left = true ∧ F.isDir right = true)) {path : List JsString} :
    Visited F (some left) (some right) path ↔ path = [] := by
  constructor
  · rintro ⟨hdue, hclash⟩
    by_contra hnil
    obtain ⟨name, rest, rfl⟩ := List.exists_cons_of_ne_nil hnil
    have hsame : F.isDir left = F.isDir right := by
      by_contra hdiffer
      exact hclash [] name rest rfl ⟨left, right, rfl, rfl, hdiffer⟩
    have hleft : F.isDir left = false := by
      by_contra hdir
      rw [Bool.not_eq_false] at hdir
      exact hdirs ⟨hdir, hsame ▸ hdir⟩
    have hright : F.isDir right = false := hsame ▸ hleft
    rw [due_cons, Files.walk_file (Files.children_eq_none hleft) (List.cons_ne_nil _ _),
      Files.walk_file (Files.children_eq_none hright) (List.cons_ne_nil _ _)] at hdue
    exact hdue.1 rfl
  · rintro rfl
    refine ⟨⟨fun h => hne (Option.some.inj h), ?_⟩, ?_⟩
    · rintro ⟨⟨a, ha, hdirA⟩, b, hb, hdirB⟩
      cases ha
      cases hb
      exact hdirs ⟨hdirA, hdirB⟩
    · intro above name rest heq
      exact absurd heq.symm (by simp)

/-! ## The lines compared with those that are due -/

theorem length_pathText_dot (name : JsString) (rest : List JsString) :
    (pathText (dot :: name :: rest)).length = (pathText (name :: rest)).length + 2 := by
  simp only [pathText, dot, List.flatMap_cons, List.length_append, List.length_cons,
    List.length_nil]
  omega

/-- A text other than `.` is continued with slashes. -/
theorem path_codeLine (x y : Option Cid) {relPath : JsString} (h : relPath ≠ dot)
    (path : List JsString) :
    (codeLine F x y relPath path).path = relPath ++ path.flatMap (slash :: ·) := by
  induction path generalizing x y relPath with
  | nil => simp [codeLine]
  | cons name rest ih =>
      cases x with
      | none => rfl
      | some a =>
          have hne : relPath ++ slash :: name ≠ dot := by
            intro heq
            cases relPath with
            | nil => simp [dot, slash] at heq
            | cons c relPath =>
                have hlength := congrArg List.length heq
                simp [dot] at hlength
          rw [codeLine, if_neg fun hboth => h hboth.1, ih _ _ hne]
          simp

/-- So is `.`, unless it is the path of two directories. -/
theorem path_codeLine_dot {x y : Option Cid} (h : ¬ (F.IsDirAt x ∧ F.IsDirAt y)) (name : JsString)
    (rest : List JsString) :
    (codeLine F x y dot (name :: rest)).path = pathText (dot :: name :: rest) := by
  cases x with
  | none => rfl
  | some a =>
      have hne : dot ++ slash :: name ≠ dot := by simp
      have hnot : ¬ (dot = dot ∧ F.isDir a = true ∧ y.any F.isDir = true) := by
        rintro ⟨-, ha, hy⟩
        rw [Option.any_eq_true] at hy
        obtain ⟨b, rfl, hb⟩ := hy
        exact h ⟨⟨a, rfl, ha⟩, b, rfl, hb⟩
      rw [codeLine, if_neg hnot, path_codeLine _ _ hne]
      simp [pathText]

/-- The text of a path below two directories. -/
theorem path_codeLine_dirs {a b : Cid} (ha : F.isDir a = true) (hb : F.isDir b = true)
    (name : JsString) (rest : List JsString) :
    (codeLine F (some a) (some b) dot (name :: rest)).path =
      (codeLine F (F.walk (some a) [name]) (F.walk (some b) [name]) name rest).path := by
  rw [codeLine, if_pos ⟨rfl, ha, hb⟩]

/-- Below two directories the text is right, or too short. -/
theorem length_path_codeLine_le {a b : Cid} (ha : F.isDir a = true) (hb : F.isDir b = true)
    (path : List JsString) :
    (codeLine F (some a) (some b) dot path).path.length ≤ (pathText path).length := by
  induction path generalizing a b with
  | nil => exact le_rfl
  | cons name rest ih =>
      rw [path_codeLine_dirs ha hb]
      by_cases hname : name = dot
      · subst hname
        cases rest with
        | nil => exact le_of_eq (congrArg List.length (List.append_nil dot).symm)
        | cons next rest =>
            by_cases hdirs : F.IsDirAt (F.walk (some a) [dot]) ∧ F.IsDirAt (F.walk (some b) [dot])
            · obtain ⟨⟨a', ha', hdirA⟩, b', hb', hdirB⟩ := hdirs
              have hle := ih hdirA hdirB
              rw [ha', hb', length_pathText_dot]
              omega
            · rw [path_codeLine_dot hdirs]
      · rw [path_codeLine _ _ hname]
        exact le_rfl

/-- Below two directories `.` of the roots it is too short. -/
theorem length_path_codeLine_dotted {a b : Cid} (ha : F.isDir a = true) (hb : F.isDir b = true)
    (hdirA : F.IsDirAt (F.walk (some a) [dot])) (hdirB : F.IsDirAt (F.walk (some b) [dot]))
    (name : JsString) (rest : List JsString) :
    (codeLine F (some a) (some b) dot (dot :: name :: rest)).path.length <
      (pathText (dot :: name :: rest)).length := by
  obtain ⟨a', ha', hdirA'⟩ := hdirA
  obtain ⟨b', hb', hdirB'⟩ := hdirB
  have hle := length_path_codeLine_le hdirA' hdirB' (name :: rest)
  rw [path_codeLine_dirs ha hb, ha', hb', length_pathText_dot]
  omega

/-- Anywhere else below two directories it is right. -/
theorem path_codeLine_eq {a b : Cid} (ha : F.isDir a = true) (hb : F.isDir b = true)
    {path : List JsString} (h : ∀ name rest, path = dot :: name :: rest →
      ¬ (F.IsDirAt (F.walk (some a) [dot]) ∧ F.IsDirAt (F.walk (some b) [dot]))) :
    (codeLine F (some a) (some b) dot path).path = pathText path := by
  cases path with
  | nil => rfl
  | cons name rest =>
      rw [path_codeLine_dirs ha hb]
      by_cases hname : name = dot
      · subst hname
        cases rest with
        | nil => exact (List.append_nil dot).symm
        | cons next rest => exact path_codeLine_dot (h next rest rfl) next rest
      · rw [path_codeLine _ _ hname]
        rfl

/-- Where the files on the way are there on the left, the sides are right. -/
theorem sides_codeLine {x y : Option Cid} {relPath : JsString} {path : List JsString}
    (h : ∀ above name rest, path = above ++ name :: rest → F.walk x above ≠ none) :
    (codeLine F x y relPath path).left = F.walk x path ∧
      (codeLine F x y relPath path).right = F.walk y path := by
  induction path generalizing x y relPath with
  | nil => exact ⟨rfl, rfl⟩
  | cons name rest ih =>
      cases x with
      | none => exact absurd rfl (h [] name rest rfl)
      | some a =>
          exact ih fun above next below heq => h (name :: above) next below (by rw [heq]; rfl)

/-- Where one of them is missing, the file on the right is put on the left. -/
theorem sides_codeLine_missing {x y : Option Cid} {relPath : JsString} {above rest : List JsString}
    {name : JsString} (h : F.walk x above = none) :
    (codeLine F x y relPath (above ++ name :: rest)).left = F.walk y (above ++ name :: rest) ∧
      (codeLine F x y relPath (above ++ name :: rest)).right = none := by
  induction above generalizing x y relPath with
  | nil =>
      cases x with
      | none => exact ⟨rfl, rfl⟩
      | some a => cases h
  | cons first above ih =>
      cases x with
      | none => exact ⟨rfl, rfl⟩
      | some a => exact ih h

/-! ## The lines of the whole comparison -/

/-- What is wrong with a line of `_diff` makes this number too small. -/
def weight (line : Line Cid) : ℕ := (if line.left = none then 1 else 0) + line.path.length

/-- If anything but the roots is visited, they are two directories. -/
theorem dirs_of_visited {left right : Cid} {path : List JsString} (hne : path ≠ [])
    (h : Visited F (some left) (some right) path) :
    F.isDir left = true ∧ F.isDir right = true := by
  by_contra hdirs
  have hdiffer : left ≠ right := by
    rintro rfl
    exact h.1.1 rfl
  exact hne ((visited_of_not_dirs hdiffer hdirs).mp h)

/-- Of a path that is due the line of `_diff` has a file on the left if the due line has. -/
theorem left_codeLine_ne_none {x y : Option Cid} {relPath : JsString} {path : List JsString}
    (hdue : Due F x y path) (h : F.walk x path ≠ none) :
    (codeLine F x y relPath path).left ≠ none := by
  have hway : ∀ above name rest, path = above ++ name :: rest → F.walk x above ≠ none := by
    rintro above name rest rfl hnone
    rw [Files.walk, PathTree.walk_append] at h
    rw [Files.walk] at hnone
    rw [hnone, PathTree.walk_none] at h
    exact h rfl
  rwa [(sides_codeLine hway).1]

/-- What `weight` counts for the left side. -/
theorem leftWeight_le {x y : Option Cid} {relPath : JsString} {path : List JsString}
    (hdue : Due F x y path) :
    (if (codeLine F x y relPath path).left = none then 1 else 0) ≤
      if (dueLine F x y path).left = none then 1 else 0 := by
  split
  next hnone =>
    have hwalk : (dueLine F x y path).left = none :=
      not_not.mp fun hsome => left_codeLine_ne_none hdue hsome hnone
    rw [if_pos hwalk]
  next => exact Nat.zero_le _

theorem weight_codeLine_le {left right : Cid} {path : List JsString}
    (h : Visited F (some left) (some right) path) :
    weight (codeLine F (some left) (some right) dot path) ≤
      weight (dueLine F (some left) (some right) path) := by
  refine Nat.add_le_add (leftWeight_le h.1) ?_
  by_cases hnil : path = []
  · subst hnil
    exact le_rfl
  · obtain ⟨ha, hb⟩ := dirs_of_visited hnil h
    exact length_path_codeLine_le ha hb path

theorem walk_concat (x : Option Cid) (path : List JsString) (name : JsString) :
    F.walk x (path ++ [name]) = F.walk (F.walk x path) [name] := PathTree.walk_append ..

theorem walk_append (x : Option Cid) (path : List JsString) (name : JsString)
    (rest : List JsString) :
    F.walk x (path ++ name :: rest) = F.walk (F.walk (F.walk x path) [name]) rest :=
  PathTree.walk_append ..

variable [DecidableEq Cid]

/-- The lines of `_diff` for the two entries of one name. -/
def entryLines (F : Files Cid) (cp : JsString) : Option Cid → Option Cid → List (Line Cid)
  | none, none => []
  | none, some childB => ⟨cp, none, some childB⟩ :: if F.isDir childB then miss F childB cp else []
  | some childA, none => ⟨cp, some childA, none⟩ :: if F.isDir childA then miss F childA cp else []
  | some childA, some childB => diff F true childA childB cp

theorem diff_dirs {left right : Cid} (hne : left ≠ right) (hl : F.isDir left = true)
    (hr : F.isDir right = true) (relPath : JsString) :
    diff F true left right relPath = (sortedNames (F.keys left) (F.keys right)).flatMap fun name =>
      entryLines F (if relPath = dot then name else relPath ++ slash :: name) (F.get left name)
        (F.get right name) := by
  rw [diff, if_neg hne, if_pos ⟨rfl, hl, hr⟩]
  refine List.flatMap_congr fun name _ => ?_
  simp only
  split
  next ha hb => rw [ha, hb]; rfl
  next ha hb => rw [ha, hb]; rfl
  next ha hb => rw [ha, hb]; rfl
  next ha hb => rw [ha, hb]; rfl

theorem entryLines_traces (cp : JsString) (x y : Option Cid)
    (h : ∀ a b, x = some a → y = some b → Traces (diff F true a b cp)
      (Visited F (some a) (some b)) (codeLine F (some a) (some b) cp)) :
    Traces (entryLines F cp x y) (Visited F x y) (codeLine F x y cp) := by
  cases x with
  | none =>
      cases y with
      | none => exact .nil fun path hpath => (visited_none_left none path).mp hpath (Files.walk_none path)
      | some b =>
          refine (traces_of_miss (miss_traces F b cp) _).congr (visited_none_left (some b))
            fun path _ => ?_
          by_cases hnil : path = []
          · subst hnil
            rfl
          · rw [codeLine_none_left _ _ hnil, if_neg hnil]
            rfl
  | some a =>
      cases y with
      | none =>
          refine (traces_of_miss (miss_traces F a cp) _).congr (visited_none_right (some a))
            fun path _ => ?_
          rw [codeLine_none_right]
          by_cases hnil : path = []
          · subst hnil
            simp [Files.walk]
          · rw [if_neg hnil]
            rfl
      | some b => exact h a b rfl rfl

/-- The paths that `_diff` gets to, and the lines that it gives them. -/
theorem diff_traces (F : Files Cid) (left right : Cid) (relPath : JsString) :
    Traces (diff F true left right relPath) (Visited F (some left) (some right))
      (codeLine F (some left) (some right) relPath) := by
  induction hrank : F.rank left using Nat.strong_induction_on generalizing left right relPath with
  | _ n ih =>
      subst hrank
      by_cases hself : left = right
      · subst hself
        rw [diff, if_pos rfl]
        exact .nil fun path hpath => hpath.1.1 rfl
      by_cases hdirs : F.isDir left = true ∧ F.isDir right = true
      · rw [diff_dirs hself hdirs.1 hdirs.2]
        have hclash : ¬ Clash F (some left) (some right) := by
          rintro ⟨a, b, ha, hb, hne⟩
          cases ha
          cases hb
          exact hne (hdirs.1.trans hdirs.2.symm)
        have hentry : ∀ name ∈ sortedNames (F.keys left) (F.keys right), Traces
            (entryLines F (if relPath = dot then name else relPath ++ slash :: name)
              (F.get left name) (F.get right name))
            (Visited F (F.get left name) (F.get right name))
            fun rest => codeLine F (some left) (some right) relPath (name :: rest) := by
          intro name _
          refine (entryLines_traces _ _ _ ?_).congr (fun _ => Iff.rfl) fun rest _ => ?_
          · intro a b ha _
            exact ih _ (F.rank_get ha) a b _ rfl
          · rw [codeLine, Files.walk_single, Files.walk_single]
            simp [hdirs.1, hdirs.2]
        refine (Traces.flatMap id ((List.map_id _).symm ▸ nodup_sortedNames _ _) hentry).congr (fun path => ?_) fun _ _ => rfl
        cases path with
        | nil =>
            constructor
            · rintro ⟨⟨-, hnot⟩, -⟩
              exact absurd ⟨⟨left, rfl, hdirs.1⟩, ⟨right, rfl, hdirs.2⟩⟩ hnot
            · rintro ⟨_, _, _, heq, _⟩
              cases heq
        | cons name rest =>
            rw [visited_cons hclash, Files.walk_single, Files.walk_single]
            constructor
            · intro hvisited
              refine ⟨name, mem_sortedNames.mpr ?_, rest, rfl, hvisited⟩
              by_contra hnone
              rw [not_or] at hnone
              have hleft : F.get left name = none := not_not.mp fun h => hnone.1 (Files.mem_keys h)
              have hright : F.get right name = none := not_not.mp fun h => hnone.2 (Files.mem_keys h)
              rw [hleft, hright] at hvisited
              exact hvisited.1.1 rfl
            · rintro ⟨name', _, rest', heq, hvisited⟩
              cases heq
              exact hvisited
      · have hdiff : diff F true left right relPath = [⟨relPath, some left, some right⟩] := by
          rw [diff, if_neg hself, if_neg fun h => hdirs h.2]
        have hempty : Traces [] (fun _ => False) (codeLine F (some left) (some right) relPath) :=
          .nil fun _ h => h
        rw [hdiff]
        refine hempty.cons [] (fun h => h) fun path => ?_
        rw [visited_of_not_dirs hself hdirs, or_false]

/-- If the output is exact, every due path is visited, and its line is not too short. -/
theorem lines_of_exact {left right : Cid} (h : Exact F left right (diff F true left right dot))
    {path : List JsString} (hdue : Due F (some left) (some right) path) :
    Visited F (some left) (some right) path ∧
      weight (codeLine F (some left) (some right) dot path) =
        weight (dueLine F (some left) (some right) path) := by
  obtain ⟨due, hnodupDue, hmemDue, hperm⟩ := h
  obtain ⟨paths, hnodup, hmem, hlines⟩ := diff_traces F left right dot
  rw [hlines] at hperm
  -- as many paths are visited as are due
  have hlength : due.length ≤ paths.length := by
    have hlength := hperm.length_eq
    rw [List.length_map, List.length_map] at hlength
    exact hlength.ge
  have hsubset : paths ⊆ due := fun other hother => (hmemDue other).mpr ((hmem other).mp hother).1
  have hsame : paths.Perm due := (hnodup.subperm hsubset).perm_of_length_le hlength
  have hpath : path ∈ paths := hsame.mem_iff.mpr ((hmemDue path).mpr hdue)
  refine ⟨(hmem path).mp hpath, ?_⟩
  have hweights := ((hperm.trans (hsame.symm.map _)).map weight).sum_eq
  rw [List.map_map, List.map_map] at hweights
  have hle : ∀ other ∈ paths, weight (codeLine F (some left) (some right) dot other) ≤
      weight (dueLine F (some left) (some right) other) := fun other hother =>
    weight_codeLine_le ((hmem other).mp hother)
  by_contra hne
  have hlt := List.sum_lt_sum _ _ hle ⟨path, hpath, lt_of_le_of_ne (hle path hpath) hne⟩
  exact hlt.ne hweights

theorem exact_of_lines {left right : Cid}
    (h : ∀ path, Due F (some left) (some right) path → Visited F (some left) (some right) path ∧
      codeLine F (some left) (some right) dot path = dueLine F (some left) (some right) path) :
    Exact F left right (diff F true left right dot) := by
  obtain ⟨paths, hnodup, hmem, hlines⟩ := diff_traces F left right dot
  refine ⟨paths, hnodup, fun path => (hmem path).trans ⟨fun hpath => hpath.1, fun hdue => (h path hdue).1⟩, ?_⟩
  rw [hlines]
  refine List.Perm.of_eq (List.map_congr_left fun path hpath => ?_)
  exact (h path ((hmem path).mp hpath).1).2

theorem comparable_of_exact {left right : Cid}
    (h : Exact F left right (diff F true left right dot)) : Comparable F left right where
  clash := by
    intro path a b ha hb hdiffer name
    have hclash : Clash F (F.walk (some left) path) (F.walk (some right) path) :=
      ⟨a, b, ha, hb, hdiffer⟩
    -- nothing below the path is visited, so nothing is due there
    have hnot : ¬ Due F (some left) (some right) (path ++ [name]) := fun hdue =>
      (lines_of_exact h hdue).1.2 path name [] rfl hclash
    rw [Due, walk_concat, walk_concat, ha, hb] at hnot
    have hfile : ∀ cid, F.isDir cid = false → F.walk (some cid) [name] = none := fun cid hcid =>
      Files.walk_file (Files.children_eq_none hcid) (List.cons_ne_nil _ _)
    cases hdirA : F.isDir a with
    | false =>
        rw [hfile a hdirA] at hnot
        have hb' : F.walk (some b) [name] = none := by
          by_contra hsome
          exact hnot ⟨Ne.symm hsome, fun hdirs => not_isDirAt_none hdirs.1⟩
        exact ⟨not_not.mpr (hfile a hdirA), not_not.mpr hb'⟩
    | true =>
        have hdirB : F.isDir b = false := by
          by_contra hdir
          rw [Bool.not_eq_false] at hdir
          exact hdiffer (hdirA.trans hdir.symm)
        rw [hfile b hdirB] at hnot
        have ha' : F.walk (some a) [name] = none := by
          by_contra hsome
          exact hnot ⟨hsome, fun hdirs => not_isDirAt_none hdirs.2⟩
        exact ⟨not_not.mpr ha', not_not.mpr (hfile b hdirB)⟩
  rightOnly := by
    intro path b ha hb name hentry
    have hright : F.walk (some right) (path ++ [name]) ≠ none := by
      rwa [walk_concat, hb]
    have hleft : F.walk (some left) (path ++ [name]) = none := by
      rw [walk_concat, ha, Files.walk_none]
    have hdue : Due F (some left) (some right) (path ++ [name]) := by
      rw [Due, hleft]
      exact ⟨Ne.symm hright, fun hdirs => not_isDirAt_none hdirs.1⟩
    obtain ⟨hvisited, hweight⟩ := lines_of_exact h hdue
    obtain ⟨hdirA, hdirB⟩ := dirs_of_visited (by simp) hvisited
    have hle := length_path_codeLine_le hdirA hdirB (path ++ [name])
    -- the file is put on the left
    have hsides : (codeLine F (some left) (some right) dot (path ++ [name])).left = _ :=
      (sides_codeLine_missing ha).1
    rw [weight, weight, hsides, if_neg hright, dueLine, if_pos hleft] at hweight
    simp only at hweight
    omega
  dotted := by
    intro hdirA hdirB name rest hdue
    obtain ⟨hvisited, hweight⟩ := lines_of_exact h hdue
    obtain ⟨ha, hb⟩ := dirs_of_visited (List.cons_ne_nil _ _) hvisited
    have hlt := length_path_codeLine_dotted ha hb hdirA hdirB name rest
    exact absurd hweight (Nat.add_lt_add_of_le_of_lt (leftWeight_le hdue) hlt).ne

theorem exact_of_comparable {left right : Cid} (h : Comparable F left right) :
    Exact F left right (diff F true left right dot) := by
  refine exact_of_lines fun path hdue => ?_
  have hvisited : Visited F (some left) (some right) path := by
    refine ⟨hdue, ?_⟩
    rintro above name rest rfl ⟨a, b, ha, hb, hdiffer⟩
    -- below a file and a directory there is nothing
    obtain ⟨hentryA, hentryB⟩ := h.clash above a b ha hb hdiffer name
    rw [Due, walk_append, walk_append, ha, hb, not_not.mp hentryA, not_not.mp hentryB] at hdue
    exact hdue.1 rfl
  refine ⟨hvisited, ?_⟩
  have hway : ∀ above name rest, path = above ++ name :: rest →
      F.walk (some left) above ≠ none := by
    rintro above name rest rfl hnone
    have hleft : F.walk (some left) (above ++ name :: rest) = none := by
      rw [walk_append, hnone, Files.walk_none, Files.walk_none]
    have hright := hdue.1
    rw [hleft, walk_append] at hright
    cases hb : F.walk (some right) above with
    | none =>
        rw [hb, Files.walk_none, Files.walk_none] at hright
        exact hright rfl
    | some b =>
        have hentry : F.walk (some b) [name] = none :=
          not_not.mp (h.rightOnly above b hnone hb name)
        rw [hb, hentry, Files.walk_none] at hright
        exact hright rfl
  have hsides : (codeLine F (some left) (some right) dot path).left = F.walk (some left) path ∧
      (codeLine F (some left) (some right) dot path).right = F.walk (some right) path :=
    sides_codeLine hway
  have htext : (codeLine F (some left) (some right) dot path).path = pathText path := by
    by_cases hnil : path = []
    · subst hnil
      rfl
    · obtain ⟨ha, hb⟩ := dirs_of_visited hnil hvisited
      refine path_codeLine_eq ha hb ?_
      rintro name rest rfl ⟨hdirA, hdirB⟩
      exact h.dotted hdirA hdirB name rest hdue
  exact Line.ext htext hsides.1 hsides.2

/-- A recursive diff has exactly the lines that are due, exactly if no directory with
entries meets a file or is only on the right, and nothing differs below a directory `.` of
both roots. -/
theorem diff_exact_iff (F : Files Cid) (left right : Cid) :
    Exact F left right (diff F true left right dot) ↔ Comparable F left right :=
  ⟨comparable_of_exact, exact_of_comparable⟩

/-- An empty directory `QmE`, a directory `QmA` with the directory `QmB` as its entry `a`, and
in that the file `QmF` as its entry `b`. -/
def nested : Files (List Char) where
  children cid :=
    if cid = ['Q', 'm', 'E'] then some ∅
    else if cid = ['Q', 'm', 'A'] then some (AList.singleton [97] ['Q', 'm', 'B'])
    else if cid = ['Q', 'm', 'B'] then some (AList.singleton [98] ['Q', 'm', 'F'])
    else none
  rank cid := if cid = ['Q', 'm', 'A'] then 2 else if cid = ['Q', 'm', 'B'] then 1 else 0
  rank_lt := by
    intro cid map name child hmap hchild
    have hmem := AList.mem_lookup_iff.mp hchild
    split at hmap
    next =>
      cases hmap
      cases hmem
    next =>
      split at hmap
      next hself =>
        cases hmap
        cases List.mem_singleton.mp hmem
        subst hself
        decide
      next =>
        split at hmap
        next hself =>
          cases hmap
          cases List.mem_singleton.mp hmem
          subst hself
          decide
        next => cases hmap

/-- The file of a directory that is only on the right is reported as one on the left. -/
theorem diff_misplaces_right :
    ¬ Exact nested ['Q', 'm', 'E'] ['Q', 'm', 'A']
      (diff nested true ['Q', 'm', 'E'] ['Q', 'm', 'A'] dot) := by
  intro h
  have hleft : nested.walk (some ['Q', 'm', 'E']) [[97]] = none := by decide +kernel
  have hright : nested.walk (some ['Q', 'm', 'A']) [[97]] = some ['Q', 'm', 'B'] := by
    decide +kernel
  have hentry : nested.walk (some ['Q', 'm', 'B']) [[98]] ≠ none := by decide +kernel
  exact (comparable_of_exact h).rightOnly [[97]] ['Q', 'm', 'B'] hleft hright [98] hentry

end ShellDiff

end Grits
