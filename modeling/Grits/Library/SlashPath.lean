import Mathlib.Tactic
import Mathlib.Data.List.DropRight

/-!
# Slash-separated path strings

The part of Go's `strings` and `path/filepath` packages that path handling
rests on: trimming, splitting and joining at `/`, and lexical cleaning.  A
`GoString` is a sequence of Unicode scalar values.
-/

namespace Grits

/-- A Go string holding valid UTF-8, as the sequence of its characters. -/
abbrev GoString := List Char

instance : LawfulBEq GoString := inferInstance

namespace SlashPath

/-- `strings.TrimRight(path, "/")`. -/
def trimRight (path : GoString) : GoString := path.rdropWhile (· == '/')

/-- `strings.Split(path, "/")`. -/
def split (path : GoString) : List GoString := path.splitOn '/'

/-- `strings.Join(parts, "/")`. -/
def join (parts : List GoString) : GoString := ['/'].intercalate parts

/-- `strings.SplitN(name, "/", 2)`: the text before the first slash and, if
there is a slash, the text after it. -/
def splitN2 (name : GoString) : GoString × Option GoString :=
  match name.dropWhile (· != '/') with
  | [] => (name, none)
  | _ :: rest => (name.takeWhile (· != '/'), some rest)

/-- `strings.SplitN(path, "/", n)` for a count that is not negative. -/
def splitN : ℕ → GoString → List GoString
  | 0, _ => []
  | 1, path => [path]
  | n + 2, path =>
      match splitN2 path with
      | (part, none) => [part]
      | (part, some rest) => part :: splitN (n + 1) rest

/-- `path[:strings.LastIndex(path, "/")]`, and nothing if there is no slash. -/
def beforeLastSlash (path : GoString) : Option GoString :=
  match path.reverse.dropWhile (· != '/') with
  | [] => none
  | _ :: rest => some rest.reverse

/-- `strings.HasPrefix(path, "/")`. -/
def isRooted : GoString → Bool
  | '/' :: _ => true
  | _ => false

/-- One step of the lexical cleaning of a path, over the reversed list of the
components kept so far. -/
def cleanStep (rooted : Bool) (kept : List GoString) (part : GoString) :
    List GoString :=
  if part = [] ∨ part = ['.'] then kept
  else if part = ['.', '.'] then
    match kept with
    | [] => if rooted then [] else [part]
    | last :: rest => if last = ['.', '.'] then part :: kept else rest
  else part :: kept

/-- `filepath.Clean(path)`. -/
def clean (path : GoString) : GoString :=
  let rooted := isRooted path
  let kept := ((split path).foldl (cleanStep rooted) []).reverse
  if rooted then '/' :: join kept
  else if kept = [] then ['.'] else join kept

/-- `filepath.Join(dir, name)`. -/
def joinClean (dir name : GoString) : GoString :=
  if dir = [] ∧ name = [] then []
  else if dir = [] then clean name
  else clean (dir ++ '/' :: name)

/-- The non-empty components of a path string. -/
def components (path : GoString) : List GoString := (split path).filter (· ≠ [])

/-! ## Splitting and joining -/

@[simp] theorem split_nil : split [] = [[]] := rfl

theorem split_ne_nil (path : GoString) : split path ≠ [] :=
  List.splitOnP_ne_nil _ path

theorem join_split (path : GoString) : join (split path) = path :=
  List.intercalate_splitOn '/'

/-- Joining parts without slashes and splitting again gives the parts back. -/
theorem split_join {parts : List GoString} (hslash : ∀ part ∈ parts, '/' ∉ part)
    (hne : parts ≠ []) : split (join parts) = parts :=
  List.splitOn_intercalate '/' hslash hne

theorem split_cons (c : Char) (path : GoString) :
    split (c :: path) = if c = '/' then [] :: split path
      else (split path).modifyHead (c :: ·) := by
  simp only [split, List.splitOn, List.splitOnP_cons_eq_if_modifyHead, beq_iff_eq]

/-- No component of a split path contains a slash. -/
theorem slash_notMem_of_mem_split {path part : GoString} (h : part ∈ split path) :
    '/' ∉ part := by
  induction path generalizing part with
  | nil =>
      rw [split_nil, List.mem_singleton] at h
      subst h
      simp
  | cons c path ih =>
      rw [split_cons] at h
      by_cases hc : c = '/'
      · rw [if_pos hc, List.mem_cons] at h
        rcases h with rfl | h
        · simp
        · exact ih h
      · rw [if_neg hc] at h
        obtain ⟨first, rest, hsplit⟩ := List.exists_cons_of_ne_nil (split_ne_nil path)
        rw [hsplit, List.modifyHead_cons, List.mem_cons] at h
        rcases h with rfl | h
        · have hfirst : '/' ∉ first := ih (by simp [hsplit])
          simp [hfirst, Ne.symm hc]
        · exact ih (by simp [hsplit, h])

theorem split_append_slash (dir name : GoString) :
    split (dir ++ '/' :: name) = split dir ++ split name := by
  induction dir with
  | nil => simp [split_cons]
  | cons c dir ih =>
      rw [List.cons_append, split_cons, split_cons, ih]
      by_cases hc : c = '/'
      · simp [hc]
      · obtain ⟨first, rest, hsplit⟩ := List.exists_cons_of_ne_nil (split_ne_nil dir)
        simp [hc, hsplit]

theorem split_of_slash_notMem {part : GoString} (h : '/' ∉ part) : split part = [part] := by
  have hsplit : split (join [part]) = [part] := split_join (by simpa using h) (by simp)
  simpa [join, List.intercalate] using hsplit

theorem split_splitN2 (path : GoString) :
    split path = (splitN2 path).1 ::
      match (splitN2 path).2 with
      | none => []
      | some rest => split rest := by
  have hparts := List.takeWhile_append_dropWhile (p := (· != '/')) (l := path)
  have hslash : '/' ∉ path.takeWhile (· != '/') := by
    intro hmem
    have hne := List.mem_takeWhile_imp hmem
    simp at hne
  rw [splitN2]
  cases hdrop : path.dropWhile (· != '/') with
  | nil =>
      rw [hdrop, List.append_nil] at hparts
      rw [hparts] at hslash
      exact split_of_slash_notMem hslash
  | cons c rest =>
      have hc : c = '/' := by
        have hhead := List.head_dropWhile_not (fun d : Char => d != '/') (l := path) (by simp [hdrop])
        simpa [hdrop] using hhead
      subst hc
      rw [hdrop] at hparts
      conv_lhs => rw [← hparts, split_append_slash, split_of_slash_notMem hslash]
      rfl

@[simp] theorem join_nil : join [] = [] := rfl

@[simp] theorem join_singleton (part : GoString) : join [part] = part := by
  simp [join, List.intercalate]

theorem join_cons_cons (part next : GoString) (rest : List GoString) :
    join (part :: next :: rest) = part ++ '/' :: join (next :: rest) := by
  simp [join, List.intercalate]

theorem join_concat {parts : List GoString} (hne : parts ≠ []) (last : GoString) :
    join (parts ++ [last]) = join parts ++ '/' :: last := by
  induction parts with
  | nil => exact absurd rfl hne
  | cons part rest ih =>
      cases rest with
      | nil => simp [join_cons_cons]
      | cons next rest =>
          rw [List.cons_append, List.cons_append, join_cons_cons, join_cons_cons,
            ← List.cons_append, ih (by simp)]
          simp

/-! ## Trimming -/

@[simp] theorem trimRight_nil : trimRight [] = [] := rfl

theorem trimRight_trimRight (path : GoString) :
    trimRight (trimRight path) = trimRight path :=
  List.rdropWhile_idempotent _ path

/-- A trimmed path does not end in a slash. -/
theorem getLast?_trimRight_ne_slash (path : GoString) :
    (trimRight path).getLast? ≠ some '/' := by
  intro h
  have hne : trimRight path ≠ [] := by
    rintro hnil
    simp [hnil] at h
  have hlast := List.rdropWhile_last_not (· == '/') path hne
  rw [List.getLast?_eq_getLast_of_ne_nil hne, Option.some.injEq] at h
  exact hlast (by simpa [trimRight] using h)

/-- A path that ends in a slash nowhere has a non-empty last component. -/
theorem getLast?_split_ne_nil {path : GoString} (hne : path ≠ [])
    (hlast : path.getLast? ≠ some '/') : (split path).getLast? ≠ some [] := by
  induction path with
  | nil => exact absurd rfl hne
  | cons c path ih =>
      obtain ⟨first, rest, hsplit⟩ := List.exists_cons_of_ne_nil (split_ne_nil path)
      cases path with
      | nil =>
          have hc : c ≠ '/' := by simpa using hlast
          simp [split_cons, hc]
      | cons d path =>
          have hrec := ih (by simp) (by simpa using hlast)
          rw [split_cons, hsplit]
          rw [hsplit] at hrec
          by_cases hc : c = '/'
          · simpa [hc, List.getLast?_cons_cons] using hrec
          · cases rest with
            | nil => simp [hc]
            | cons next rest => simpa [hc, List.getLast?_cons_cons] using hrec

/-! ## Components -/

theorem components_append_slash (path : GoString) :
    components (path ++ ['/']) = components path := by
  rw [components, split_append_slash, split_nil, List.filter_append]
  simp [components]

/-- Trailing slashes name no component. -/
theorem components_trimRight (path : GoString) : components (trimRight path) = components path := by
  induction path using List.reverseRecOn with
  | nil => rfl
  | append_singleton path c ih =>
      by_cases hc : c = '/'
      · subst hc
        rw [components_append_slash, ← ih, trimRight, List.rdropWhile_concat_pos _ _ _ (by simp)]
        rfl
      · rw [trimRight, List.rdropWhile_concat_neg _ _ _ (by simpa using hc)]

/-- Trimming takes away empty segments at the end. -/
theorem split_trimRight (path : GoString) :
    ∃ count, split path = split (trimRight path) ++ List.replicate count [] := by
  induction path using List.reverseRecOn with
  | nil => exact ⟨0, rfl⟩
  | append_singleton path c ih =>
      by_cases hc : c = '/'
      · subst hc
        obtain ⟨count, hcount⟩ := ih
        refine ⟨count + 1, ?_⟩
        have htrim : trimRight (path ++ ['/']) = trimRight path := by
          rw [trimRight, List.rdropWhile_concat_pos _ _ _ (by simp)]
          rfl
        rw [htrim, split_append_slash, hcount, split_nil, List.append_assoc,
          List.replicate_succ']
      · refine ⟨0, ?_⟩
        rw [trimRight, List.rdropWhile_concat_neg _ _ _ (by simpa using hc), List.replicate_zero,
          List.append_nil]

/-- Cutting a path at its last slash takes away the last segment. -/
theorem split_of_beforeLastSlash {path dir : GoString} (h : beforeLastSlash path = some dir) :
    ∃ last, split path = split dir ++ [last] := by
  have hparts := List.takeWhile_append_dropWhile (p := (· != '/')) (l := path.reverse)
  rw [beforeLastSlash] at h
  cases hdrop : path.reverse.dropWhile (· != '/') with
  | nil =>
      rw [hdrop] at h
      cases h
  | cons c rest =>
      rw [hdrop] at h hparts
      cases h
      have hc : c = '/' := by
        have hhead := List.head?_dropWhile_not (· != '/') path.reverse
        rw [hdrop] at hhead
        simpa using hhead
      subst hc
      refine ⟨(path.reverse.takeWhile (· != '/')).reverse, ?_⟩
      have hpath : path = rest.reverse ++ '/' :: (path.reverse.takeWhile (· != '/')).reverse := by
        have hreverse := congrArg List.reverse hparts
        rw [List.reverse_append, List.reverse_cons, List.reverse_reverse, List.append_assoc,
          List.singleton_append] at hreverse
        exact hreverse.symm
      have hslash : '/' ∉ (path.reverse.takeWhile (· != '/')).reverse := by
        rw [List.mem_reverse]
        intro hmem
        simpa using List.mem_takeWhile_imp hmem
      conv_lhs => rw [hpath]
      rw [split_append_slash, split_of_slash_notMem hslash]

theorem components_append (dir name : GoString) :
    components (dir ++ '/' :: name) = components dir ++ components name := by
  rw [components, split_append_slash, List.filter_append]
  rfl

/-- A relative path stays relative when it is trimmed. -/
theorem isRooted_trimRight {path : GoString} (h : isRooted path = false) :
    isRooted (trimRight path) = false := by
  cases hrooted : isRooted (trimRight path) with
  | false => rfl
  | true =>
      obtain ⟨rest, hrest⟩ : ∃ rest, trimRight path = '/' :: rest := by
        unfold isRooted at hrooted
        split at hrooted
        next rest heq => exact ⟨rest, heq⟩
        next => cases hrooted
      obtain ⟨tail, htail⟩ := List.rdropWhile_prefix (· == '/') (l := path)
      change trimRight path ++ tail = path at htail
      rw [hrest] at htail
      rw [← htail] at h
      cases h

theorem isRooted_append {path : GoString} (hne : path ≠ []) (rest : GoString) :
    isRooted (path ++ rest) = isRooted path := by
  cases path with
  | nil => exact absurd rfl hne
  | cons c path => unfold isRooted; simp only [List.cons_append]; split <;> simp_all

/-- Names of directories and files: not empty, and without a slash. -/
def Names (parts : List GoString) : Prop := ∀ part ∈ parts, part ≠ [] ∧ '/' ∉ part

theorem names_nil : Names [] := fun _ h => absurd h List.not_mem_nil

theorem Names.concat {parts : List GoString} {part : GoString} (h : Names parts)
    (hne : part ≠ []) (hslash : '/' ∉ part) : Names (parts ++ [part]) := by
  intro other hother
  rw [List.mem_append, List.mem_singleton] at hother
  rcases hother with hother | rfl
  · exact h other hother
  · exact ⟨hne, hslash⟩

theorem Names.of_concat {parts : List GoString} {part : GoString}
    (h : Names (parts ++ [part])) : Names parts := fun other hother =>
  h other (List.mem_append_left _ hother)

theorem names_components (path : GoString) : Names (components path) := by
  intro part hpart
  rw [components, List.mem_filter] at hpart
  exact ⟨by simpa using hpart.2, slash_notMem_of_mem_split hpart.1⟩

/-- The components of joined names are the names. -/
theorem components_join {parts : List GoString} (h : Names parts) :
    components (join parts) = parts := by
  cases parts with
  | nil => rfl
  | cons part rest =>
      rw [components, split_join (fun other hother => (h other hother).2) (by simp),
        List.filter_eq_self.mpr fun other hother => by simpa using (h other hother).1]

theorem isRooted_join {parts : List GoString} (h : Names parts) :
    isRooted (join parts) = false := by
  cases parts with
  | nil => rfl
  | cons part rest =>
      obtain ⟨hne, hslash⟩ := h part List.mem_cons_self
      have hpart : isRooted part = false := by
        cases part with
        | nil => rfl
        | cons c part =>
            unfold isRooted
            split
            next heq =>
              cases heq
              exact absurd List.mem_cons_self hslash
            next => rfl
      cases rest with
      | nil => rwa [join_singleton]
      | cons next rest => rwa [join_cons_cons, isRooted_append hne]

theorem join_eq_nil_iff {parts : List GoString} (h : Names parts) : join parts = [] ↔ parts = [] := by
  constructor
  · intro hjoin
    have hcomponents := components_join h
    rw [hjoin] at hcomponents
    exact hcomponents.symm
  · rintro rfl
    rfl

theorem length_join_concat {parts : List GoString} (hne : parts ≠ []) (part : GoString) :
    (join (parts ++ [part])).length = (join parts).length + part.length + 1 := by
  rw [join_concat hne, List.length_append, List.length_cons]
  omega

theorem length_join_le (parts : List GoString) (part : GoString) :
    (join parts).length ≤ (join (parts ++ [part])).length := by
  by_cases hne : parts = []
  · subst hne
    exact Nat.zero_le _
  · rw [length_join_concat hne]
    omega

/-- Appending a name the way paths are built up segment by segment. -/
theorem join_extend {dir : List GoString} (h : Names dir) (part : GoString) :
    (if join dir = [] then part else join dir ++ '/' :: part) = join (dir ++ [part]) := by
  by_cases hnil : dir = []
  · subst hnil
    simp
  · rw [if_neg fun hjoin => hnil ((join_eq_nil_iff h).mp hjoin), join_concat hnil]

/-! ## Cleaning -/

/-- Names that cleaning keeps: `..` at the front only, and no `.`. -/
def Settled (parts : List GoString) : Prop :=
  ∃ ups names, parts = ups ++ names ∧ (∀ part ∈ ups, part = ['.', '.']) ∧
    ∀ part ∈ names, part ≠ ['.'] ∧ part ≠ ['.', '.']

theorem settled_of_no_dots {parts : List GoString}
    (h : ∀ part ∈ parts, part ≠ ['.'] ∧ part ≠ ['.', '.']) : Settled parts :=
  ⟨[], parts, rfl, fun _ hpart => absurd hpart List.not_mem_nil, h⟩

theorem Settled.of_concat {parts : List GoString} {part : GoString}
    (h : Settled (parts ++ [part])) : Settled parts := by
  obtain ⟨ups, names, heq, hups, hnames⟩ := h
  rcases List.eq_nil_or_concat names with rfl | ⟨init, last, rfl⟩
  · rw [List.append_nil] at heq
    refine ⟨parts, [], (List.append_nil parts).symm, ?_, fun _ hpart => absurd hpart List.not_mem_nil⟩
    intro other hother
    exact hups other (heq ▸ List.mem_append_left _ hother)
  · rw [List.concat_eq_append, ← List.append_assoc] at heq
    obtain ⟨rfl, -⟩ := List.append_inj' heq rfl
    refine ⟨ups, init, rfl, hups, ?_⟩
    intro other hother
    exact hnames other (by simp [hother])

theorem Settled.of_append {above below : List GoString} (h : Settled (above ++ below)) :
    Settled above := by
  induction below using List.reverseRecOn with
  | nil => rwa [List.append_nil] at h
  | append_singleton below part ih =>
      rw [← List.append_assoc] at h
      exact ih h.of_concat

theorem foldl_cleanStep_ups {kept ups : List GoString} (hkept : ∀ part ∈ kept, part = ['.', '.'])
    (hups : ∀ part ∈ ups, part = ['.', '.']) :
    ups.foldl (cleanStep false) kept = ups.reverse ++ kept := by
  induction ups generalizing kept with
  | nil => rfl
  | cons part ups ih =>
      have hpart : part = ['.', '.'] := hups part List.mem_cons_self
      have hstep : cleanStep false kept part = part :: kept := by
        unfold cleanStep
        rw [if_neg (by simp [hpart]), if_pos hpart]
        cases kept with
        | nil => rfl
        | cons last rest =>
            have hlast : last = ['.', '.'] := hkept last List.mem_cons_self
            exact if_pos hlast
      rw [List.foldl_cons, hstep, ih, List.reverse_cons, List.append_assoc, List.singleton_append]
      · intro other hother
        rcases List.mem_cons.mp hother with rfl | hother
        · exact hpart
        · exact hkept other hother
      · exact fun other hother => hups other (List.mem_cons_of_mem _ hother)

theorem foldl_cleanStep_names {kept names : List GoString}
    (hnames : ∀ part ∈ names, part ≠ [] ∧ part ≠ ['.'] ∧ part ≠ ['.', '.']) :
    names.foldl (cleanStep false) kept = names.reverse ++ kept := by
  induction names generalizing kept with
  | nil => rfl
  | cons part names ih =>
      obtain ⟨hne, hdot, hdots⟩ := hnames part List.mem_cons_self
      have hstep : cleanStep false kept part = part :: kept := by
        unfold cleanStep
        rw [if_neg (by simp [hne, hdot]), if_neg hdots]
      rw [List.foldl_cons, hstep, ih fun other hother => hnames other (List.mem_cons_of_mem _ hother),
        List.reverse_cons, List.append_assoc, List.singleton_append]

theorem Settled.foldl_cleanStep {parts : List GoString} (h : Settled parts) (hnames : Names parts) :
    parts.foldl (cleanStep false) [] = parts.reverse := by
  obtain ⟨ups, names, rfl, hups, hdots⟩ := h
  rw [List.foldl_append, foldl_cleanStep_ups (fun _ hpart => absurd hpart List.not_mem_nil) hups,
    foldl_cleanStep_names, List.append_nil, List.reverse_append]
  intro part hpart
  exact ⟨(hnames part (List.mem_append_right _ hpart)).1, hdots part hpart⟩

/-- Cleaning joined names. -/
theorem clean_join {parts : List GoString} (hnames : Names parts) (hne : parts ≠ []) :
    clean (join parts) = if parts.foldl (cleanStep false) [] = [] then ['.']
      else join (parts.foldl (cleanStep false) []).reverse := by
  unfold clean
  rw [isRooted_join hnames, if_neg (by simp),
    split_join (fun part hpart => (hnames part hpart).2) hne]
  simp only [List.reverse_eq_nil_iff]

theorem Settled.clean_join {parts : List GoString} (h : Settled parts) (hnames : Names parts)
    (hne : parts ≠ []) : clean (join parts) = join parts := by
  rw [SlashPath.clean_join hnames hne, h.foldl_cleanStep hnames, if_neg (by simpa using hne),
    List.reverse_reverse]

/-- Whatever is cleaned, what is kept stays settled. -/
theorem settled_cleanStep {kept : List GoString} (h : Settled kept.reverse) (part : GoString) :
    Settled (cleanStep false kept part).reverse := by
  rw [cleanStep.eq_def]
  by_cases hempty : part = [] ∨ part = ['.']
  · rwa [if_pos hempty]
  · rw [if_neg hempty]
    by_cases hup : part = ['.', '.']
    · rw [if_pos hup]
      cases kept with
      | nil =>
          refine ⟨[part], [], rfl, ?_, fun _ hpart => absurd hpart List.not_mem_nil⟩
          intro other hother
          rwa [List.mem_singleton.mp hother]
      | cons last rest =>
          simp only
          split
          next hlast =>
            obtain ⟨ups, names, heq, hups, hdots⟩ := h
            rw [List.reverse_cons] at heq
            -- a name cannot be the last one kept
            have hnil : names = [] := by
              rcases List.eq_nil_or_concat names with hnil | ⟨init, name, rfl⟩
              · exact hnil
              · rw [List.concat_eq_append, ← List.append_assoc] at heq
                obtain ⟨-, hname⟩ := List.append_inj' heq rfl
                have hne := (hdots name (by simp)).2
                exact absurd ((List.cons.inj hname).1.symm.trans hlast) hne
            rw [hnil, List.append_nil] at heq
            refine ⟨ups ++ [part], [], ?_, ?_, fun _ hpart => absurd hpart List.not_mem_nil⟩
            · rw [List.reverse_cons, List.reverse_cons, heq, List.append_nil]
            · intro other hother
              rcases List.mem_append.mp hother with hother | hother
              · exact hups other hother
              · rwa [List.mem_singleton.mp hother]
          next =>
            rw [List.reverse_cons] at h
            exact h.of_concat
    · rw [if_neg hup, List.reverse_cons]
      obtain ⟨ups, names, heq, hups, hdots⟩ := h
      refine ⟨ups, names ++ [part], by rw [heq, List.append_assoc], hups, ?_⟩
      intro other hother
      rcases List.mem_append.mp hother with hother | hother
      · exact hdots other hother
      · rw [List.mem_singleton.mp hother]
        exact ⟨fun hdot => hempty (.inr hdot), hup⟩

theorem mem_cleanStep {rooted : Bool} {kept : List GoString} {part other : GoString}
    (h : other ∈ cleanStep rooted kept part) : other ∈ kept ∨ other = part := by
  rw [cleanStep.eq_def] at h
  split at h
  next => exact .inl h
  next =>
    split at h
    next =>
      cases kept with
      | nil =>
          cases rooted with
          | true => exact absurd h List.not_mem_nil
          | false => exact .inr (List.mem_singleton.mp h)
      | cons last rest =>
          simp only at h
          split at h
          next => exact (List.mem_cons.mp h).symm
          next => exact .inl (List.mem_cons_of_mem _ h)
    next => exact (List.mem_cons.mp h).symm

/-- Cleaned names are settled names, or a single `.`. -/
theorem exists_clean_join {parts : List GoString} (hnames : Names parts) (hne : parts ≠ []) :
    ∃ kept, Names kept ∧ (kept = [['.']] ∨ Settled kept) ∧ clean (join parts) = join kept := by
  have hsettled : ∀ (all kept : List GoString), Settled kept.reverse →
      Settled (all.foldl (cleanStep false) kept).reverse := by
    intro all
    induction all with
    | nil => exact fun _ h => h
    | cons part all ih => exact fun kept h => ih _ (settled_cleanStep h part)
  have hmem : ∀ (all kept : List GoString), ∀ other ∈ all.foldl (cleanStep false) kept,
      other ∈ kept ∨ other ∈ all := by
    intro all
    induction all with
    | nil => exact fun _ _ h => .inl h
    | cons part all ih =>
        intro kept other hother
        rcases ih _ other hother with hkept | hall
        · rcases mem_cleanStep hkept with hkept | rfl
          · exact .inl hkept
          · exact .inr List.mem_cons_self
        · exact .inr (List.mem_cons_of_mem _ hall)
  rw [clean_join hnames hne]
  by_cases hnil : parts.foldl (cleanStep false) [] = []
  · rw [if_pos hnil]
    refine ⟨[['.']], ?_, .inl rfl, rfl⟩
    intro part hpart
    rw [List.mem_singleton.mp hpart]
    decide
  · rw [if_neg hnil]
    refine ⟨_, ?_, .inr (hsettled parts [] (settled_of_no_dots (by simp))), rfl⟩
    intro part hpart
    rcases hmem parts [] part (List.mem_reverse.mp hpart) with hkept | hall
    · exact absurd hkept List.not_mem_nil
    · exact hnames part hall

/-- Cleaning leaves something of every path. -/
theorem clean_ne_nil (path : GoString) : clean path ≠ [] := by
  have hkept : ∀ (parts kept : List GoString), (∀ part ∈ kept, part ≠ []) →
      ∀ part ∈ parts.foldl (cleanStep (isRooted path)) kept, part ≠ [] := by
    intro parts
    induction parts with
    | nil => exact fun _ h => h
    | cons part parts ih =>
        intro kept h
        apply ih
        intro other hother
        by_cases hpart : part = []
        · rw [cleanStep.eq_def, if_pos (.inl hpart)] at hother
          exact h other hother
        · rcases mem_cleanStep hother with hother | rfl
          · exact h other hother
          · exact hpart
  unfold clean
  simp only
  split
  next => simp
  next =>
    split
    next => simp
    next hne =>
      have hparts := hkept (split path) [] (by simp)
      obtain ⟨first, rest, hreverse⟩ := List.exists_cons_of_ne_nil hne
      have hfirst : first ≠ [] := hparts first (by rw [← List.mem_reverse, hreverse]; simp)
      rw [hreverse]
      cases rest with
      | nil => simpa [join] using hfirst
      | cons next rest =>
          rw [join_cons_cons]
          simp

theorem joinClean_ne_nil (dir : GoString) {name : GoString} (h : name ≠ []) :
    joinClean dir name ≠ [] := by
  rw [joinClean, if_neg fun hboth => h hboth.2]
  split
  · exact clean_ne_nil name
  · exact clean_ne_nil _

/-- A path of non-empty components, or the empty path. -/
def Plain (path : GoString) : Prop := path = [] ∨ [] ∉ split path

instance (path : GoString) : Decidable (Plain path) := inferInstanceAs (Decidable (_ ∨ _))

theorem Plain.trimRight_eq {path : GoString} (h : Plain path) : trimRight path = path := by
  rcases h with rfl | h
  · rfl
  · rw [trimRight, List.rdropWhile_eq_self_iff]
    intro hne hlast
    rw [beq_iff_eq] at hlast
    have hpath := List.dropLast_append_getLast hne
    rw [hlast] at hpath
    rw [← hpath, split_append_slash, split_nil] at h
    simp at h

theorem Plain.isRooted_eq {path : GoString} (h : Plain path) : isRooted path = false := by
  rcases h with rfl | h
  · rfl
  · rw [← join_split path]
    refine isRooted_join fun part hpart => ⟨?_, slash_notMem_of_mem_split hpart⟩
    rintro rfl
    exact h hpart

theorem plain_join {parts : List GoString} (h : Names parts) : Plain (join parts) := by
  by_cases hnil : parts = []
  · exact .inl ((join_eq_nil_iff h).mpr hnil)
  · refine .inr ?_
    rw [split_join (fun part hpart => (h part hpart).2) hnil]
    exact fun hmem => (h [] hmem).1 rfl

theorem Plain.components_eq {path : GoString} (h : Plain path) (hne : path ≠ []) :
    components path = split path := by
  refine List.filter_eq_self.mpr fun part hpart => ?_
  have hsplit := h.resolve_left hne
  simp only [ne_eq, decide_not, Bool.not_eq_eq_eq_not, Bool.not_true, decide_eq_false_iff_not]
  rintro rfl
  exact hsplit hpart

end SlashPath

end Grits
