import Grits.Library.SlashPath

/-!
# The paths of the mount

A node of the mount is made with `filepath.Join` of the path of its directory and a name
that the kernel passes, starting from the root, whose path is empty.
-/

namespace Grits

namespace SlashPath

/-- `filepath.Dir(path)`. -/
def dir (path : GoString) : GoString := clean (path.rdropWhile (· ≠ '/'))

/-- `filepath.Base(path)`. -/
def base (path : GoString) : GoString :=
  if path = [] then ['.']
  else
    let last := (trimRight path).rtakeWhile (· ≠ '/')
    if last = [] then ['/'] else last

end SlashPath

namespace Mount

open SlashPath

/-- The names the kernel passes. -/
def FileName (name : GoString) : Prop :=
  name ≠ [] ∧ '/' ∉ name ∧ name ≠ ['.'] ∧ name ≠ ['.', '.']

instance (name : GoString) : Decidable (FileName name) := inferInstanceAs (Decidable (_ ∧ _))

/-- The paths of the nodes. -/
inductive MountPath : GoString → Prop where
  | root : MountPath []
  | child {dir name : GoString} (hdir : MountPath dir) (hname : FileName name) :
      MountPath (joinClean dir name)

/-! ## What they are made of -/

theorem names_of_fileName {names : List GoString} (h : ∀ name ∈ names, FileName name) :
    Names names := fun name hname => ⟨(h name hname).1, (h name hname).2.1⟩

theorem settled_of_fileName {names : List GoString} (h : ∀ name ∈ names, FileName name) :
    Settled names := settled_of_no_dots fun name hname => (h name hname).2.2

theorem clean_join_fileName {names : List GoString} (h : ∀ name ∈ names, FileName name)
    (hne : names ≠ []) : clean (join names) = join names :=
  (settled_of_fileName h).clean_join (names_of_fileName h) hne

theorem joinClean_join {names : List GoString} {name : GoString}
    (h : ∀ part ∈ names ++ [name], FileName part) :
    joinClean (join names) name = join (names ++ [name]) := by
  have hname : FileName name := h name (by simp)
  have hnames : Names names := (names_of_fileName h).of_concat
  rw [joinClean, if_neg fun hboth => hname.1 hboth.2]
  by_cases hnil : names = []
  · subst hnil
    have hclean := clean_join_fileName h (by simp)
    rw [List.nil_append, join_singleton] at hclean
    rw [join_nil, if_pos rfl, List.nil_append, join_singleton]
    exact hclean
  · rw [if_neg fun hjoin => hnil ((join_eq_nil_iff hnames).mp hjoin), ← join_concat hnil]
    exact clean_join_fileName h (by simp)

theorem MountPath.exists_join {path : GoString} (h : MountPath path) :
    ∃ names, (∀ name ∈ names, FileName name) ∧ path = join names := by
  induction h with
  | root => exact ⟨[], by simp, rfl⟩
  | @child dir name hdir hname ih =>
      obtain ⟨names, hnames, rfl⟩ := ih
      have hall : ∀ part ∈ names ++ [name], FileName part := by
        intro part hpart
        rcases List.mem_append.mp hpart with hpart | hpart
        · exact hnames part hpart
        · rwa [List.mem_singleton.mp hpart]
      exact ⟨names ++ [name], hall, joinClean_join hall⟩

theorem MountPath.plain {path : GoString} (h : MountPath path) : Plain path := by
  obtain ⟨names, hnames, rfl⟩ := h.exists_join
  exact plain_join (names_of_fileName hnames)

theorem mountPath_join {names : List GoString} (h : ∀ name ∈ names, FileName name) :
    MountPath (join names) := by
  induction names using List.reverseRecOn with
  | nil => exact .root
  | append_singleton names name ih =>
      rw [← joinClean_join h]
      exact .child (ih fun part hpart => h part (List.mem_append_left _ hpart)) (h name (by simp))

/-! ## Their parents -/

theorem rdropWhile_append_slash (path : GoString) {name : GoString} (h : '/' ∉ name) :
    (path ++ '/' :: name).rdropWhile (· ≠ '/') = path ++ ['/'] := by
  rw [show path ++ '/' :: name = (path ++ ['/']) ++ name by simp]
  induction name using List.reverseRecOn with
  | nil => simp
  | append_singleton name c ih =>
      have hc : c ≠ '/' := fun hc => h (by simp [hc])
      rw [← List.append_assoc, List.rdropWhile_concat_pos _ _ _ (by simpa using hc)]
      exact ih fun hname => h (List.mem_append_left _ hname)

theorem rtakeWhile_append_slash (path : GoString) {name : GoString} (h : '/' ∉ name) :
    (path ++ '/' :: name).rtakeWhile (· ≠ '/') = name := by
  rw [show path ++ '/' :: name = (path ++ ['/']) ++ name by simp]
  induction name using List.reverseRecOn with
  | nil => simp
  | append_singleton name c ih =>
      have hc : c ≠ '/' := fun hc => h (by simp [hc])
      rw [← List.append_assoc, List.rtakeWhile_concat_pos _ _ _ (by simpa using hc),
        ih fun hname => h (List.mem_append_left _ hname)]

theorem clean_append_slash {path : GoString} (h : path ≠ []) : clean (path ++ ['/']) = clean path := by
  have hrooted : isRooted (path ++ ['/']) = isRooted path := by
    cases path with
    | nil => exact absurd rfl h
    | cons c path =>
        rw [List.cons_append]
        unfold isRooted
        split
        next heq =>
          cases heq
          rfl
        next hne =>
          split
          next heq =>
            cases heq
            exact absurd rfl (hne _)
          next => rfl
  have hkept : ∀ rooted, (split (path ++ ['/'])).foldl (cleanStep rooted) [] =
      (split path).foldl (cleanStep rooted) [] := by
    intro rooted
    rw [split_append_slash, split_nil, List.foldl_append]
    rfl
  simp only [clean, hrooted, hkept]

/-- The directory of a path that is not at the top is the path without its last name. -/
theorem dir_join_concat {names : List GoString} {name : GoString} (hne : names ≠ [])
    (h : ∀ part ∈ names ++ [name], FileName part) : dir (join (names ++ [name])) = join names := by
  have hnames : ∀ part ∈ names, FileName part := fun part hpart =>
    h part (List.mem_append_left _ hpart)
  rw [dir, join_concat hne, rdropWhile_append_slash _ (h name (by simp)).2.1, clean_append_slash,
    clean_join_fileName hnames hne]
  exact fun hjoin => hne ((join_eq_nil_iff (names_of_fileName hnames)).mp hjoin)

/-- The directory of a path at the top is not the path of the root. -/
theorem dir_fileName {name : GoString} (h : FileName name) : dir name = ['.'] := by
  have hdrop : name.rdropWhile (· ≠ '/') = [] := by
    rw [List.rdropWhile_eq_nil_iff]
    intro c hc
    have hne : c ≠ '/' := fun heq => h.2.1 (heq ▸ hc)
    simpa using hne
  rw [dir, hdrop]
  rfl

theorem base_join_concat {names : List GoString} {name : GoString}
    (h : ∀ part ∈ names ++ [name], FileName part) : base (join (names ++ [name])) = name := by
  have hname : FileName name := h name (by simp)
  have hjoin : join (names ++ [name]) ≠ [] := fun hjoin => by
    simpa using (join_eq_nil_iff (names_of_fileName h)).mp hjoin
  have htrim : trimRight (join (names ++ [name])) = join (names ++ [name]) :=
    (plain_join (names_of_fileName h)).trimRight_eq
  have hlast : (join (names ++ [name])).rtakeWhile (· ≠ '/') = name := by
    by_cases hnil : names = []
    · rw [hnil, List.nil_append, join_singleton, List.rtakeWhile_eq_self_iff]
      intro c hc
      have hne : c ≠ '/' := fun heq => hname.2.1 (heq ▸ hc)
      simpa using hne
    · rw [join_concat hnil, rtakeWhile_append_slash _ hname.2.1]
  rw [base, if_neg hjoin, htrim]
  simp only [hlast]
  rw [if_neg hname.1]

end Mount

end Grits
