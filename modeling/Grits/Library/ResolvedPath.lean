import Grits.Library.CaseMapping

/-!
# Paths below a directory

What `filepath.Join` gives for a directory and a path that does not climb out of it: the
cleaned directory, followed by the components that are left of the path when its dots are
resolved.
-/

namespace Grits

namespace SlashPath

/-- The components that cleaning keeps of a path, the last one first. -/
def kept (rooted : Bool) (path : GoString) : List GoString :=
  (split path).foldl (cleanStep rooted) []

/-- The path of the components that cleaning keeps. -/
def render (rooted : Bool) (names : List GoString) : GoString :=
  if rooted then '/' :: join names else if names = [] then ['.'] else join names

theorem clean_eq_render (path : GoString) :
    clean path = render (isRooted path) (kept (isRooted path) path).reverse := rfl

/-- The components left of a path, seen from some directory, when its dots are resolved. -/
def resolved (path : GoString) : List GoString := (kept false path).reverse

/-! ## Cleaning twice -/

/-- Whatever ends the list of kept components is kept again. -/
def KeptAgain (rooted : Bool) (kept : List GoString) : Prop :=
  ∀ tail, tail <:+ kept → tail.reverse.foldl (cleanStep rooted) [] = tail

theorem keptAgain_nil (rooted : Bool) : KeptAgain rooted [] := by
  intro tail htail
  rw [List.suffix_nil.mp htail]
  rfl

theorem KeptAgain.push {rooted : Bool} {kept : List GoString} (h : KeptAgain rooted kept)
    {part : GoString} (hpart : cleanStep rooted kept part = part :: kept) :
    KeptAgain rooted (part :: kept) := by
  intro tail htail
  rcases List.suffix_cons_iff.mp htail with rfl | htail
  · rw [List.reverse_cons, List.foldl_append, h kept (List.suffix_refl kept)]
    exact hpart
  · exact h tail htail

theorem KeptAgain.step {rooted : Bool} {kept : List GoString} (h : KeptAgain rooted kept)
    (part : GoString) : KeptAgain rooted (cleanStep rooted kept part) := by
  by_cases hskip : part = [] ∨ part = ['.']
  · rwa [cleanStep.eq_def, if_pos hskip]
  · by_cases hup : part = ['.', '.']
    · cases kept with
      | nil =>
          cases rooted with
          | true =>
              rw [cleanStep.eq_def, if_neg hskip, if_pos hup]
              exact keptAgain_nil true
          | false =>
              have hstep : cleanStep false [] part = [part] := by
                rw [cleanStep.eq_def, if_neg hskip, if_pos hup]
                rfl
              rw [hstep]
              exact h.push hstep
      | cons last rest =>
          by_cases hlast : last = ['.', '.']
          · have hstep : cleanStep rooted (last :: rest) part = part :: last :: rest := by
              rw [cleanStep.eq_def, if_neg hskip, if_pos hup]
              exact if_pos hlast
            rw [hstep]
            exact h.push hstep
          · have hstep : cleanStep rooted (last :: rest) part = rest := by
              rw [cleanStep.eq_def, if_neg hskip, if_pos hup]
              exact if_neg hlast
            rw [hstep]
            exact fun tail htail => h tail (htail.trans (List.suffix_cons last rest))
    · have hstep : cleanStep rooted kept part = part :: kept := by
        rw [cleanStep.eq_def, if_neg hskip, if_neg hup]
      rw [hstep]
      exact h.push hstep

theorem KeptAgain.foldl {rooted : Bool} {kept : List GoString} (h : KeptAgain rooted kept)
    (parts : List GoString) : KeptAgain rooted (parts.foldl (cleanStep rooted) kept) := by
  induction parts generalizing kept with
  | nil => exact h
  | cons part parts ih => exact ih (h.step part)

theorem cleanStep_nil (rooted : Bool) (kept : List GoString) : cleanStep rooted kept [] = kept :=
  if_pos (.inl rfl)

/-- The components kept of a path are names. -/
theorem names_foldl_cleanStep {rooted : Bool} {parts kept : List GoString}
    (hparts : ∀ part ∈ parts, '/' ∉ part) (hkept : Names kept) :
    Names (parts.foldl (cleanStep rooted) kept) := by
  induction parts generalizing kept with
  | nil => exact hkept
  | cons part parts ih =>
      apply ih fun other hother => hparts other (List.mem_cons_of_mem _ hother)
      intro other hother
      by_cases hempty : part = []
      · rw [hempty, cleanStep_nil] at hother
        exact hkept other hother
      · rcases mem_cleanStep hother with hother | rfl
        · exact hkept other hother
        · exact ⟨hempty, hparts other List.mem_cons_self⟩

theorem Names.reverse {parts : List GoString} (h : Names parts) : Names parts.reverse :=
  fun part hpart => h part (List.mem_reverse.mp hpart)

theorem names_kept (rooted : Bool) (path : GoString) : Names (kept rooted path) :=
  names_foldl_cleanStep (fun _ hpart => slash_notMem_of_mem_split hpart) names_nil

theorem isRooted_render {rooted : Bool} {names : List GoString} (h : Names names) :
    isRooted (render rooted names) = rooted := by
  cases rooted with
  | true => rfl
  | false =>
      by_cases hnil : names = []
      · rw [hnil]
        rfl
      · rw [render, if_neg (by simp), if_neg hnil]
        exact isRooted_join h

theorem kept_render {rooted : Bool} {names : List GoString} (h : Names names) :
    kept rooted (render rooted names) = names.foldl (cleanStep rooted) [] := by
  by_cases hnil : names = []
  · subst hnil
    cases rooted <;> rfl
  · have hsplit : split (join names) = names := split_join (fun part hpart => (h part hpart).2) hnil
    cases rooted with
    | true =>
        change (split ('/' :: join names)).foldl (cleanStep true) [] = _
        rw [split_cons, if_pos rfl, List.foldl_cons, cleanStep_nil, hsplit]
    | false =>
        rw [render, if_neg (by simp), if_neg hnil, kept, hsplit]

/-- Cleaning a path again keeps the same components. -/
theorem kept_clean (path : GoString) :
    kept (isRooted path) (clean path) = kept (isRooted path) path := by
  rw [clean_eq_render, kept_render (names_kept _ path).reverse]
  exact (keptAgain_nil _).foldl (split path) _ (List.suffix_refl _)

theorem isRooted_clean (path : GoString) : isRooted (clean path) = isRooted path :=
  isRooted_render (names_kept _ path).reverse

theorem kept_append (rooted : Bool) (dir name : GoString) :
    kept rooted (dir ++ '/' :: name) = (split name).foldl (cleanStep rooted) (kept rooted dir) := by
  rw [kept, split_append_slash, List.foldl_append]
  rfl

/-- What is joined to a cleaned path is joined to the path. -/
theorem clean_clean_append {path : GoString} (hne : path ≠ []) (name : GoString) :
    clean (clean path ++ '/' :: name) = clean (path ++ '/' :: name) := by
  rw [clean_eq_render, clean_eq_render (path ++ _), isRooted_append (clean_ne_nil path),
    isRooted_append hne, isRooted_clean, kept_append, kept_append, kept_clean]

/-! ## Below a directory -/

theorem mem_foldl_of_dots {parts names : List GoString} (h : ['.', '.'] ∈ names) :
    ['.', '.'] ∈ parts.foldl (cleanStep false) names := by
  induction parts generalizing names with
  | nil => exact h
  | cons part parts ih =>
      apply ih
      rw [cleanStep.eq_def]
      split
      next => exact h
      next =>
        split
        next hup =>
          cases names with
          | nil => exact absurd h List.not_mem_nil
          | cons last rest =>
              simp only
              split
              next => exact List.mem_cons_of_mem _ h
              next hlast => exact (List.mem_cons.mp h).resolve_left (Ne.symm hlast)
        next => exact List.mem_cons_of_mem _ h

theorem cleanStep_append {rooted : Bool} {names : List GoString} {part : GoString}
    (h : ['.', '.'] ∉ cleanStep false names part) (above : List GoString) :
    cleanStep rooted (names ++ above) part = cleanStep false names part ++ above := by
  rw [cleanStep.eq_def] at h ⊢
  rw [cleanStep.eq_def false]
  by_cases hskip : part = [] ∨ part = ['.']
  · rw [if_pos hskip, if_pos hskip]
  · rw [if_neg hskip] at h ⊢
    rw [if_neg hskip]
    by_cases hup : part = ['.', '.']
    · rw [if_pos hup] at h ⊢
      rw [if_pos hup]
      cases names with
      | nil => exact absurd (List.mem_singleton.mpr hup.symm) h
      | cons last rest =>
          simp only [List.cons_append] at h ⊢
          by_cases hlast : last = ['.', '.']
          · rw [if_pos hlast, hup] at h
            exact absurd List.mem_cons_self h
          · rw [if_neg hlast, if_neg hlast]
    · rw [if_neg hup, if_neg hup]
      rfl

/-- A path that does not climb out leaves what it is joined to as it is. -/
theorem foldl_cleanStep_append {rooted : Bool} {parts names : List GoString}
    (h : ['.', '.'] ∉ parts.foldl (cleanStep false) names) (above : List GoString) :
    parts.foldl (cleanStep rooted) (names ++ above) =
      parts.foldl (cleanStep false) names ++ above := by
  induction parts generalizing names with
  | nil => rfl
  | cons part parts ih =>
      have hstep : ['.', '.'] ∉ cleanStep false names part := mt mem_foldl_of_dots h
      rw [List.foldl_cons, cleanStep_append hstep]
      exact ih h

theorem join_append {above below : List GoString} (habove : above ≠ []) (hbelow : below ≠ []) :
    join (above ++ below) = join above ++ '/' :: join below := by
  induction above with
  | nil => exact absurd rfl habove
  | cons part above ih =>
      cases above with
      | nil =>
          obtain ⟨first, rest, rfl⟩ := List.exists_cons_of_ne_nil hbelow
          exact (join_cons_cons part first rest).trans (by rw [join_singleton])
      | cons next above =>
          rw [List.cons_append, List.cons_append, join_cons_cons, join_cons_cons]
          have htail := ih (List.cons_ne_nil _ _)
          rw [List.cons_append] at htail
          rw [htail, List.append_assoc, List.cons_append]

theorem render_append {rooted : Bool} {above below : List GoString} (habove : above ≠ [])
    (hbelow : below ≠ []) :
    render rooted (above ++ below) = render rooted above ++ '/' :: join below := by
  have hne : above ++ below ≠ [] := by simp [habove]
  unfold render
  rw [join_append habove hbelow, if_neg habove, if_neg hne]
  cases rooted <;> rfl

/-- A path that does not climb out of the directory it is joined to. -/
theorem clean_append {dir name : GoString} (hdir : kept (isRooted dir) dir ≠ [])
    (hname : resolved name ≠ []) (hdots : ['.', '.'] ∉ resolved name) :
    clean (dir ++ '/' :: name) = clean dir ++ '/' :: join (resolved name) := by
  have hne : dir ≠ [] := by
    rintro rfl
    exact hdir rfl
  have hkept := @foldl_cleanStep_append (isRooted dir) (split name) []
    (mt List.mem_reverse.mpr hdots) (kept (isRooted dir) dir)
  rw [List.nil_append] at hkept
  rw [clean_eq_render, clean_eq_render dir, isRooted_append hne, kept_append, hkept,
    List.reverse_append]
  exact render_append (by simpa using hdir) hname

/-! ## Letter case -/

variable {m : CaseMapping}

theorem lower_eq_dots_iff (part : GoString) :
    m.lower part = ['.', '.'] ↔ part = ['.', '.'] :=
  CaseMapping.lower_eq_iff (by simp) part

theorem cleanStep_lower (rooted : Bool) (names : List GoString) (part : GoString) :
    cleanStep rooted (names.map m.lower) (m.lower part) =
      (cleanStep rooted names part).map m.lower := by
  have hdot : m.lower part = ['.'] ↔ part = ['.'] := CaseMapping.lower_eq_iff (by simp) part
  rw [cleanStep.eq_def, cleanStep.eq_def]
  simp only [CaseMapping.lower_eq_nil_iff, hdot, lower_eq_dots_iff]
  split
  next => rfl
  next =>
    split
    next =>
      cases names with
      | nil => cases rooted <;> rfl
      | cons last rest =>
          simp only [List.map_cons, lower_eq_dots_iff]
          split
          next => rfl
          next => rfl
    next => rfl

/-- Resolving the dots does not touch the letters. -/
theorem resolved_lower (path : GoString) :
    resolved (m.lower path) = (resolved path).map m.lower := by
  have hfold : ∀ parts names : List GoString,
      (parts.map m.lower).foldl (cleanStep false) (names.map m.lower) =
        (parts.foldl (cleanStep false) names).map m.lower := by
    intro parts
    induction parts with
    | nil => exact fun _ => rfl
    | cons part parts ih =>
        intro names
        rw [List.map_cons, List.foldl_cons, cleanStep_lower, ih]
        rfl
  unfold resolved kept split
  rw [CaseMapping.splitOn_lower (by decide) (by decide), List.map_reverse]
  exact congrArg List.reverse (hfold _ [])

end SlashPath

end Grits
