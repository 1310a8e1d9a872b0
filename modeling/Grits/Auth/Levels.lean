import Grits.Auth.ReadOnly
import Grits.NameStore.Volume

/-!
# What a grant means below its directory

`resolvePermissionAtRoot` sorts the grants on the way to a path by the segments
that follow their directory.  In terms of the names on the way: a grant is at
the target, at the parent of a `.grits` directory, or inherited.  An empty
segment hides a `.grits` that follows it.
-/

namespace Grits

open Prog SlashPath

/-! ## Segments and names -/

/-- Every name on the way to a path is one of its segments. -/
theorem exists_segment {path : GoString} {above below : List GoString} {name : GoString}
    (h : components path = above ++ name :: below) :
    ∃ front back, split (trimRight path) = front ++ name :: back ∧ name ≠ [] ∧
      front.filter (· ≠ []) = above ∧ back.filter (· ≠ []) = below := by
  rw [← components_trimRight, components] at h
  obtain ⟨front, middle, hsplit, hfront, hmiddle⟩ := List.filter_eq_append_iff.mp h
  obtain ⟨empties, back, hback, hempties, hname, hbelow⟩ := List.filter_eq_cons_iff.mp hmiddle
  refine ⟨front ++ empties, back, ?_, by simpa using hname, ?_, hbelow⟩
  · rw [hsplit, hback, List.append_assoc]
  · have hnil : empties.filter (· ≠ []) = [] := List.filter_eq_nil_iff.mpr hempties
    rw [List.filter_append, hfront, hnil, List.append_nil]

/-- The names before and after a segment. -/
theorem components_of_segments {path : GoString} {front back : List GoString} {name : GoString}
    (h : split (trimRight path) = front ++ name :: back) (hne : name ≠ []) :
    components path = front.filter (· ≠ []) ++ name :: back.filter (· ≠ []) := by
  rw [← components_trimRight, components, h, List.filter_append,
    List.filter_cons_of_pos (by simpa using hne)]

theorem levelOf_eq_gritsParent_iff {rest : List GoString} :
    levelOf rest = .gritsParent ↔ rest.head? = some gritsDir := by
  cases rest with
  | nil => simp [levelOf]
  | cons next rest =>
      rw [levelOf, List.head?_cons]
      split
      next h => simp [h]
      next h => simp [h]

theorem levelOf_eq_atTarget_iff {rest : List GoString} : levelOf rest = .atTarget ↔ rest = [] := by
  cases rest with
  | nil => simp [levelOf]
  | cons next rest =>
      rw [levelOf]
      split <;> simp

theorem gritsDir_ne_nil : gritsDir ≠ [] := by decide

/-- A `.grits` segment is the next name. -/
theorem head?_filter_of_grits {rest : List GoString} (h : rest.head? = some gritsDir) :
    (rest.filter (· ≠ [])).head? = some gritsDir := by
  cases rest with
  | nil => cases h
  | cons next rest =>
      rw [List.head?_cons, Option.some.injEq] at h
      subst h
      rw [List.filter_cons_of_pos (by simpa using gritsDir_ne_nil), List.head?_cons]

/-- Where the path ends, no segment follows. -/
theorem eq_nil_of_names_nil {path : GoString} {front back : List GoString} {name : GoString}
    (h : split (trimRight path) = front ++ name :: back)
    (hback : back.filter (· ≠ []) = []) : back = [] := by
  rcases List.eq_nil_or_concat back with hnil | ⟨init, last, rfl⟩
  · exact hnil
  · exfalso
    have hlast : last = [] := by
      have := List.filter_eq_nil_iff.mp hback last (by simp)
      simpa using this
    have hpath : trimRight path ≠ [] := by
      intro hnil
      rw [hnil, split_nil] at h
      have hlength := congrArg List.length h
      simp at hlength
      omega
    refine getLast?_split_ne_nil hpath (getLast?_trimRight_ne_slash path) ?_
    rw [h, hlast, List.concat_eq_append, ← List.cons_append, ← List.append_assoc,
      List.getLast?_concat]

/-- Of a path without empty segments, the segments are the names. -/
theorem filter_of_plain {path : GoString} (hplain : Plain path) {front back : List GoString}
    {name : GoString} (h : split (trimRight path) = front ++ name :: back) (hne : name ≠ []) :
    front.filter (· ≠ []) = front ∧ back.filter (· ≠ []) = back := by
  rw [hplain.trimRight_eq] at h
  have hall : ∀ part ∈ split path, part ≠ [] := by
    rcases hplain with rfl | hplain
    · rw [split_nil] at h
      cases front with
      | nil => cases h; exact absurd rfl hne
      | cons first front => simp at h
    · intro part hpart hnil
      rw [hnil] at hpart
      exact hplain hpart
  rw [h] at hall
  constructor
  · exact List.filter_eq_self.mpr fun part hpart => by
      simpa using hall part (List.mem_append_left _ hpart)
  · exact List.filter_eq_self.mpr fun part hpart => by
      simpa using hall part (List.mem_append_right _ (List.mem_cons_of_mem _ hpart))

/-! ## Capabilities that are passed on -/

/-- A grant with this permission passes a capability on. -/
def Level.Carries (level : Level) (lastSegIsGrits : Bool) (perm : Permission) (c : Capability) :
    Prop := ∃ p, level.part lastSegIsGrits perm = some p ∧ p.allows c = true

variable {level level' : Level} {b b' : Bool} {perm : Permission}

/-- Reading is passed on whatever the level. -/
theorem carries_read_iff : level.Carries b perm .read ↔ perm.allows .read = true := by
  cases perm <;> cases level <;> cases b <;>
    simp [Level.Carries, Level.part, inheritedPerm, gritsParentPerm, localPerm, Permission.allows,
      canRead]

/-- Owning is passed on whatever the level, and writing becomes owning below. -/
theorem carries_own_iff : level.Carries b perm .own ↔
    perm = .owner ∨ perm = .readWrite ∧ level = .inherited := by
  cases perm <;> cases level <;> cases b <;>
    simp [Level.Carries, Level.part, inheritedPerm, gritsParentPerm, localPerm, Permission.allows,
      canOwn]

/-- Writing is passed on except into `.grits`. -/
theorem carries_write_iff : level.Carries b perm .write ↔
    perm = .owner ∨ perm = .readWrite ∧ (level = .inherited ∨ level = .atTarget ∧ b = false) := by
  cases perm <;> cases level <;> cases b <;>
    simp [Level.Carries, Level.part, inheritedPerm, gritsParentPerm, localPerm, Permission.allows,
      canWrite]

/-- Inserting is passed on where writing is, and holds at the target. -/
theorem carries_insert_iff : level.Carries b perm .insert ↔
    level.Carries b perm .write ∨ level = .atTarget ∧ (perm = .insert ∨ perm = .readInsert) := by
  rw [carries_write_iff]
  cases perm <;> cases level <;> cases b <;>
    simp [Level.Carries, Level.part, inheritedPerm, gritsParentPerm, localPerm, Permission.allows,
      canInsert]

namespace Policy

variable (policy : Policy) (principal : Principal)

/-- A capability at a path comes from the root or from a directory on the way. -/
theorem allows_iff (path : GoString) (c : Capability) :
    (policy.effective principal path).allows c = true ↔
      (∃ g ∈ policy.matching principal [], Level.inherited.Carries false g.permission c) ∨
      ∃ front name back, split (trimRight path) = front ++ name :: back ∧ name ≠ [] ∧
        ∃ g ∈ policy.matching principal (front.filter (· ≠ []) ++ [name]),
          (levelOf back).Carries (name == gritsDir) g.permission c := by
  rw [allows_effective]
  constructor
  · rintro ⟨p, hp, hc⟩
    cases hp with
    | root hg hp => exact .inl ⟨_, hg, p, hp, hc⟩
    | level hpath hseg hg hp => exact .inr ⟨_, _, _, hpath, hseg, _, hg, p, hp, hc⟩
  · rintro (⟨g, hg, p, hp, hc⟩ | ⟨front, name, back, hpath, hseg, g, hg, p, hp, hc⟩)
    · exact ⟨p, .root hg hp, hc⟩
    · exact ⟨p, .level hpath hseg hg hp, hc⟩

/-! ## Down the tree -/

/-- More grants allow more. -/
theorem effective_le {policy policy' : Policy}
    (h : ∀ dir, ∀ g ∈ policy dir, g ∈ policy' dir) (path : GoString) :
    (policy.effective principal path).Le (policy'.effective principal path) := by
  have hmatching : ∀ dir, ∀ g ∈ policy.matching principal dir,
      g ∈ policy'.matching principal dir := by
    intro dir g hg
    obtain ⟨hmem, hmatches⟩ := List.mem_filter.mp hg
    exact List.mem_filter.mpr ⟨h dir g hmem, hmatches⟩
  intro c hc
  rw [allows_iff] at hc ⊢
  rcases hc with ⟨g, hg, hcarries⟩ | ⟨front, name, back, hpath, hname, g, hg, hcarries⟩
  · exact .inl ⟨g, hmatching _ g hg, hcarries⟩
  · exact .inr ⟨front, name, back, hpath, hname, g, hmatching _ g hg, hcarries⟩

variable {policy principal}

/-- What is readable is readable all the way down. -/
theorem allows_read_below {dir path : GoString} {below : List GoString}
    (hbelow : components path = components dir ++ below)
    (h : (policy.effective principal dir).allows .read = true) :
    (policy.effective principal path).allows .read = true := by
  rw [allows_iff] at h ⊢
  rcases h with hroot | ⟨front, name, back, hdir, hname, g, hg, hcarries⟩
  · exact .inl hroot
  · rw [components_of_segments hdir hname, List.append_assoc, List.cons_append] at hbelow
    obtain ⟨front', back', hpath, -, hfront, -⟩ := exists_segment hbelow
    rw [carries_read_iff] at hcarries
    refine .inr ⟨front', name, back', hpath, hname, g, ?_, carries_read_iff.mpr hcarries⟩
    rwa [hfront]

/-- `path` is written as `dir` and something below it; or `dir` has no empty
segments, and `path` may be written in any way. -/
def Extends (dir path : GoString) : Prop :=
  Plain (trimRight dir) ∨ ∃ rest, trimRight path = trimRight dir ++ '/' :: rest

/-- Below a directory that is not followed by `.grits`, the path is not either. -/
theorem levelOf_below {dir path : GoString} {below front back front' back' : List GoString}
    {name : GoString} (hextends : Extends dir path)
    (hbelow : components path = components dir ++ below) (hne : below ≠ [])
    (hhead : below.head? ≠ some gritsDir)
    (hdir : split (trimRight dir) = front ++ name :: back) (hname : name ≠ [])
    (hpath : split (trimRight path) = front' ++ name :: back')
    (hfront : front'.filter (· ≠ []) = front.filter (· ≠ []))
    (hback : back'.filter (· ≠ []) = back.filter (· ≠ []) ++ below)
    (hlevel : levelOf back ≠ .gritsParent) : ∃ front'' back'',
      split (trimRight path) = front'' ++ name :: back'' ∧
      front''.filter (· ≠ []) = front.filter (· ≠ []) ∧ levelOf back'' = .inherited := by
  have hinherited : ∀ rest : List GoString, rest ≠ [] → rest.head? ≠ some gritsDir →
      levelOf rest = .inherited := by
    intro rest hrest hgrits
    cases hlevel : levelOf rest with
    | inherited => rfl
    | gritsParent => exact absurd (levelOf_eq_gritsParent_iff.mp hlevel) hgrits
    | atTarget => exact absurd (levelOf_eq_atTarget_iff.mp hlevel) hrest
  rw [ne_eq, levelOf_eq_gritsParent_iff] at hlevel
  rcases hextends with hplain | ⟨rest, hrest⟩
  · -- the next name is not `.grits`, so the next segment of the path is not
    refine ⟨front', back', hpath, hfront, hinherited back' ?_ fun hgrits => ?_⟩
    · rintro rfl
      simp at hback
      exact hne hback.2
    · have hnext := head?_filter_of_grits hgrits
      rw [← trimRight_trimRight] at hdir
      rw [hback, (filter_of_plain hplain hdir hname).2] at hnext
      cases back with
      | nil => exact hhead (by simpa using hnext)
      | cons next back => exact hlevel (by simpa using hnext)
  · rw [hrest, split_append_slash, hdir] at hpath
    refine ⟨front, back ++ split rest, ?_, rfl, hinherited _ ?_ fun hgrits => ?_⟩
    · rw [hrest, split_append_slash, hdir, List.append_assoc, List.cons_append]
    · exact fun h => split_ne_nil rest (List.append_eq_nil_iff.mp h).2
    · cases back with
      | cons next back => exact hlevel (by simpa using hgrits)
      | nil =>
          have hnext := head?_filter_of_grits hgrits
          rw [List.nil_append] at hnext
          have hrestComponents : components rest = below := by
            have hcomponents : components path = components dir ++ components rest := by
              rw [← components_trimRight path, hrest, components_append, components_trimRight]
            exact List.append_cancel_left (hcomponents.symm.trans hbelow)
          rw [← hrestComponents] at hhead
          exact hhead hnext

/-- What may be written is owned further down, except through `.grits`. -/
theorem allows_own_below {dir path : GoString} {below : List GoString}
    (hextends : Extends dir path) (hbelow : components path = components dir ++ below)
    (hne : below ≠ []) (hhead : below.head? ≠ some gritsDir)
    (h : (policy.effective principal dir).allows .write = true) :
    (policy.effective principal path).allows .own = true := by
  rw [allows_iff] at h ⊢
  rcases h with ⟨g, hg, hcarries⟩ | ⟨front, name, back, hdir, hname, g, hg, hcarries⟩
  · refine .inl ⟨g, hg, carries_own_iff.mpr ?_⟩
    rw [carries_write_iff] at hcarries
    exact hcarries.imp_right fun h => ⟨h.1, rfl⟩
  · have hnames := hbelow
    rw [components_of_segments hdir hname, List.append_assoc, List.cons_append] at hnames
    obtain ⟨front', back', hpath, -, hfront, hback⟩ := exists_segment hnames
    rw [carries_write_iff] at hcarries
    rcases hcarries with howner | ⟨hwrite, hlevel⟩
    · refine .inr ⟨front', name, back', hpath, hname, g, ?_, carries_own_iff.mpr (.inl howner)⟩
      rwa [hfront]
    · have hnot : levelOf back ≠ .gritsParent := by
        rcases hlevel with h | ⟨h, -⟩ <;> rw [h] <;> simp
      obtain ⟨front'', back'', hpath', hfront', hinherited⟩ := levelOf_below hextends hbelow hne
        hhead hdir hname hpath hfront hback hnot
      refine .inr ⟨front'', name, back'', hpath', hname, g, ?_,
        carries_own_iff.mpr (.inr ⟨hwrite, hinherited⟩)⟩
      rwa [hfront']

end Policy

end Grits
