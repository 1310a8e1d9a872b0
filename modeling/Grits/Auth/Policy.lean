import Grits.Auth.AccessConfig

/-!
# What a set of grants allows

A `Policy` gives the grants at every directory.  `Policy.effective` is
`resolvePermissionAtRoot` over a policy instead of a tree, and
`Policy.allows_effective` says what it computes: a capability is allowed at a
path if one of the grants on the way to it, or of the root, carries it there.
-/

namespace Grits

open SlashPath

/-- The grants at each directory, by the names that lead to it. -/
abbrev Policy := List GoString → List Grant

namespace Policy

variable (policy : Policy) (principal : Principal)

/-- The grants at a directory that match a principal. -/
def matching (dir : List GoString) : List Grant :=
  (policy dir).filter fun g => grantMatchesPrincipal g principal

/-- `collectGrants` over a policy. -/
def collect : List GoString → List GoString → Buckets → Buckets
  | [], _, buckets => buckets
  | seg :: rest, dir, buckets =>
      if seg = [] then collect rest dir buckets
      else collect rest (dir ++ [seg]) (buckets.add rest (policy.matching principal (dir ++ [seg])))

/-- `resolvePermissionAtRoot` over a policy. -/
def effective (path : GoString) : Permission :=
  let segments := split (trimRight path)
  let buckets := policy.collect principal segments [] ⟨[], [], []⟩
  let buckets := { buckets with
    inheritedGrants := buckets.inheritedGrants ++ policy.matching principal [] }
  buckets.merge segments

/-- `hasPermissionAtRoot` over a policy. -/
def permitted (principal : PrincipalRef) (path : GoString) (required : Permission) : Bool :=
  match principal with
  | .backend => true
  | .of principal => permits (policy.effective principal path) required

/-- What the lookup callback makes of an entry. -/
def prune (principal : PrincipalRef) (pair : PathNodePair) : PathNodePair :=
  if policy.permitted principal pair.path .read then pair else .failed pair.path .accessDenied

end Policy

/-! ## The buckets -/

/-- The bucket a grant is filed into. -/
inductive Level where
  | inherited
  | gritsParent
  | atTarget
  deriving DecidableEq

/-- The bucket for a directory, by the segments that follow it. -/
def levelOf : List GoString → Level
  | [] => .atTarget
  | next :: _ => if next = gritsDir then .gritsParent else .inherited

/-- The grants of a bucket. -/
def Buckets.get (buckets : Buckets) : Level → List Grant
  | .inherited => buckets.inheritedGrants
  | .gritsParent => buckets.gritsParentGrants
  | .atTarget => buckets.localGrants

/-- What a grant in a bucket contributes. -/
def Level.part (lastSegIsGrits : Bool) : Level → Permission → Option Permission
  | .inherited => inheritedPerm
  | .gritsParent => gritsParentPerm
  | .atTarget => localPerm lastSegIsGrits

theorem Buckets.get_add (buckets : Buckets) (rest : List GoString) (grants : List Grant)
    (level : Level) : (buckets.add rest grants).get level =
      buckets.get level ++ if levelOf rest = level then grants else [] := by
  cases rest with
  | nil => cases level <;> simp [Buckets.add, Buckets.get, levelOf]
  | cons next rest =>
      rw [Buckets.add, levelOf]
      split
      next => cases level <;> simp [Buckets.get]
      next => cases level <;> simp [Buckets.get]

theorem allows_mergeGrants (part : Permission → Option Permission) (merged : Permission)
    (grants : List Grant) (c : Capability) :
    (mergeGrants part merged grants).allows c = true ↔
      merged.allows c = true ∨
        ∃ g ∈ grants, ∃ p, part g.permission = some p ∧ p.allows c = true := by
  unfold mergeGrants
  induction grants generalizing merged with
  | nil => simp
  | cons g rest ih =>
      rw [List.foldl_cons, ih]
      cases hpart : part g.permission with
      | none => simp [hpart]
      | some p => simp [hpart, or_assoc]

/-- A capability of the merged permission comes from a grant in a bucket. -/
theorem Buckets.allows_merge (buckets : Buckets) (segments : List GoString) (c : Capability) :
    (buckets.merge segments).allows c = true ↔
      ∃ level, ∃ g ∈ buckets.get level, ∃ p,
        level.part (segments.getLast? == some gritsDir) g.permission = some p ∧
          p.allows c = true := by
  unfold Buckets.merge
  simp only [allows_mergeGrants, allows_empty, Bool.false_eq_true, false_or]
  constructor
  · rintro ((h | h) | h)
    · exact ⟨.inherited, h⟩
    · exact ⟨.gritsParent, h⟩
    · exact ⟨.atTarget, h⟩
  · rintro ⟨level, h⟩
    cases level with
    | inherited => exact .inl (.inl h)
    | gritsParent => exact .inl (.inr h)
    | atTarget => exact .inr h

/-! ## What is collected -/

namespace Policy

variable (policy : Policy) (principal : Principal)

/-- The collected grants are those at the directories on the way. -/
theorem mem_get_collect (segments dir : List GoString) (buckets : Buckets) (level : Level)
    (g : Grant) : g ∈ (policy.collect principal segments dir buckets).get level ↔
      g ∈ buckets.get level ∨ ∃ above seg rest, segments = above ++ seg :: rest ∧ seg ≠ [] ∧
        levelOf rest = level ∧
          g ∈ policy.matching principal (dir ++ above.filter (· ≠ []) ++ [seg]) := by
  induction segments generalizing dir buckets with
  | nil => simp [collect]
  | cons first rest ih =>
      -- the directories on the way are the first segment's, or one further down
      have hcons : ∀ P : List GoString → GoString → List GoString → Prop,
          (∃ above seg after, first :: rest = above ++ seg :: after ∧ P above seg after) ↔
            P [] first rest ∨ ∃ above seg after, rest = above ++ seg :: after ∧
              P (first :: above) seg after := by
        intro P
        constructor
        · rintro ⟨above, seg, after, heq, hP⟩
          cases above with
          | nil =>
              cases heq
              exact .inl hP
          | cons _ above =>
              cases heq
              exact .inr ⟨above, seg, after, rfl, hP⟩
        · rintro (hP | ⟨above, seg, after, rfl, hP⟩)
          · exact ⟨[], first, rest, rfl, hP⟩
          · exact ⟨first :: above, seg, after, rfl, hP⟩
      rw [collect, hcons]
      by_cases hfirst : first = []
      · rw [if_pos hfirst, ih]
        simp [hfirst]
      · rw [if_neg hfirst, ih, Buckets.get_add, List.mem_append]
        have hnames : ∀ above : List GoString,
            dir ++ [first] ++ above.filter (· ≠ []) = dir ++ (first :: above).filter (· ≠ []) := by
          intro above
          simp [hfirst]
        simp only [hnames, or_assoc]
        by_cases hlevel : levelOf rest = level
        · simp [hlevel, hfirst]
        · simp [hlevel]

/-- A grant at a directory on the way to the path, or at the root, contributes `p`. -/
inductive Contributes (path : GoString) : Permission → Prop
  | root {g : Grant} {p : Permission} (hg : g ∈ policy.matching principal [])
      (hp : inheritedPerm g.permission = some p) : Contributes path p
  | level {above rest : List GoString} {seg : GoString} {g : Grant} {p : Permission}
      (hpath : split (trimRight path) = above ++ seg :: rest) (hseg : seg ≠ [])
      (hg : g ∈ policy.matching principal (above.filter (· ≠ []) ++ [seg]))
      (hp : (levelOf rest).part (seg == gritsDir) g.permission = some p) :
      Contributes path p

theorem part_of_ne {level : Level} (h : level ≠ .atTarget) (b b' : Bool) :
    level.part b = level.part b' := by
  cases level with
  | inherited => rfl
  | gritsParent => rfl
  | atTarget => exact absurd rfl h

/-- Only the last segment can be at the target. -/
theorem part_segment (above rest : List GoString) (seg : GoString) :
    (levelOf rest).part ((above ++ seg :: rest).getLast? == some gritsDir) =
      (levelOf rest).part (seg == gritsDir) := by
  cases rest with
  | nil => simp
  | cons next rest =>
      refine part_of_ne ?_ _ _
      rw [levelOf]
      split <;> simp

/-- The capabilities of the effective permission are those of its contributions. -/
theorem allows_effective (path : GoString) (c : Capability) :
    (policy.effective principal path).allows c = true ↔
      ∃ p, policy.Contributes principal path p ∧ p.allows c = true := by
  unfold effective
  simp only [Buckets.allows_merge]
  have hempty : ∀ level, (⟨[], [], []⟩ : Buckets).get level = [] := by
    intro level
    cases level <;> rfl
  constructor
  · rintro ⟨level, g, hg, p, hp, hc⟩
    have hmem : g ∈ (policy.collect principal (split (trimRight path)) [] ⟨[], [], []⟩).get level ∨
        (level = .inherited ∧ g ∈ policy.matching principal []) := by
      cases level with
      | inherited => exact (List.mem_append.mp hg).imp_right fun h => ⟨rfl, h⟩
      | gritsParent => exact .inl hg
      | atTarget => exact .inl hg
    rcases hmem with hmem | ⟨rfl, hroot⟩
    · rw [mem_get_collect, hempty] at hmem
      obtain ⟨above, seg, rest, hpath, hseg, hlevel, hgrant⟩ :=
        hmem.resolve_left List.not_mem_nil
      rw [hpath, ← hlevel, part_segment] at hp
      exact ⟨p, .level hpath hseg hgrant hp, hc⟩
    · exact ⟨p, .root hroot hp, hc⟩
  · rintro ⟨p, hp, hc⟩
    cases hp with
    | root hg hp => exact ⟨.inherited, _, List.mem_append_right _ hg, p, hp, hc⟩
    | @level above rest seg g _ hpath hseg hg hp =>
        have hmem := (policy.mem_get_collect principal (split (trimRight path)) [] ⟨[], [], []⟩
          (levelOf rest) g).mpr (.inr ⟨above, seg, rest, hpath, hseg, rfl, hg⟩)
        refine ⟨levelOf rest, g, ?_, p, ?_, hc⟩
        · cases hlevel : levelOf rest with
          | inherited =>
              rw [hlevel] at hmem
              exact List.mem_append_left _ hmem
          | gritsParent =>
              rw [hlevel] at hmem
              exact hmem
          | atTarget =>
              rw [hlevel] at hmem
              exact hmem
        · rw [hpath, part_segment]
          exact hp

end Policy

end Grits
