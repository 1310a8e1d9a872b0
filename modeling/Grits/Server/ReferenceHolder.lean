import Grits.Library.Runs
import Mathlib.Data.List.TakeWhile
import Mathlib.Tactic

/-!
# Holding references for a time

`ReferenceHolder` of `internal/gritsd/refholder.go`: references are held in the order of the
calls of `Hold`, and `cleanupExpired` releases from the front of the list those that have
expired.
-/

namespace Grits

namespace RefHolder

open Runs

/-- `heldReference`, with the number of the call of `Hold`. -/
structure HeldReference (Obj : Type) where
  obj : Obj
  expiresAt : ℤ
  call : ℕ

/-- A release; of one in `Stop` the time is `none`. -/
structure Release (Obj : Type) where
  ref : HeldReference Obj
  time : Option ℤ

/-- `ReferenceHolder`, and what it has done. -/
structure ReferenceHolder (Obj : Type) where
  heldRefs : List (HeldReference Obj)
  /-- The references that `Hold` has taken. -/
  taken : List (HeldReference Obj)
  released : List (Release Obj)
  /-- The time of the run of `cleanupExpired` that came last, unless something came after it. -/
  cleanedUp : Option ℤ

/-- What happens to a holder; the times are those that are read from the clock. -/
inductive Op (Obj : Type) where
  | hold (obj : Obj) (now holdDuration : ℤ)
  | cleanupExpired (now : ℤ)

variable {Obj : Type}

/-- `now.After(ref.expiresAt)` -/
def HeldReference.expired (now : ℤ) (ref : HeldReference Obj) : Bool := ref.expiresAt < now

namespace ReferenceHolder

/-- `NewReferenceHolder` -/
def new : ReferenceHolder Obj := ⟨[], [], [], none⟩

/-- `Hold` -/
def hold (obj : Obj) (now holdDuration : ℤ) (rh : ReferenceHolder Obj) : ReferenceHolder Obj :=
  let ref : HeldReference Obj := ⟨obj, now + holdDuration, rh.taken.length⟩
  { rh with
    heldRefs := rh.heldRefs ++ [ref]
    taken := rh.taken ++ [ref]
    cleanedUp := none }

/-- `cleanupExpired` -/
def cleanupExpired (now : ℤ) (rh : ReferenceHolder Obj) : ReferenceHolder Obj :=
  { rh with
    heldRefs := rh.heldRefs.dropWhile (HeldReference.expired now)
    released := rh.released ++
      (rh.heldRefs.takeWhile (HeldReference.expired now)).map fun ref => ⟨ref, some now⟩
    cleanedUp := some now }

/-- `Stop` -/
def stop (rh : ReferenceHolder Obj) : ReferenceHolder Obj :=
  { rh with
    heldRefs := []
    released := rh.released ++ rh.heldRefs.map fun ref => ⟨ref, none⟩
    cleanedUp := none }

end ReferenceHolder

open ReferenceHolder

/-- One call. -/
def step : Op Obj → ReferenceHolder Obj → ReferenceHolder Obj
  | .hold obj now holdDuration, rh => rh.hold obj now holdDuration
  | .cleanupExpired now, rh => rh.cleanupExpired now

/-- The holder after some calls. -/
def run (ops : List (Op Obj)) : ReferenceHolder Obj := ops.foldl (fun rh op => step op rh) new

/-- After a run of `cleanupExpired` nothing is held that had expired. -/
def Clean (rh : ReferenceHolder Obj) : Prop :=
  ∀ now, rh.cleanedUp = some now → ∀ ref ∈ rh.heldRefs, now ≤ ref.expiresAt

/-- Each reference is released once, not before it has expired except by the `Stop` at the
end, and each run of `cleanupExpired` releases all that have expired. -/
structure Law (ops : List (Op Obj)) : Prop where
  once : (((run ops).stop.released).map Release.ref).Perm (run ops).taken ∧ (run ops).taken.Nodup
  notEarly : ∀ release ∈ (run ops).stop.released, ∀ now, release.time = some now →
    release.ref.expiresAt < now
  clean : Throughout step Clean ops new

/-- When `cleanupExpired` runs, what was held before an expired reference has expired too. -/
def OldestFirst : Op Obj → ReferenceHolder Obj → Prop
  | .hold _ _ _, _ => True
  | .cleanupExpired now, rh => rh.heldRefs.Pairwise fun ref later =>
      later.expiresAt < now → ref.expiresAt < now

/-! ## What holds of every run -/

variable {rh : ReferenceHolder Obj} {op : Op Obj} {ops : List (Op Obj)} {now : ℤ}

/-- What every call keeps. -/
structure Accounts (rh : ReferenceHolder Obj) : Prop where
  perm : (rh.released.map Release.ref ++ rh.heldRefs).Perm rh.taken
  numbered : rh.taken.map HeldReference.call = List.range rh.taken.length
  notEarly : ∀ release ∈ rh.released, ∀ now, release.time = some now →
    release.ref.expiresAt < now

theorem accounts_new : Accounts (new : ReferenceHolder Obj) where
  perm := List.Perm.refl _
  numbered := rfl
  notEarly := fun _ h => absurd h List.not_mem_nil

theorem Accounts.hold (h : Accounts rh) (obj : Obj) (now holdDuration : ℤ) :
    Accounts (rh.hold obj now holdDuration) where
  perm := by
    show (rh.released.map Release.ref ++ (rh.heldRefs ++ [_])).Perm (rh.taken ++ [_])
    rw [← List.append_assoc]
    exact h.perm.append_right _
  numbered := by
    show (rh.taken ++ [_]).map HeldReference.call = List.range (rh.taken ++ [_]).length
    rw [List.map_append, h.numbered, List.length_append, List.length_singleton, List.range_succ]
    rfl
  notEarly := h.notEarly

theorem Accounts.cleanupExpired (h : Accounts rh) (now : ℤ) :
    Accounts (rh.cleanupExpired now) where
  perm := by
    have hmap : ((rh.heldRefs.takeWhile (HeldReference.expired now)).map
        fun ref => (⟨ref, some now⟩ : Release Obj)).map Release.ref =
          rh.heldRefs.takeWhile (HeldReference.expired now) := by
      rw [List.map_map]
      exact List.map_id _
    show ((rh.released ++ _).map Release.ref ++
      rh.heldRefs.dropWhile (HeldReference.expired now)).Perm rh.taken
    rw [List.map_append, hmap, List.append_assoc, List.takeWhile_append_dropWhile]
    exact h.perm
  numbered := h.numbered
  notEarly := by
    intro release hrelease time htime
    rcases List.mem_append.mp hrelease with hold | hnew
    · exact h.notEarly release hold time htime
    · obtain ⟨ref, href, rfl⟩ := List.mem_map.mp hnew
      cases htime
      have hexpired : HeldReference.expired now ref = true := List.mem_takeWhile_imp href
      exact of_decide_eq_true hexpired

theorem Accounts.step (h : Accounts rh) : Accounts (step op rh) := by
  cases op with
  | hold obj now holdDuration => exact h.hold obj now holdDuration
  | cleanupExpired now => exact h.cleanupExpired now

theorem accounts_run (ops : List (Op Obj)) : Accounts (run ops) := by
  have hall : ∀ (ops : List (Op Obj)) (rh : ReferenceHolder Obj), Accounts rh →
      Accounts (ops.foldl (fun rh op => RefHolder.step op rh) rh) := by
    intro ops
    induction ops with
    | nil => exact fun rh h => h
    | cons op ops ih => exact fun rh h => ih _ h.step
  exact hall ops new accounts_new

/-- `Stop` releases what is left. -/
theorem Accounts.stop (h : Accounts rh) :
    (rh.stop.released.map Release.ref).Perm rh.taken ∧
      ∀ release ∈ rh.stop.released, ∀ now, release.time = some now →
        release.ref.expiresAt < now := by
  constructor
  · show ((rh.released ++ _).map Release.ref).Perm rh.taken
    rw [List.map_append, List.map_map]
    have hmap : rh.heldRefs.map (Release.ref ∘ fun ref => (⟨ref, none⟩ : Release Obj)) =
        rh.heldRefs := List.map_id _
    rw [hmap]
    exact h.perm
  · intro release hrelease now htime
    rcases List.mem_append.mp hrelease with hold | hnew
    · exact h.notEarly release hold now htime
    · obtain ⟨ref, -, rfl⟩ := List.mem_map.mp hnew
      cases htime

theorem Accounts.nodup (h : Accounts rh) : rh.taken.Nodup :=
  List.Nodup.of_map HeldReference.call (h.numbered ▸ List.nodup_range)

/-! ## When nothing expired is left -/

/-- A scan from the front leaves nothing that has expired exactly if nothing expired stands
behind something that has not. -/
theorem dropWhile_clean_iff (now : ℤ) (refs : List (HeldReference Obj)) :
    (∀ ref ∈ refs.dropWhile (HeldReference.expired now), now ≤ ref.expiresAt) ↔
      refs.Pairwise fun ref later => later.expiresAt < now → ref.expiresAt < now := by
  induction refs with
  | nil => simp
  | cons ref refs ih =>
      rw [List.pairwise_cons]
      by_cases hexpired : ref.expiresAt < now
      · have htrue : HeldReference.expired now ref = true := decide_eq_true hexpired
        rw [List.dropWhile_cons_of_pos htrue, ih]
        exact (and_iff_right fun later _ _ => hexpired).symm
      · have hfalse : ¬ HeldReference.expired now ref = true := by
          rwa [HeldReference.expired, decide_eq_true_eq]
        rw [List.dropWhile_cons_of_neg hfalse, List.forall_mem_cons]
        constructor
        · rintro ⟨-, hrest⟩
          refine ⟨fun later hlater h => absurd h (not_lt.mpr (hrest later hlater)), ?_⟩
          refine List.pairwise_of_forall_mem_list ?_
          intro first _ later hlater h
          exact absurd h (not_lt.mpr (hrest later hlater))
        · rintro ⟨hall, -⟩
          refine ⟨not_lt.mp hexpired, ?_⟩
          intro later hlater
          by_contra hlt
          exact hexpired (hall later hlater (not_le.mp hlt))

theorem clean_step_iff : Clean (step op rh) ↔ OldestFirst op rh := by
  cases op with
  | hold obj now holdDuration =>
      refine iff_of_true ?_ trivial
      intro time htime
      cases htime
  | cleanupExpired now =>
      show (∀ time, some now = some time → _) ↔ _
      rw [OldestFirst, ← dropWhile_clean_iff]
      constructor
      · exact fun h => h now rfl
      · intro h time htime
        cases htime
        exact h

theorem clean_new : Clean (new : ReferenceHolder Obj) := by
  intro now h
  cases h

/-- Only a reference behind one that has not expired is kept too long. -/
theorem throughout_clean_iff (ops : List (Op Obj)) :
    Throughout step Clean ops new ↔ Each step OldestFirst ops new :=
  throughout_iff_each step (I := Clean) (fun _ h => h) (fun _ _ _ h => clean_step_iff.mpr h)
    (fun _ _ _ h => clean_step_iff.mp h) ops clean_new

theorem law_of_each (h : Each step OldestFirst ops new) : Law ops := by
  have haccounts := accounts_run ops
  obtain ⟨hperm, hearly⟩ := haccounts.stop
  exact ⟨⟨hperm, haccounts.nodup⟩, hearly, (throughout_clean_iff ops).mpr h⟩

/-- A holder keeps the law exactly if, whenever `cleanupExpired` runs, all that was held before
an expired reference has expired too. -/
theorem referenceHolder_law_iff (ops : List (Op Obj)) :
    Law ops ↔ Each step OldestFirst ops new := by
  constructor
  · exact fun h => (throughout_clean_iff ops).mp h.clean
  · exact law_of_each

/-! ## Equal durations -/

/-- The calls of `Hold` all have the same duration, and the clock does not run backwards. -/
def SameDuration (holdDuration : ℤ) (ops : List (Op Obj)) : Prop :=
  (∀ op ∈ ops, ∀ obj now d, op = .hold obj now d → d = holdDuration) ∧
    ops.Pairwise fun op later => ∀ obj now d obj' now' d',
      op = .hold obj now d → later = .hold obj' now' d' → now ≤ now'

/-- With equal durations the references expire in the order in which they are held. -/
theorem each_oldestFirst {holdDuration : ℤ} (h : SameDuration holdDuration ops)
    (hheld : rh.heldRefs.Pairwise fun ref later => ref.expiresAt ≤ later.expiresAt)
    (hlater : ∀ ref ∈ rh.heldRefs, ∀ obj now d, Op.hold obj now d ∈ ops →
      ref.expiresAt ≤ now + holdDuration) : Each step OldestFirst ops rh := by
  induction ops generalizing rh with
  | nil => trivial
  | cons op ops ih =>
      obtain ⟨hsame, horder⟩ := h
      rw [List.pairwise_cons] at horder
      have hrest : SameDuration holdDuration ops :=
        ⟨fun op hop => hsame op (List.mem_cons_of_mem _ hop), horder.2⟩
      cases op with
      | hold obj now d =>
          have hd : d = holdDuration := hsame _ List.mem_cons_self obj now d rfl
          subst hd
          refine ⟨trivial, ih hrest ?_ ?_⟩
          · show (rh.heldRefs ++ [_]).Pairwise _
            rw [List.pairwise_append]
            refine ⟨hheld, List.pairwise_singleton _ _, ?_⟩
            intro ref href last hlast
            rw [List.mem_singleton.mp hlast]
            exact hlater ref href obj now d List.mem_cons_self
          · intro ref href obj' now' d' hmem
            rcases List.mem_append.mp href with href | href
            · exact hlater ref href obj' now' d' (List.mem_cons_of_mem _ hmem)
            · rw [List.mem_singleton.mp href]
              have hle : now ≤ now' := horder.1 _ hmem obj now d obj' now' d' rfl rfl
              show now + d ≤ now' + d
              omega
      | cleanupExpired now =>
          have hsub := List.dropWhile_sublist (l := rh.heldRefs) (HeldReference.expired now)
          refine ⟨hheld.imp fun hle hlt => lt_of_le_of_lt hle hlt, ih hrest ?_ ?_⟩
          · exact hheld.sublist hsub
          · intro ref href obj' now' d' hmem
            exact hlater ref (hsub.subset href) obj' now' d' (List.mem_cons_of_mem _ hmem)

/-- Holders with one duration keep the law. -/
theorem law_of_sameDuration {holdDuration : ℤ} (h : SameDuration holdDuration ops) : Law ops :=
  law_of_each (each_oldestFirst h List.Pairwise.nil fun _ href => absurd href List.not_mem_nil)

/-! ## Two durations -/

/-- A reference held for an hour, then one for a second. -/
def twoDurations : List (Op String) :=
  [.hold "uploaded" 0 3600, .hold "looked up" 1 1, .cleanupExpired 10]

/-- The second reference is still held ten seconds later. -/
theorem referenceHolder_law_fails : ¬ Law twoDurations := by
  intro h
  have hclean := h.clean.2.2.2
  have hheld := hclean 10 rfl ⟨"looked up", 2, 1⟩ (by
    simp [step, hold, cleanupExpired, new, HeldReference.expired])
  exact absurd hheld (by decide)

end RefHolder

end Grits
