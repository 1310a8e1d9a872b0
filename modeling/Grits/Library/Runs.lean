import Mathlib.Order.Basic
import Mathlib.Data.List.Basic

/-!
# Runs of a transition system

A run carries the states it has passed, the last one first.  An invariant kept by
every step holds in every state of a run, and a measure that no step decreases
is ordered along it.
-/

namespace Grits

namespace Runs

variable {S : Type} {start : S → Prop} {step : S → S → Prop} {past : List S} {s : S}

/-- A run that has passed the states `past` and is in `s`. -/
inductive Run (start : S → Prop) (step : S → S → Prop) : List S → S → Prop
  | start {s : S} (h : start s) : Run start step [] s
  | step {past : List S} {s t : S} (h : Run start step past s) (hstep : step s t) :
      Run start step (s :: past) t

/-- What every step keeps holds in the state a run is in. -/
theorem Run.invariant {I : S → Prop} (h : Run start step past s) (hstart : ∀ s, start s → I s)
    (hstep : ∀ s t, I s → step s t → I t) : I s := by
  induction h with
  | start h => exact hstart _ h
  | step _ hst ih => exact hstep _ _ ih hst

/-- What every step keeps holds in all the states of a run. -/
theorem Run.invariant_mem {I : S → Prop} (h : Run start step past s)
    (hstart : ∀ s, start s → I s) (hstep : ∀ s t, I s → step s t → I t) :
    ∀ u ∈ s :: past, I u := by
  induction h with
  | start h => exact List.forall_mem_singleton.mpr (hstart _ h)
  | step h hst ih =>
      have hlast := hstep _ _ (h.invariant hstart hstep) hst
      exact List.forall_mem_cons.mpr ⟨hlast, ih⟩

/-- A measure that no step decreases is highest in the last state. -/
theorem Run.le_last {A : Type} [Preorder A] {f : S → A} {I : S → Prop}
    (h : Run start step past s) (hstart : ∀ s, start s → I s)
    (hstep : ∀ s t, I s → step s t → I t) (hle : ∀ s t, I s → step s t → f s ≤ f t) :
    ∀ u ∈ past, f u ≤ f s := by
  induction h with
  | start => exact fun u hu => absurd hu List.not_mem_nil
  | @step past s t h hst ih =>
      have hs : I s := h.invariant hstart hstep
      intro u hu
      rcases List.mem_cons.mp hu with rfl | hu
      · exact hle _ _ hs hst
      · exact (ih u hu).trans (hle _ _ hs hst)

/-- What is kept by the steps that meet a condition. -/
theorem Run.mono {step' : S → S → Prop} (h : Run start step past s)
    (hsub : ∀ s t, step s t → step' s t) : Run start step' past s := by
  induction h with
  | start h => exact .start h
  | step _ hst ih => exact .step ih (hsub _ _ hst)

/-! ## Sequences of operations -/

variable {O : Type} (next : O → S → S)

/-- The property holds in every state the operations pass. -/
def Throughout (P : S → Prop) : List O → S → Prop
  | [], s => P s
  | op :: ops, s => P s ∧ Throughout P ops (next op s)

/-- Every operation meets the condition on the state before it. -/
def Each (Q : O → S → Prop) : List O → S → Prop
  | [], _ => True
  | op :: ops, s => Q op s ∧ Each Q ops (next op s)

/-- A property that is kept by the operations that meet a condition. -/
theorem throughout_of_each {I P : S → Prop} {Q : O → S → Prop} (hP : ∀ s, I s → P s)
    (hstep : ∀ op s, I s → Q op s → I (next op s)) {ops : List O} {s : S} (hs : I s)
    (h : Each next Q ops s) : Throughout next P ops s := by
  induction ops generalizing s with
  | nil => exact hP s hs
  | cons op ops ih =>
      obtain ⟨hop, hrest⟩ := h
      exact ⟨hP s hs, ih (hstep op s hs hop) hrest⟩

/-- A property that an operation keeps exactly when it meets a condition. -/
theorem throughout_iff_each {I P : S → Prop} {Q : O → S → Prop} (hP : ∀ s, I s → P s)
    (hstep : ∀ op s, I s → Q op s → I (next op s))
    (hnot : ∀ op s, I s → P (next op s) → Q op s) (ops : List O) {s : S} (hs : I s) :
    Throughout next P ops s ↔ Each next Q ops s := by
  constructor
  · intro h
    induction ops generalizing s with
    | nil => trivial
    | cons op ops ih =>
        obtain ⟨-, hrest⟩ := h
        have hfirst : P (next op s) := by
          cases ops with
          | nil => exact hrest
          | cons => exact hrest.1
        have hop : Q op s := hnot op s hs hfirst
        exact ⟨hop, ih (hstep op s hs hop) hrest⟩
  · exact throughout_of_each next hP hstep hs

end Runs

end Grits
