import Mathlib.Logic.Basic
import Mathlib.Data.List.Basic

/-!
# Forward simulation

Two systems whose steps carry labels.  If every step of the first is matched by one of the second
with the same label, so is every sequence of steps.
-/

namespace Grits

namespace Simulation

variable {S M L : Type}

/-- A sequence of steps with these labels. -/
inductive Trace (step : S → L → S → Prop) : List L → S → S → Prop
  | nil {s : S} : Trace step [] s s
  | cons {s t u : S} {label : L} {labels : List L} (h : step s label t)
      (hrest : Trace step labels t u) : Trace step (label :: labels) s u

variable {step : S → L → S → Prop} {step' : M → L → M → Prop} {R : S → M → Prop}

/-- Every step from related states is matched. -/
def Simulates (step : S → L → S → Prop) (step' : M → L → M → Prop) (R : S → M → Prop) : Prop :=
  ∀ s m label t, R s m → step s label t → ∃ m', step' m label m' ∧ R t m'

theorem Trace.cons_inv {label : L} {labels : List L} {s u : S}
    (h : Trace step (label :: labels) s u) : ∃ t, step s label t ∧ Trace step labels t u := by
  cases h with
  | cons hstep hrest => exact ⟨_, hstep, hrest⟩

theorem Trace.append_inv {before after : List L} {s u : S}
    (h : Trace step (before ++ after) s u) :
    ∃ t, Trace step before s t ∧ Trace step after t u := by
  induction before generalizing s with
  | nil => exact ⟨s, .nil, h⟩
  | cons label before ih =>
      obtain ⟨middle, hstep, hrest⟩ := h.cons_inv
      obtain ⟨t, hbefore, hafter⟩ := ih hrest
      exact ⟨t, .cons hstep hbefore, hafter⟩

end Simulation

end Grits
