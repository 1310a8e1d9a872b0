import Mathlib.Algebra.Order.Field.Basic
import Mathlib.Algebra.BigOperators.Group.List.Basic
import Mathlib.Tactic.Linarith
import Mathlib.Tactic.Ring

/-!
# Leaking vessels

A vessel that leaks at a constant rate and is filled at given times, never above
its capacity.  What flows in during any interval is then bounded by the capacity
and what can leak out meanwhile.
-/

namespace Grits

namespace Metering

variable {K : Type} [Field K] [LinearOrder K] [IsStrictOrderedRing K]

/-- Starting with `amount` at the time `last`, all of `events` (a time and what flows in)
find room.  Only lower bounds of what is in the vessel are kept. -/
inductive Metered (rate capacity : K) : K → K → List (K × K) → Prop
  | nil {amount last : K} : Metered rate capacity amount last []
  | cons {amount last time cost amount' : K} {events : List (K × K)} (htime : last ≤ time)
      (hcost : 0 ≤ cost) (hfilled : cost ≤ amount')
      (hleaked : amount - rate * (time - last) + cost ≤ amount') (hroom : amount' ≤ capacity)
      (h : Metered rate capacity amount' time events) :
      Metered rate capacity amount last ((time, cost) :: events)

/-- What flows in from `start` to `stop`. -/
def inflow (start stop : K) (events : List (K × K)) : K :=
  ((events.filter fun event => start ≤ event.1 ∧ event.1 ≤ stop).map Prod.snd).sum

omit [IsStrictOrderedRing K] in
theorem inflow_nil (start stop : K) : inflow start stop [] = 0 := rfl

omit [IsStrictOrderedRing K] in
theorem inflow_cons (start stop : K) (event : K × K) (events : List (K × K)) :
    inflow start stop (event :: events) =
      (if start ≤ event.1 ∧ event.1 ≤ stop then event.2 else 0) + inflow start stop events := by
  unfold inflow
  rw [List.filter_cons]
  by_cases h : start ≤ event.1 ∧ event.1 ≤ stop
  · simp [h]
  · simp [h]

variable {rate capacity amount last : K} {events : List (K × K)}

/-- `so` is what has flown in already. -/
theorem Metered.inflow_from (h : Metered rate capacity amount last events) (hrate : 0 ≤ rate)
    {start stop so : K} (hso : so = 0 ∨ start ≤ last ∧ so ≤ amount + rate * (last - start))
    (hbound : so ≤ capacity + rate * (stop - start)) :
    so + inflow start stop events ≤ capacity + rate * (stop - start) := by
  induction h generalizing so with
  | nil =>
      rw [inflow_nil, add_zero]
      exact hbound
  | @cons amount last time cost amount' events htime hcost hfilled hleaked hroom _ ih =>
      rw [inflow_cons, ← add_assoc]
      have hsplit : rate * (time - start) = rate * (time - last) + rate * (last - start) := by ring
      by_cases hinside : start ≤ time ∧ time ≤ stop
      · rw [if_pos hinside]
        have hleak : 0 ≤ rate * (time - start) := mul_nonneg hrate (sub_nonneg.mpr hinside.1)
        have hmore : so + cost ≤ amount' + rate * (time - start) := by
          rcases hso with rfl | ⟨-, hso⟩
          · linarith
          · linarith
        have hlater : rate * (time - start) ≤ rate * (stop - start) :=
          mul_le_mul_of_nonneg_left (sub_le_sub_right hinside.2 start) hrate
        exact ih (.inr ⟨hinside.1, hmore⟩) (by linarith)
      · rw [if_neg hinside, add_zero]
        refine ih ?_ hbound
        rcases hso with rfl | ⟨hstart, hso⟩
        · exact .inl rfl
        · exact .inr ⟨hstart.trans htime, by linarith⟩

/-- In no interval more flows in than fits, with what leaks out meanwhile. -/
theorem Metered.inflow_le (h : Metered rate capacity amount last events) (hrate : 0 ≤ rate)
    (hcapacity : 0 ≤ capacity) {start stop : K} (hinterval : start ≤ stop) :
    inflow start stop events ≤ capacity + rate * (stop - start) := by
  have hleak : 0 ≤ rate * (stop - start) := mul_nonneg hrate (sub_nonneg.mpr hinterval)
  have hbound : 0 + inflow start stop events ≤ capacity + rate * (stop - start) :=
    h.inflow_from hrate (.inl rfl) (by linarith)
  rwa [zero_add] at hbound

end Metering

end Grits
