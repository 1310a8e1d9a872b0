import Mathlib.Order.Antichain
import Mathlib.Data.List.Basic

/-!
# The topmost members of a list

In a forest, where what lies above a place is a chain, the members of a list that have no
other member above them are an antichain, and each member lies at or below exactly one of
them.
-/

namespace Grits

namespace Topmost

variable {α : Type} {above : α → α → Prop} {members : List α} {a b c : α}

/-- An order in which what lies above a place is a chain, with the depth of each place. -/
structure Forest (above : α → α → Prop) (depth : α → ℕ) : Prop where
  refl : ∀ a, above a a
  trans : ∀ a b c, above a b → above b c → above a c
  deeper : ∀ a b, above a b → a ≠ b → depth a < depth b
  chain : ∀ a b c, above a c → above b c → above a b ∨ above b a

/-- A member with no other member above it. -/
structure IsTopmost (above : α → α → Prop) (members : List α) (a : α) : Prop where
  mem : a ∈ members
  none_above : ∀ b ∈ members, above b a → b = a

theorem IsTopmost.eq (ha : IsTopmost above members a) (hb : IsTopmost above members b)
    (h : above a b) : a = b := hb.none_above a ha.mem h

theorem isAntichain : IsAntichain above {a | IsTopmost above members a} := by
  intro a ha b hb hne habove
  exact hne (IsTopmost.eq ha hb habove)

/-- Every member has a topmost one above it: go up as long as there is another one. -/
theorem Forest.exists_topmost {depth : α → ℕ} (hforest : Forest above depth)
    (ha : a ∈ members) : ∃ top, IsTopmost above members top ∧ above top a := by
  induction hdepth : depth a using Nat.strong_induction_on generalizing a with
  | _ n ih =>
      by_cases hother : ∃ b ∈ members, above b a ∧ b ≠ a
      · obtain ⟨b, hb, habove, hne⟩ := hother
        have hlt : depth b < n := hdepth ▸ hforest.deeper b a habove hne
        obtain ⟨top, htop, htopb⟩ := ih (depth b) hlt hb rfl
        exact ⟨top, htop, hforest.trans top b a htopb habove⟩
      · refine ⟨a, ⟨ha, ?_⟩, hforest.refl a⟩
        intro b hb habove
        by_contra hne
        exact hother ⟨b, hb, habove, hne⟩

/-- Two members of an antichain are not both above one place. -/
theorem Forest.antichain_unique {depth : α → ℕ} (hforest : Forest above depth) {tops : Set α}
    (htops : IsAntichain above tops) (ha : a ∈ tops) (hb : b ∈ tops) (hac : above a c)
    (hbc : above b c) : a = b := by
  rcases hforest.chain a b c hac hbc with hab | hba
  · exact htops.eq ha hb hab
  · exact (htops.eq hb ha hba).symm

end Topmost

end Grits
