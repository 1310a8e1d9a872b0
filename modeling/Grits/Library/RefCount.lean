import Mathlib.Data.Finsupp.Basic
import Mathlib.Data.Finsupp.Order
import Mathlib.Data.Multiset.Count
import Mathlib.Algebra.BigOperators.Group.Finset.Basic
import Mathlib.Algebra.BigOperators.Finsupp.Basic
import Mathlib.Logic.Relation
import Mathlib.Tactic

/-!
# Reference counts over a graph

Nodes point at other nodes, a node possibly several times at one other.  A
count assigns to each node the number of references to it, from the nodes that
are themselves counted and from outside; a node without a reference is not
counted at all.  Taking a reference descends into a node only the first time,
releasing one only the last time.

`Counted kids count held` is the law such a count obeys.  The four `Counted.take`
and `Counted.release` rules are the steps of the two recursions; over a graph
without cycles the law determines which nodes are counted
(`Counted.mem_support_iff`).
-/

namespace Grits

namespace RefCount

variable {α : Type} [DecidableEq α] {kids : α → Multiset α}

/-- Every counted node is counted once for each reference held from outside and
once for each reference from a counted node. -/
def Counted (kids : α → Multiset α) (count : α →₀ ℕ) (held : Multiset α) : Prop :=
  ∀ a, count a = held.count a + ∑ p ∈ count.support, (kids p).count a

/-- `b` is reached from `a` along references. -/
def Reaches (kids : α → Multiset α) : α → α → Prop :=
  Relation.ReflTransGen fun p a => a ∈ kids p

namespace Counted

variable {count : α →₀ ℕ} {held : Multiset α} {a : α}

/-- A count of nothing. -/
theorem zero : Counted kids 0 0 := by
  intro a
  simp

theorem pos_of_mem_held (h : Counted kids count held) (ha : a ∈ held) : 0 < count a := by
  have hheld : 0 < held.count a := Multiset.count_pos.mpr ha
  have hcount := h a
  omega

theorem pos_of_mem_kids (h : Counted kids count held) {p : α} (hp : count p ≠ 0)
    (ha : a ∈ kids p) : 0 < count a := by
  have hkid : 0 < (kids p).count a := Multiset.count_pos.mpr ha
  have hle : (kids p).count a ≤ ∑ q ∈ count.support, (kids q).count a :=
    Finset.single_le_sum (f := fun q => (kids q).count a) (fun _ _ => Nat.zero_le _)
      (Finsupp.mem_support_iff.mpr hp)
  have hcount := h a
  omega

/-- A counted node is held or has a counted parent. -/
theorem exists_referrer (h : Counted kids count held) (ha : count a ≠ 0) :
    a ∈ held ∨ ∃ p, count p ≠ 0 ∧ a ∈ kids p := by
  by_cases hheld : a ∈ held
  · exact .inl hheld
  · have hzero : held.count a = 0 := Multiset.count_eq_zero.mpr hheld
    have hsum : ∑ p ∈ count.support, (kids p).count a ≠ 0 := by
      have hcount := h a
      omega
    obtain ⟨p, hp, hne⟩ := Finset.exists_ne_zero_of_sum_ne_zero hsum
    refine .inr ⟨p, Finsupp.mem_support_iff.mp hp, ?_⟩
    exact Multiset.count_pos.mp (Nat.pos_of_ne_zero hne)

/-- One more reference to a node that is counted already. -/
theorem take_known (h : Counted kids count held) (ha : count a ≠ 0) :
    Counted kids (count + Finsupp.single a 1) (a ::ₘ held) := by
  have hsupport : (count + Finsupp.single a 1).support = count.support := by
    ext b
    by_cases hb : b = a
    · subst hb
      simp [ha]
    · simp [Ne.symm hb]
  intro b
  rw [hsupport, Multiset.count_cons, Finsupp.add_apply, h b, Finsupp.single_apply]
  by_cases hb : b = a
  · subst hb
    simp only [if_true]
    omega
  · rw [if_neg (Ne.symm hb), if_neg hb]
    omega

/-- The first reference to a node whose own references have been taken. -/
theorem take_new (h : Counted kids count (held + kids a)) (ha : count a = 0) :
    Counted kids (count + Finsupp.single a 1) (a ::ₘ held) := by
  have hsupport : (count + Finsupp.single a 1).support = insert a count.support := by
    ext b
    by_cases hb : b = a
    · subst hb
      simp
    · simp [hb]
  have hnotMem : a ∉ count.support := by simpa using ha
  intro b
  rw [hsupport, Finset.sum_insert hnotMem, Finsupp.add_apply, h b, Multiset.count_cons,
    Multiset.count_add, Finsupp.single_apply]
  by_cases hb : b = a
  · subst hb
    simp only [if_true]
    omega
  · rw [if_neg (Ne.symm hb), if_neg hb]
    omega

/-- One reference less to a node that has others. -/
theorem release_shared (h : Counted kids count (a ::ₘ held)) (ha : 1 < count a) :
    Counted kids (count - Finsupp.single a 1) held := by
  have hsupport : (count - Finsupp.single a 1).support = count.support := by
    ext b
    by_cases hb : b = a
    · subst hb
      simp only [Finsupp.mem_support_iff, Finsupp.tsub_apply, Finsupp.single_eq_same]
      omega
    · simp [Ne.symm hb]
  intro b
  have hb := h b
  rw [Multiset.count_cons] at hb
  rw [hsupport, Finsupp.tsub_apply, hb, Finsupp.single_apply]
  by_cases hba : b = a
  · subst hba
    simp only [if_true]
    omega
  · rw [if_neg (Ne.symm hba), if_neg hba]
    omega

/-- The last reference to a node: its own references are left to release. -/
theorem release_last (h : Counted kids count (a ::ₘ held)) (ha : count a = 1) :
    Counted kids (count.erase a) (held + kids a) := by
  have hmem : a ∈ count.support := by simp [ha]
  intro b
  have hb := h b
  rw [← Finset.add_sum_erase _ _ hmem, Multiset.count_cons] at hb
  rw [Finsupp.support_erase, Multiset.count_add]
  by_cases hba : b = a
  · subst hba
    rw [Finsupp.erase_same]
    simp only [if_true] at hb
    omega
  · rw [Finsupp.erase_ne hba, hb, if_neg hba]
    omega

/-- A node reached from a counted node is counted. -/
theorem ne_zero_of_reaches (h : Counted kids count held) {p : α} (hp : count p ≠ 0)
    (hreach : Reaches kids p a) : count a ≠ 0 := by
  induction hreach with
  | refl => exact hp
  | tail _ hstep ih => exact (h.pos_of_mem_kids ih hstep).ne'

/-- In a graph without cycles a counted node is reached from a held one: going
up from parent to parent ends, because only finitely many nodes are counted. -/
theorem exists_held_reaches (h : Counted kids count held) (rank : α → ℕ)
    (hrank : ∀ p a, a ∈ kids p → rank a < rank p) (ha : count a ≠ 0) :
    ∃ p ∈ held, Reaches kids p a := by
  have hbound : ∀ b, count b ≠ 0 → rank b ≤ count.support.sup rank := fun b hb =>
    Finset.le_sup (f := rank) (Finsupp.mem_support_iff.mpr hb)
  -- the induction is on the distance of the rank from the largest counted one
  induction hn : count.support.sup rank - rank a using Nat.strong_induction_on generalizing a with
  | _ n ih =>
      rcases h.exists_referrer ha with hheld | ⟨p, hp, hkid⟩
      · exact ⟨a, hheld, .refl⟩
      · have hlt := hrank p a hkid
        have hle := hbound p hp
        obtain ⟨q, hq, hreach⟩ := ih _ (by omega) hp rfl
        exact ⟨q, hq, hreach.tail hkid⟩

/-- In a graph without cycles exactly the nodes reached from the held ones are
counted. -/
theorem mem_support_iff (h : Counted kids count held) (rank : α → ℕ)
    (hrank : ∀ p a, a ∈ kids p → rank a < rank p) :
    count a ≠ 0 ↔ ∃ p ∈ held, Reaches kids p a := by
  constructor
  · exact h.exists_held_reaches rank hrank
  · rintro ⟨p, hp, hreach⟩
    exact h.ne_zero_of_reaches (h.pos_of_mem_held hp).ne' hreach

end Counted

end RefCount

end Grits
