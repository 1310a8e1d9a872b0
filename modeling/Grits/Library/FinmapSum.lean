import Mathlib.Algebra.BigOperators.Group.Finset.Basic
import Mathlib.Algebra.Order.BigOperators.Group.Finset
import Mathlib.Data.Finmap
import Mathlib.Tactic

/-!
# Sums over finite maps

`total f m` adds up `f key value` over the entries of a finite map, with the
rules for inserting, overwriting and erasing an entry.
-/

namespace Grits

namespace FinmapSum

variable {α β : Type} [DecidableEq α]

theorem keys_insert (a : α) (b : β) (m : Finmap fun _ : α => β) :
    (m.insert a b).keys = insert a m.keys := by
  ext x
  simp [Finmap.mem_keys, Finmap.mem_insert]

/-- The sum of `f key value` over the entries of a map. -/
def total (f : α → β → ℕ) (m : Finmap fun _ : α => β) : ℕ :=
  ∑ a ∈ m.keys, (m.lookup a).elim 0 (f a)

variable (f : α → β → ℕ) {m : Finmap fun _ : α => β} {a : α} {b : β}

@[simp] theorem total_empty : total f (∅ : Finmap fun _ : α => β) = 0 := by
  simp [total]

theorem total_insert_of_lookup_eq_none (h : m.lookup a = none) :
    total f (m.insert a b) = f a b + total f m := by
  have hmem : a ∉ m.keys := by
    rw [Finmap.mem_keys]
    exact Finmap.lookup_eq_none.mp h
  have hrest : ∀ x ∈ m.keys, ((m.insert a b).lookup x).elim 0 (f x) =
      (m.lookup x).elim 0 (f x) := by
    intro x hx
    rw [Finmap.lookup_insert_of_ne]
    rintro rfl
    exact hmem hx
  rw [total, keys_insert, Finset.sum_insert hmem, Finmap.lookup_insert,
    Finset.sum_congr rfl hrest]
  rfl

/-- Overwriting an entry with one that counts the same. -/
theorem total_insert_of_same {b' : β} (h : m.lookup a = some b') (hsame : f a b = f a b') :
    total f (m.insert a b) = total f m := by
  have hmem : a ∈ m.keys := by
    rw [Finmap.mem_keys]
    exact Finmap.mem_of_lookup_eq_some h
  rw [total, keys_insert, Finset.insert_eq_of_mem hmem, total]
  refine Finset.sum_congr rfl fun x _ => ?_
  by_cases hx : x = a
  · subst hx
    simp [h, hsame]
  · rw [Finmap.lookup_insert_of_ne _ hx]

theorem total_erase_add (h : m.lookup a = some b) :
    total f (m.erase a) + f a b = total f m := by
  have hmem : a ∈ m.keys := by
    rw [Finmap.mem_keys]
    exact Finmap.mem_of_lookup_eq_some h
  have hrest : ∀ x ∈ m.keys.erase a, ((m.erase a).lookup x).elim 0 (f x) =
      (m.lookup x).elim 0 (f x) := by
    intro x hx
    rw [Finmap.lookup_erase_ne (Finset.ne_of_mem_erase hx)]
  rw [total, Finmap.keys_erase, Finset.sum_congr rfl hrest, total,
    ← Finset.sum_erase_add _ _ hmem, h]
  rfl

/-- Overwriting an entry. -/
theorem total_insert_add {b' : β} (h : m.lookup a = some b) :
    total f (m.insert a b') + f a b = total f m + f a b' := by
  have herase : (m.insert a b').erase a = m.erase a := by
    refine Finmap.ext_lookup fun x => ?_
    by_cases hx : x = a
    · subst hx
      rw [Finmap.lookup_erase, Finmap.lookup_erase]
    · rw [Finmap.lookup_erase_ne hx, Finmap.lookup_erase_ne hx, Finmap.lookup_insert_of_ne _ hx]
  rw [← total_erase_add f h, ← total_erase_add f (Finmap.lookup_insert (b := b') m), herase]
  exact Nat.add_right_comm _ _ _

theorem le_total (h : m.lookup a = some b) : f a b ≤ total f m := by
  rw [← total_erase_add f h]
  exact Nat.le_add_left _ _

end FinmapSum

end Grits
