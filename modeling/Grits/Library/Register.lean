import Mathlib.Data.List.Basic

/-!
# A register that is read, changed and written back

A register counts how often it has been written.  Whoever has read it has a copy, and
the copy is up to date as long as the count is the same.  If every write is made by
someone whose copy is up to date, the register holds what the changes lead to, one
after another.
-/

namespace Grits

/-- A value and how often it has been written. -/
structure Register (V : Type) where
  value : V
  version : ℕ
  deriving DecidableEq

namespace Register

variable {V O : Type} {r c : Register V}

/-- The register after a write. -/
def write (r : Register V) (value : V) : Register V := ⟨value, r.version + 1⟩

@[simp] theorem write_value (r : Register V) (value : V) : (r.write value).value = value := rfl

@[simp] theorem write_version (r : Register V) (value : V) :
    (r.write value).version = r.version + 1 := rfl

theorem write_ne (r : Register V) (value : V) : r.write value ≠ r := by
  intro h
  have hversion := congrArg Register.version h
  rw [write_version] at hversion
  exact absurd hversion (Nat.succ_ne_self _)

/-- `c` was read from the register at some time. -/
def Copy (r c : Register V) : Prop := c.version < r.version ∨ c = r

theorem Copy.refl (r : Register V) : Copy r r := .inr rfl

theorem Copy.write (h : Copy r c) (value : V) : Copy (r.write value) c := by
  rcases h with h | rfl
  · exact .inl (Nat.lt_succ_of_lt h)
  · exact .inl (Nat.lt_succ_self _)

/-- What is known from a copy holds of the register, as long as it is up to date. -/
def Known (r : Register V) (version : ℕ) (P : V → Prop) : Prop :=
  version < r.version ∨ version = r.version ∧ P r.value

theorem Copy.known {P : V → Prop} (h : Copy r c) (hP : P c.value) : Known r c.version P := by
  rcases h with h | rfl
  · exact .inl h
  · exact .inr ⟨rfl, hP⟩

theorem Known.write {version : ℕ} {P : V → Prop} (h : Known r version P) (value : V) :
    Known (r.write value) version P := by
  rcases h with h | ⟨rfl, -⟩
  · exact .inl (Nat.lt_succ_of_lt h)
  · exact .inl (Nat.lt_succ_self _)

theorem Known.current {P : V → Prop} (h : Known r r.version P) : P r.value := by
  rcases h with h | ⟨-, h⟩
  · exact absurd h (Nat.lt_irrefl _)
  · exact h

/-- The changes in `log`, the last one first, lead from `start` to this value. -/
inductive Replayed (change : O → V → V → Prop) (start : V) : List O → V → Prop
  | nil : Replayed change start [] start
  | cons {log : List O} {op : O} {before after : V} (h : Replayed change start log before)
      (hop : change op before after) : Replayed change start (op :: log) after

/-- What every change carries on holds after all of them. -/
theorem Replayed.carried {change : O → V → V → Prop} {start value : V} {log : List O}
    {I : List O → V → Prop} (h : Replayed change start log value) (hstart : I [] start)
    (hchange : ∀ log op before after, I log before → change op before after →
      I (op :: log) after) : I log value := by
  induction h with
  | nil => exact hstart
  | cons _ hop ih => exact hchange _ _ _ _ ih hop

end Register

end Grits
