import Mathlib.Data.Nat.Digits.Lemmas
import Mathlib.Tactic

/-!
# Numbers by their digits, most significant first

Mathlib's `Nat.digits` and `Nat.ofDigits` have the least significant digit first.  Texts
and byte arrays have it last.
-/

namespace Grits

namespace Radix

variable {b : ℕ} {l front rest : List ℕ}

/-- The number with these digits. -/
def value (b : ℕ) (l : List ℕ) : ℕ := Nat.ofDigits b l.reverse

/-- The digits of a number, without leading zeros. -/
def digits (b n : ℕ) : List ℕ := (Nat.digits b n).reverse

@[simp] theorem value_nil : value b [] = 0 := rfl

@[simp] theorem value_singleton (d : ℕ) : value b [d] = d := by
  simp [value]

theorem value_append : value b (front ++ rest) = value b front * b ^ rest.length + value b rest := by
  rw [value, List.reverse_append, Nat.ofDigits_append, List.length_reverse]
  show value b rest + b ^ rest.length * value b front = _
  ring

theorem value_concat (d : ℕ) : value b (front ++ [d]) = b * value b front + d := by
  rw [value_append, value_singleton, List.length_singleton, pow_one, Nat.mul_comm]

theorem value_replicate_zero (n : ℕ) : value b (List.replicate n 0) = 0 := by
  induction n with
  | zero => rfl
  | succ n ih => rw [List.replicate_succ', value_concat, ih, Nat.mul_zero]

theorem value_zeros_append (n : ℕ) : value b (List.replicate n 0 ++ rest) = value b rest := by
  rw [value_append, value_replicate_zero, Nat.zero_mul, Nat.zero_add]

theorem value_lt (hl : ∀ d ∈ l, d < b) (hb : 1 < b) : value b l < b ^ l.length := by
  rw [← List.length_reverse]
  exact Nat.ofDigits_lt_base_pow_length hb fun d hd => hl d (List.mem_reverse.mp hd)

theorem digits_lt (hb : 1 < b) {n d : ℕ} (hd : d ∈ digits b n) : d < b :=
  Nat.digits_lt_base hb (List.mem_reverse.mp hd)

theorem value_digits (n : ℕ) : value b (digits b n) = n := by
  rw [value, digits, List.reverse_reverse, Nat.ofDigits_digits]

/-- A number says which digits it has. -/
theorem digits_value (hb : 1 < b) (hl : ∀ d ∈ l, d < b) (hhead : l.head? ≠ some 0) :
    digits b (value b l) = l := by
  rw [digits, value, Nat.digits_ofDigits b hb l.reverse fun d hd => hl d (List.mem_reverse.mp hd),
    List.reverse_reverse]
  intro hne hlast
  rw [List.getLast_reverse] at hlast
  apply hhead
  rw [List.head?_eq_some_head (fun h => hne (by rw [h, List.reverse_nil])), hlast]

theorem head?_digits (n : ℕ) : (digits b n).head? ≠ some 0 := by
  rw [digits, List.head?_reverse]
  intro hlast
  have hne : Nat.digits b n ≠ [] := by
    intro hnil
    rw [hnil] at hlast
    cases hlast
  rw [List.getLast?_eq_some_getLast hne, Option.some.injEq] at hlast
  have hn : n ≠ 0 := fun h => hne (by rw [h, Nat.digits_zero])
  exact Nat.getLast_digit_ne_zero b hn hlast

/-! ## Zeros in front -/

/-- A number without its leading zeros. -/
theorem value_dropWhile (b : ℕ) (l : List ℕ) : value b (l.dropWhile (· == 0)) = value b l := by
  induction l with
  | nil => rfl
  | cons d l ih =>
      by_cases hd : d = 0
      · subst hd
        rw [List.dropWhile_cons_of_pos (by simp), ih]
        exact (value_zeros_append 1).symm
      · rw [List.dropWhile_cons_of_neg (by simp [hd])]

theorem head?_dropWhile (l : List ℕ) : (l.dropWhile (· == 0)).head? ≠ some 0 := by
  intro h
  have := List.head?_dropWhile_not (fun d : ℕ => d == 0) l
  simp [h] at this

/-- What is left of the digits behind the leading zeros are those of the number. -/
theorem dropWhile_eq_digits (hb : 1 < b) (hl : ∀ d ∈ l, d < b) :
    l.dropWhile (· == 0) = digits b (value b l) := by
  rw [← value_dropWhile b l]
  refine (digits_value hb (fun d hd => hl d ?_) (head?_dropWhile l)).symm
  exact (List.dropWhile_sublist _).subset hd

/-- The digits of a small number begin with zeros, which may be left out. -/
theorem value_drop {n : ℕ} (h : value b l < b ^ n) :
    value b (l.drop (l.length - n)) = value b l := by
  have hsplit : value b (l.take (l.length - n) ++ l.drop (l.length - n)) =
      value b (l.take (l.length - n)) * b ^ (l.drop (l.length - n)).length +
        value b (l.drop (l.length - n)) := value_append
  rw [List.take_append_drop] at hsplit
  rcases Nat.le_total l.length n with hle | hle
  · rw [Nat.sub_eq_zero_of_le hle, List.drop_zero]
  · have hlength : (l.drop (l.length - n)).length = n := by
      rw [List.length_drop]
      omega
    rw [hlength] at hsplit
    have hfront : value b (l.take (l.length - n)) = 0 := by
      by_contra hne
      have : b ^ n ≤ value b (l.take (l.length - n)) * b ^ n :=
        Nat.le_mul_of_pos_left _ (Nat.pos_of_ne_zero hne)
      omega
    rw [hfront, Nat.zero_mul, Nat.zero_add] at hsplit
    exact hsplit.symm

end Radix

end Grits
