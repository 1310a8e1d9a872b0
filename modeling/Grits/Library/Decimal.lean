import Mathlib.Data.Nat.Digits.Defs
import Mathlib.Tactic

/-!
# Decimal numbers

`%d` and `strconv.ParseInt(s, 10, 64)` of Go, on the bytes of a text.
-/

namespace Grits

namespace Decimal

/-- The digits of a number. -/
def formatNat (n : ℕ) : List UInt8 :=
  if n = 0 then [48] else (Nat.digits 10 n).reverse.map fun d => UInt8.ofNat (48 + d)

/-- `fmt.Sprintf("%d", n)` -/
def formatInt : ℤ → List UInt8
  | .ofNat n => formatNat n
  | .negSucc n => 45 :: formatNat (n + 1)

/-- The value of a digit. -/
def digitValue (c : UInt8) : Option ℕ :=
  if 48 ≤ c.toNat ∧ c.toNat ≤ 57 then some (c.toNat - 48) else none

/-- The value of a text of digits. -/
def parseNat (text : List UInt8) : Option ℕ :=
  if text = [] then none
  else (text.mapM digitValue).map fun digits => Nat.ofDigits 10 digits.reverse

/-- `strconv.ParseInt(s, 10, 64)` -/
def parseInt (text : List UInt8) : Option Int64 :=
  match text with
  | 45 :: text => (parseNat text).bind fun n => if n ≤ 2 ^ 63 then some (Int64.ofInt (-n)) else none
  | 43 :: text => (parseNat text).bind fun n => if n < 2 ^ 63 then some (Int64.ofNat n) else none
  | text => (parseNat text).bind fun n => if n < 2 ^ 63 then some (Int64.ofNat n) else none

/-- The text of a 64-bit integer. -/
def format (n : Int64) : List UInt8 := formatInt n.toInt

/-! ## The round trip -/

theorem digitValue_ofNat {d : ℕ} (h : d < 10) : digitValue (UInt8.ofNat (48 + d)) = some d := by
  decide +revert

theorem mapM_digitValue {digits : List ℕ} (h : ∀ d ∈ digits, d < 10) :
    (digits.map fun d => UInt8.ofNat (48 + d)).mapM digitValue = some digits := by
  induction digits with
  | nil => rfl
  | cons d digits ih =>
      rw [List.map_cons, List.mapM_cons, digitValue_ofNat (h d List.mem_cons_self),
        ih fun other hother => h other (List.mem_cons_of_mem _ hother)]
      rfl

theorem parseNat_formatNat (n : ℕ) : parseNat (formatNat n) = some n := by
  by_cases hn : n = 0
  · subst hn
    rfl
  · have hdigits : Nat.digits 10 n ≠ [] := Nat.digits_ne_nil_iff_ne_zero.mpr hn
    have hlt : ∀ d ∈ (Nat.digits 10 n).reverse, d < 10 := fun d hd =>
      Nat.digits_lt_base (by decide) (List.mem_reverse.mp hd)
    rw [formatNat, if_neg hn, parseNat, if_neg (by simpa using hdigits), mapM_digitValue hlt,
      Option.map_some, List.reverse_reverse, Nat.ofDigits_digits]

theorem digit_of_mem_formatNat {n : ℕ} {c : UInt8} (h : c ∈ formatNat n) :
    48 ≤ c.toNat ∧ c.toNat ≤ 57 := by
  rw [formatNat] at h
  split at h
  next =>
    rw [List.mem_singleton.mp h]
    decide
  next =>
    obtain ⟨d, hd, rfl⟩ := List.mem_map.mp h
    have hlt : d < 10 := Nat.digits_lt_base (by decide) (List.mem_reverse.mp hd)
    clear hd h
    decide +revert

/-- There is no colon in a number. -/
theorem colon_notMem_format (n : Int64) : 58 ∉ format n := by
  rw [format]
  intro h
  cases hn : n.toInt with
  | ofNat k =>
      rw [hn] at h
      exact absurd (digit_of_mem_formatNat h).2 (by decide)
  | negSucc k =>
      rw [hn] at h
      rcases List.mem_cons.mp h with heq | h
      · exact absurd heq (by decide)
      · exact absurd (digit_of_mem_formatNat h).2 (by decide)

/-- A text that does not begin with a sign. -/
theorem parseInt_unsigned {text : List UInt8} (h : ∀ c ∈ text, 48 ≤ c.toNat ∧ c.toNat ≤ 57) :
    parseInt text = (parseNat text).bind fun n =>
      if n < 2 ^ 63 then some (Int64.ofNat n) else none := by
  unfold parseInt
  split
  next => exact absurd (h 45 List.mem_cons_self).1 (by decide)
  next => exact absurd (h 43 List.mem_cons_self).1 (by decide)
  next => rfl

/-- Parsing gives the formatted number back. -/
theorem parseInt_format (n : Int64) : parseInt (format n) = some n := by
  have hle := Int64.le_toInt n
  have hlt := Int64.toInt_lt n
  have hself : Int64.ofInt n.toInt = n := Int64.ofInt_toInt n
  rw [format]
  cases hn : n.toInt with
  | ofNat k =>
      rw [hn, Int.ofNat_eq_natCast] at hlt
      rw [hn] at hself
      have hk : k < 2 ^ 63 := by omega
      rw [formatInt, parseInt_unsigned fun c hc => digit_of_mem_formatNat hc, parseNat_formatNat,
        Option.bind_some, if_pos hk]
      exact congrArg some hself
  | negSucc k =>
      rw [hn] at hle hself
      have hk : k + 1 ≤ 2 ^ 63 := by omega
      rw [formatInt, parseInt, parseNat_formatNat, Option.bind_some, if_pos hk]
      exact congrArg some hself

theorem format_injective : Function.Injective format := by
  intro n n' h
  have hparse := congrArg parseInt h
  rw [parseInt_format, parseInt_format] at hparse
  exact Option.some.inj hparse

end Decimal

end Grits
