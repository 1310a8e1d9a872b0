import Grits.Library.SlashPath
import Mathlib

/-!
# Letter case

`strings.ToLower` over a table of simple case mappings.  Of the table it is only said that it
agrees with ASCII, and that an ASCII character that is no letter is the lower case of nothing
else.
-/

namespace Grits

/-- `unicode.ToLower` -/
structure CaseMapping where
  toLower : Char → Char
  ascii : ∀ c : Char, c.val < 128 → toLower c = c.toLower
  of_nonLetter : ∀ c d : Char, d.val < 128 → d.isAlpha = false → toLower c = d → c = d

namespace CaseMapping

open SlashPath

variable (m : CaseMapping)

/-- `strings.ToLower` -/
def lower (s : GoString) : GoString := s.map m.toLower

variable {m}

@[simp] theorem lower_nil : m.lower [] = [] := rfl

theorem lower_eq_nil_iff {s : GoString} : m.lower s = [] ↔ s = [] := List.map_eq_nil_iff

theorem isUpper_eq_false {c : Char} (h : c.isAlpha = false) : c.isUpper = false :=
  (Bool.or_eq_false_iff.mp h).1

theorem toLower_of_isUpper_eq_false {c : Char} (h : c.isUpper = false) : c.toLower = c := by
  simp only [Char.isUpper, decide_eq_false_iff_not] at h
  exact dif_neg h

theorem isUpper_iff {c : Char} : c.isUpper = true ↔ 65 ≤ c.toNat ∧ c.toNat ≤ 90 := by
  simp [Char.isUpper, UInt32.le_iff_toNat_le, ← Char.toNat_val]

theorem isLower_iff {c : Char} : c.isLower = true ↔ 97 ≤ c.toNat ∧ c.toNat ≤ 122 := by
  simp [Char.isLower, UInt32.le_iff_toNat_le, ← Char.toNat_val]

theorem isLower_toLower {c : Char} (h : c.isUpper = true) : c.toLower.isLower = true := by
  have hrange := isUpper_iff.mp h
  have hval : c.toLower.toNat = c.toNat + 32 := by
    simp only [Char.isUpper, decide_eq_true_eq] at h
    rw [Char.toLower, dif_pos h]
    change (c.val + 32).toNat = c.val.toNat + 32
    rw [UInt32.toNat_add, Char.toNat_val]
    exact Nat.mod_eq_of_lt (show c.toNat + 32 < 2 ^ 32 by omega)
  rw [isLower_iff, hval]
  omega

/-- A mark that is no letter stands for itself only. -/
theorem toLower_eq_iff {d : Char} (hascii : d.val < 128) (halpha : d.isAlpha = false) (c : Char) :
    m.toLower c = d ↔ c = d := by
  constructor
  · exact m.of_nonLetter c d hascii halpha
  · rintro rfl
    rw [m.ascii c hascii]
    exact toLower_of_isUpper_eq_false (isUpper_eq_false halpha)

/-- A text of such marks is the lower case of nothing else. -/
theorem lower_eq_iff {marks : GoString} (h : ∀ d ∈ marks, d.val < 128 ∧ d.isAlpha = false)
    (s : GoString) : m.lower s = marks ↔ s = marks := by
  induction marks generalizing s with
  | nil => exact lower_eq_nil_iff
  | cons d marks ih =>
      obtain ⟨hd, hmarks⟩ := List.forall_mem_cons.mp h
      cases s with
      | nil => exact iff_of_false (by simp [lower]) (by simp)
      | cons c s =>
          unfold lower at ih ⊢
          rw [List.map_cons, List.cons.injEq, List.cons.injEq, toLower_eq_iff hd.1 hd.2, ih hmarks]

/-- Splitting at a mark. -/
theorem splitOn_lower {d : Char} (hascii : d.val < 128) (halpha : d.isAlpha = false)
    (s : GoString) : (m.lower s).splitOn d = (s.splitOn d).map m.lower := by
  induction s with
  | nil => rfl
  | cons c s ih =>
      unfold lower at ih ⊢
      simp only [List.splitOn, List.map_cons, List.splitOnP_cons_eq_if_modifyHead, beq_iff_eq] at ih ⊢
      by_cases hc : c = d
      · rw [if_pos hc, if_pos ((toLower_eq_iff hascii halpha c).mpr hc), ih]
        rfl
      · rw [if_neg hc, if_neg (mt (toLower_eq_iff hascii halpha c).mp hc), ih]
        cases s.splitOnP (· == d) with
        | nil => rfl
        | cons first rest => rfl

/-- ASCII alone. -/
def asciiOnly : CaseMapping where
  toLower := Char.toLower
  ascii := fun _ _ => rfl
  of_nonLetter := by
    intro c d _ halpha h
    cases hc : c.isUpper with
    | false => exact (toLower_of_isUpper_eq_false hc).symm.trans h
    | true =>
        have hlower := isLower_toLower hc
        rw [h, (Bool.or_eq_false_iff.mp halpha).2] at hlower
        cases hlower

end CaseMapping

end Grits
