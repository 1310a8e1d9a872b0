import Mathlib.Data.List.Basic
import Mathlib.Tactic

/-!
# Patterns that backtrack

A part of a regular expression as the list of its matches at the start of a text, in the order
in which a backtracking matcher tries them.  The first one for which the rest of the pattern
matches too is the match.
-/

namespace Grits

namespace Backtrack

variable {p : Char → Bool} {m m' : List Char → List (List Char × List Char)}
  {s w rest : List Char}

/-- The matches at the start of a text: what is matched, and what follows it. -/
abbrev Matcher := List Char → List (List Char × List Char)

/-- A class of characters. -/
def char (p : Char → Bool) : Matcher
  | [] => []
  | c :: rest => if p c then [([c], rest)] else []

/-- `p*`, which takes as many characters as it can at first. -/
def star (p : Char → Bool) : Matcher
  | [] => [([], [])]
  | c :: rest =>
      if p c then (star p rest).map (fun found => (c :: found.1, found.2)) ++ [([], c :: rest)]
      else [([], c :: rest)]

/-- `m?`, which is left out at last. -/
def opt (m : Matcher) : Matcher := fun s => m s ++ [([], s)]

/-- One part behind another. -/
def seq (m m' : Matcher) : Matcher := fun s =>
  (m s).flatMap fun first => (m' first.2).map fun second => (first.1 ++ second.1, second.2)

/-- `p+` -/
def plus (p : Char → Bool) : Matcher := seq (char p) (star p)

/-- Words to choose from. -/
def oneOf (words : List (List Char)) : Matcher := fun s =>
  words.filterMap fun word => if word <+: s then some (word, s.drop word.length) else none

theorem mem_char : (w, rest) ∈ char p s ↔ ∃ c, p c = true ∧ w = [c] ∧ s = c :: rest := by
  cases s with
  | nil => simp [char]
  | cons d tail =>
      rw [char]
      split
      next h =>
        simp only [List.mem_singleton, Prod.mk.injEq, List.cons.injEq]
        constructor
        · rintro ⟨rfl, rfl⟩
          exact ⟨d, h, rfl, rfl, rfl⟩
        · rintro ⟨c, -, rfl, rfl, rfl⟩
          exact ⟨rfl, rfl⟩
      next h =>
        simp only [List.not_mem_nil, List.cons.injEq, false_iff]
        rintro ⟨c, hc, -, rfl, -⟩
        exact h hc

theorem mem_star : (w, rest) ∈ star p s ↔ s = w ++ rest ∧ ∀ c ∈ w, p c = true := by
  induction s generalizing w with
  | nil =>
      rw [star, List.mem_singleton, Prod.mk.injEq]
      constructor
      · rintro ⟨rfl, rfl⟩
        exact ⟨rfl, fun c hc => absurd hc List.not_mem_nil⟩
      · rintro ⟨h, -⟩
        exact List.nil_eq_append_iff.mp h
  | cons d tail ih =>
      rw [star]
      cases w with
      | nil =>
          have hnil : (∀ c ∈ ([] : List Char), p c = true) := fun c hc =>
            absurd hc List.not_mem_nil
          rw [List.nil_append, and_iff_left hnil]
          split
          next => simp [eq_comm]
          next => simp [eq_comm]
      | cons c w =>
          rw [List.cons_append, List.cons.injEq, List.forall_mem_cons]
          split
          next h =>
            simp only [List.mem_append, List.mem_map, Prod.mk.injEq, List.cons.injEq,
              Prod.exists, List.mem_singleton, reduceCtorEq, false_and, or_false]
            constructor
            · rintro ⟨w', rest', hmem, ⟨rfl, rfl⟩, rfl⟩
              obtain ⟨htail, hall⟩ := ih.mp hmem
              exact ⟨⟨rfl, htail⟩, h, hall⟩
            · rintro ⟨⟨rfl, htail⟩, -, hall⟩
              exact ⟨w, rest, ih.mpr ⟨htail, hall⟩, ⟨rfl, rfl⟩, rfl⟩
          next h =>
            simp only [List.mem_singleton, Prod.mk.injEq, reduceCtorEq, false_and, false_iff]
            rintro ⟨⟨rfl, -⟩, hc, -⟩
            exact h hc

theorem mem_opt : (w, rest) ∈ opt m s ↔ (w, rest) ∈ m s ∨ w = [] ∧ rest = s := by
  rw [opt, List.mem_append, List.mem_singleton, Prod.mk.injEq]

theorem mem_seq : (w, rest) ∈ seq m m' s ↔
    ∃ a b middle, (a, middle) ∈ m s ∧ (b, rest) ∈ m' middle ∧ w = a ++ b := by
  rw [seq, List.mem_flatMap]
  constructor
  · rintro ⟨⟨a, middle⟩, hfirst, hmem⟩
    obtain ⟨⟨b, last⟩, hsecond, heq⟩ := List.mem_map.mp hmem
    obtain ⟨rfl, rfl⟩ := Prod.mk.inj heq
    exact ⟨a, b, middle, hfirst, hsecond, rfl⟩
  · rintro ⟨a, b, middle, hfirst, hsecond, rfl⟩
    exact ⟨(a, middle), hfirst, List.mem_map.mpr ⟨(b, rest), hsecond, rfl⟩⟩

theorem mem_plus :
    (w, rest) ∈ plus p s ↔ s = w ++ rest ∧ w ≠ [] ∧ ∀ c ∈ w, p c = true := by
  rw [plus, mem_seq]
  constructor
  · rintro ⟨a, b, middle, ha, hb, rfl⟩
    obtain ⟨c, hc, rfl, rfl⟩ := mem_char.mp ha
    obtain ⟨rfl, hall⟩ := mem_star.mp hb
    exact ⟨rfl, List.cons_ne_nil c b, List.forall_mem_cons.mpr ⟨hc, hall⟩⟩
  · rintro ⟨rfl, hne, hall⟩
    obtain ⟨c, b, rfl⟩ := List.exists_cons_of_ne_nil hne
    obtain ⟨hc, hb⟩ := List.forall_mem_cons.mp hall
    exact ⟨[c], b, b ++ rest, mem_char.mpr ⟨c, hc, rfl, rfl⟩, mem_star.mpr ⟨rfl, hb⟩, rfl⟩

theorem mem_oneOf {words : List (List Char)} :
    (w, rest) ∈ oneOf words s ↔ w ∈ words ∧ s = w ++ rest := by
  rw [oneOf, List.mem_filterMap]
  constructor
  · rintro ⟨word, hword, hsome⟩
    split at hsome
    next hprefix =>
      obtain ⟨tail, rfl⟩ := hprefix
      rw [List.drop_left] at hsome
      obtain ⟨rfl, rfl⟩ := Prod.mk.inj (Option.some.inj hsome)
      exact ⟨hword, rfl⟩
    next => cases hsome
  · rintro ⟨hword, rfl⟩
    refine ⟨w, hword, ?_⟩
    rw [if_pos (List.prefix_append w rest), List.drop_left]

/-- The first match, where all that lead on lead to the same ones. -/
theorem head?_flatMap {A B : Type} {f : A → List B} {l : List A} {found : List B}
    (hsame : ∀ a ∈ l, f a = [] ∨ f a = found) (hsome : ∃ a ∈ l, f a = found) :
    (l.flatMap f).head? = found.head? := by
  induction l with
  | nil =>
      obtain ⟨a, ha, -⟩ := hsome
      cases ha
  | cons a l ih =>
      rw [List.flatMap_cons, List.head?_append]
      obtain ⟨ha, hl⟩ := List.forall_mem_cons.mp hsame
      by_cases hnil : f a = []
      · rw [hnil, List.head?_nil, Option.none_or]
        by_cases hrest : ∃ b ∈ l, f b = found
        · exact ih hl hrest
        · have hfound : found = [] := by
            obtain ⟨b, hb, heq⟩ := hsome
            rcases List.mem_cons.mp hb with rfl | hb
            · rw [← heq, hnil]
            · exact absurd ⟨b, hb, heq⟩ hrest
          have hnone : l.flatMap f = [] := by
            rw [List.flatMap_eq_nil_iff]
            intro b hb
            rcases hl b hb with hb' | hb'
            · exact hb'
            · rw [hb', hfound]
          rw [hnone, hfound]
      · rw [ha.resolve_left hnil]
        cases hfound : found with
        | nil => exact absurd (ha.resolve_left hnil) (by rw [hfound]; exact hnil)
        | cons b rest => rfl

end Backtrack

end Grits
