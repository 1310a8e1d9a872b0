import Grits.Library.Backtrack
import Grits.Library.GoDuration

/-!
# The duration parser of the client

`_parseDuration` of `client/lib/grits/GritsClient.js`, which goes over the text with a global
regular expression and adds up what it finds, beside `time.ParseDuration`, with which the
server reads the same settings.
-/

namespace Grits

namespace GritsClient

open Backtrack GoDuration

/-! ## The model -/

/-- The decimal point. -/
def point : Char → Bool := fun c => c = '.'

/-- `[0-9]*\.?[0-9]+` -/
def numberPattern : Matcher := seq (star Char.isDigit) (seq (opt (char point)) (plus Char.isDigit))

/-- The units that the pattern names, in its order. -/
def patternUnits : List TimeUnit := [.ns, .us, .micro, .ms, .s, .m, .h]

/-- `ns|us|µs|ms|[smh]` -/
def unitPattern : Matcher := oneOf (patternUnits.map TimeUnit.text)

/-- The match of the whole pattern at the start of a text: the number, the unit and what
follows. -/
def matchAt (s : List Char) : Option (List Char × List Char × List Char) :=
  ((numberPattern s).flatMap fun number =>
    (unitPattern number.2).map fun unit => (number.1, unit.1, unit.2)).head?

/-- What the calls of `re.exec` find, one after the other. -/
def allMatches (s : List Char) : List (List Char × List Char) :=
  match matchAt s with
  | some (number, unit, rest) =>
      -- a match is never empty
      if rest.length < s.length then (number, unit) :: allMatches rest else []
  | none =>
      match s with
      | [] => []
      | _ :: rest => allMatches rest
termination_by s.length

/-- `parseFloat`, of the digits with or without a point. -/
def parseFloat (number : List Char) : ℚ :=
  decimal (number.takeWhile Char.isDigit) ((number.dropWhile Char.isDigit).drop 1)

/-- `units` -/
def units (unit : List Char) : Option ℚ :=
  (patternUnits.find? fun known => known.text = unit).map TimeUnit.millis

/-- `_parseDuration` -/
def parseDuration (s : List Char) : Option ℚ :=
  if allMatches s = [] then none
  else (allMatches s).foldlM (fun total found =>
    (units found.2).map fun mul => total + parseFloat found.1 * mul) 0

/-! ## One match -/

/-- A text that the pattern takes for a number. -/
def IsNumber (number : List Char) : Prop :=
  ∃ whole fraction, (∀ c ∈ whole, c.isDigit = true) ∧ (∀ c ∈ fraction, c.isDigit = true) ∧
    fraction ≠ [] ∧ (number = whole ++ fraction ∨ number = whole ++ '.' :: fraction)

theorem mem_numberPattern {number rest s : List Char} :
    (number, rest) ∈ numberPattern s ↔ s = number ++ rest ∧ IsNumber number := by
  rw [numberPattern, mem_seq]
  constructor
  · rintro ⟨whole, tail, middle, hwhole, htail, rfl⟩
    obtain ⟨rfl, hdigits⟩ := mem_star.mp hwhole
    obtain ⟨dot, fraction, middle', hdot, hfraction, rfl⟩ := mem_seq.mp htail
    obtain ⟨rfl, hne, hdigits'⟩ := mem_plus.mp hfraction
    rcases mem_opt.mp hdot with hpoint | ⟨rfl, heq⟩
    · obtain ⟨c, hc, rfl, rfl⟩ := mem_char.mp hpoint
      obtain rfl : c = '.' := of_decide_eq_true hc
      refine ⟨by simp, whole, fraction, hdigits, hdigits', hne, .inr (by simp)⟩
    · rw [← heq]
      refine ⟨by simp, whole, fraction, hdigits, hdigits', hne, .inl (by simp)⟩
  · rintro ⟨rfl, whole, fraction, hdigits, hdigits', hne, rfl | rfl⟩
    · refine ⟨whole, fraction, fraction ++ rest, mem_star.mpr ⟨by simp, hdigits⟩, ?_, rfl⟩
      refine mem_seq.mpr ⟨[], fraction, fraction ++ rest, mem_opt.mpr (.inr ⟨rfl, rfl⟩), ?_, rfl⟩
      exact mem_plus.mpr ⟨rfl, hne, hdigits'⟩
    · refine ⟨whole, '.' :: fraction, '.' :: fraction ++ rest, mem_star.mpr ⟨by simp, hdigits⟩, ?_,
        rfl⟩
      refine mem_seq.mpr ⟨['.'], fraction, fraction ++ rest, mem_opt.mpr (.inl ?_), ?_, rfl⟩
      · exact mem_char.mpr ⟨'.', rfl, rfl, rfl⟩
      · exact mem_plus.mpr ⟨rfl, hne, hdigits'⟩

theorem IsNumber.chars {number : List Char} (h : IsNumber number) :
    ∀ c ∈ number, isNumber c = true := by
  obtain ⟨whole, fraction, hwhole, hfraction, -, rfl | rfl⟩ := h
  · intro c hc
    rcases List.mem_append.mp hc with hc | hc
    · exact isNumber_of_isDigit (hwhole c hc)
    · exact isNumber_of_isDigit (hfraction c hc)
  · intro c hc
    rcases List.mem_append.mp hc with hc | hc
    · exact isNumber_of_isDigit (hwhole c hc)
    · rcases List.mem_cons.mp hc with rfl | hc
      · rfl
      · exact isNumber_of_isDigit (hfraction c hc)

/-- A number that the pattern finds ends with a digit. -/
theorem IsNumber.exists_last {number : List Char} (h : IsNumber number) :
    ∃ before d, number = before ++ [d] ∧ d.isDigit = true := by
  obtain ⟨whole, fraction, -, hfraction, hne, heq⟩ := h
  obtain ⟨init, d, rfl⟩ := (List.eq_nil_or_concat' fraction).resolve_left hne
  have hd := hfraction d (by simp)
  rcases heq with rfl | rfl
  · exact ⟨whole ++ init, d, by simp, hd⟩
  · exact ⟨whole ++ '.' :: init, d, by simp, hd⟩

theorem mem_unitPattern {unit rest s : List Char} :
    (unit, rest) ∈ unitPattern s ↔
      ∃ known ∈ patternUnits, known.text = unit ∧ s = unit ++ rest := by
  rw [unitPattern, mem_oneOf, List.mem_map]
  constructor
  · rintro ⟨⟨known, hknown, htext⟩, hs⟩
    exact ⟨known, hknown, htext, hs⟩
  · rintro ⟨known, hknown, htext, hs⟩
    exact ⟨⟨known, hknown, htext⟩, hs⟩

/-- The match at the start of a text has the longest number there. -/
theorem matchAt_append {number rest : List Char} (hnumber : IsNumber number)
    (hrest : ∀ c, rest.head? = some c → isNumber c = false) :
    matchAt (number ++ rest) = (unitPattern rest).head?.map fun unit =>
      (number, unit.1, unit.2) := by
  have hsame : ∀ found ∈ numberPattern (number ++ rest),
      ((unitPattern found.2).map fun unit => (found.1, unit.1, unit.2)) = [] ∨
      ((unitPattern found.2).map fun unit => (found.1, unit.1, unit.2)) =
        (unitPattern rest).map fun unit => (number, unit.1, unit.2) := by
    rintro ⟨number', rest'⟩ hfound
    obtain ⟨heq, hnumber'⟩ := mem_numberPattern.mp hfound
    cases hunit : unitPattern rest' with
    | nil => exact .inl rfl
    | cons found others =>
        right
        obtain ⟨unit, tail⟩ := found
        -- what a unit follows is all that there is of the number
        have hmem : (unit, tail) ∈ unitPattern rest' := by
          rw [hunit]
          exact List.mem_cons_self
        obtain ⟨known, -, htext, hrest'⟩ := mem_unitPattern.mp hmem
        have hstop := unit_stop known tail
        rw [htext, ← hrest'] at hstop
        obtain ⟨htake, hdrop⟩ := takeWhile_append_of_stop hnumber.chars hrest
        obtain ⟨htake', hdrop'⟩ := takeWhile_append_of_stop hnumber'.chars hstop
        rw [heq, htake'] at htake
        rw [heq, hdrop'] at hdrop
        rw [htake, ← hunit, hdrop]
  have hsome : ∃ found ∈ numberPattern (number ++ rest),
      ((unitPattern found.2).map fun unit => (found.1, unit.1, unit.2)) =
        (unitPattern rest).map fun unit => (number, unit.1, unit.2) :=
    ⟨(number, rest), mem_numberPattern.mpr ⟨rfl, hnumber⟩, rfl⟩
  rw [matchAt, head?_flatMap hsame hsome, List.head?_map]

/-- A match is a number and a unit. -/
theorem matchAt_eq_some {s number unit rest : List Char} (h : matchAt s = some (number, unit, rest)) :
    IsNumber number ∧ (∃ known ∈ patternUnits, known.text = unit) ∧
      s = number ++ (unit ++ rest) := by
  have hmem := List.mem_of_mem_head? h
  obtain ⟨⟨number', middle⟩, hnumber, hunit⟩ := List.mem_flatMap.mp hmem
  obtain ⟨⟨unit', rest'⟩, hunit', heq⟩ := List.mem_map.mp hunit
  obtain ⟨rfl, hpair⟩ := Prod.mk.inj heq
  obtain ⟨rfl, rfl⟩ := Prod.mk.inj hpair
  obtain ⟨rfl, hisNumber⟩ := mem_numberPattern.mp hnumber
  obtain ⟨known, hknown, htext, hmiddle⟩ := mem_unitPattern.mp hunit'
  exact ⟨hisNumber, ⟨known, hknown, htext⟩, by rw [← hmiddle]⟩

/-- A digit in front of a unit is enough for a match. -/
theorem matchAt_ne_none {d : Char} (hd : d.isDigit = true) {unit : TimeUnit}
    (hunit : unit ∈ patternUnits) (rest : List Char) : matchAt (d :: (unit.text ++ rest)) ≠ none := by
  have hnumber : IsNumber [d] :=
    ⟨[], [d], by simp, by simpa using hd, List.cons_ne_nil d [], .inl rfl⟩
  have hstop := unit_stop unit rest
  have hmem : (unit.text, rest) ∈ unitPattern (unit.text ++ rest) :=
    mem_unitPattern.mpr ⟨unit, hunit, rfl, rfl⟩
  have happend := matchAt_append hnumber hstop
  rw [List.singleton_append] at happend
  rw [happend]
  cases hhead : unitPattern (unit.text ++ rest) with
  | nil =>
      rw [hhead] at hmem
      cases hmem
  | cons found others => exact Option.some_ne_none _

/-! ## All matches -/

theorem allMatches_match {s number unit rest : List Char}
    (h : matchAt s = some (number, unit, rest)) :
    allMatches s = (number, unit) :: allMatches rest := by
  obtain ⟨hnumber, -, rfl⟩ := matchAt_eq_some h
  obtain ⟨before, d, rfl, -⟩ := hnumber.exists_last
  have hshorter : rest.length < (before ++ [d] ++ (unit ++ rest)).length := by
    simp only [List.length_append, List.length_singleton]
    omega
  rw [allMatches.eq_def, h]
  exact if_pos hshorter

theorem allMatches_skip {c : Char} {s : List Char} (h : matchAt (c :: s) = none) :
    allMatches (c :: s) = allMatches s := by
  rw [allMatches, h]

theorem allMatches_nil : allMatches [] = [] := by
  have hnone : matchAt [] = none := rfl
  rw [allMatches.eq_def, hnone]

/-- The parser finds nothing if and only if no digit stands directly before a unit. -/
theorem allMatches_eq_nil_iff (s : List Char) : allMatches s = [] ↔
    ∀ d : Char, d.isDigit = true → ∀ unit ∈ patternUnits, ¬ d :: unit.text <:+: s := by
  induction s with
  | nil =>
      refine iff_of_true allMatches_nil ?_
      intro d _ unit _ hinfix
      exact List.cons_ne_nil _ _ (List.infix_nil.mp hinfix)
  | cons c s ih =>
      cases hmatch : matchAt (c :: s) with
      | none =>
          rw [allMatches_skip hmatch, ih]
          have hpre : ∀ d : Char, d.isDigit = true → ∀ unit ∈ patternUnits,
              ¬ d :: unit.text <+: c :: s := by
            rintro d hd unit hunit ⟨rest, hrest⟩
            rw [List.cons_append] at hrest
            rw [← hrest] at hmatch
            exact matchAt_ne_none hd hunit rest hmatch
          refine forall₄_congr fun d hd unit hunit => ?_
          rw [List.infix_cons_iff, not_or, and_iff_right (hpre d hd unit hunit)]
      | some found =>
          obtain ⟨number, unit, rest⟩ := found
          rw [allMatches_match hmatch]
          refine iff_of_false (List.cons_ne_nil _ _) ?_
          intro hnone
          obtain ⟨hnumber, ⟨known, hknown, rfl⟩, heq⟩ := matchAt_eq_some hmatch
          obtain ⟨before, d, rfl, hd⟩ := hnumber.exists_last
          apply hnone d hd known hknown
          refine ⟨before, rest, ?_⟩
          rw [heq]
          simp

theorem units_text {unit : TimeUnit} (h : unit ∈ patternUnits) :
    units unit.text = some unit.millis := by
  have hall : ∀ unit ∈ patternUnits,
      patternUnits.find? (fun known => known.text = unit.text) = some unit := by decide
  rw [units, hall unit h]
  rfl

theorem known_of_mem_allMatches {s : List Char} {found : List Char × List Char}
    (h : found ∈ allMatches s) : ∃ unit ∈ patternUnits, unit.text = found.2 := by
  induction hlength : s.length using Nat.strong_induction_on generalizing s with
  | _ n ih =>
      cases hmatch : matchAt s with
      | some match' =>
          obtain ⟨number, unit, rest⟩ := match'
          obtain ⟨hnumber, hknown, heq⟩ := matchAt_eq_some hmatch
          rw [allMatches_match hmatch] at h
          rcases List.mem_cons.mp h with rfl | hrest
          · exact hknown
          · obtain ⟨before, d, rfl, -⟩ := hnumber.exists_last
            refine ih rest.length ?_ hrest rfl
            rw [← hlength, heq]
            simp only [List.length_append, List.length_singleton]
            omega
      | none =>
          cases s with
          | nil =>
              rw [allMatches_nil] at h
              cases h
          | cons c s =>
              rw [allMatches_skip hmatch] at h
              refine ih s.length ?_ h rfl
              rw [← hlength, List.length_cons]
              exact Nat.lt_succ_self _

/-- The sum of what was found. -/
theorem foldlM_units {matches' : List (List Char × List Char)}
    (h : ∀ found ∈ matches', ∃ unit ∈ patternUnits, unit.text = found.2) (total : ℚ) :
    ∃ sum, (matches'.foldlM (fun total found =>
      (units found.2).map fun mul => total + parseFloat found.1 * mul) total) = some sum := by
  induction matches' generalizing total with
  | nil => exact ⟨total, rfl⟩
  | cons found matches' ih =>
      obtain ⟨⟨unit, hunit, htext⟩, hrest⟩ := List.forall_mem_cons.mp h
      obtain ⟨sum, hsum⟩ := ih hrest (total + parseFloat found.1 * unit.millis)
      refine ⟨sum, ?_⟩
      rw [List.foldlM_cons, ← htext, units_text hunit]
      exact hsum

theorem parseDuration_eq_none_iff (s : List Char) :
    parseDuration s = none ↔ allMatches s = [] := by
  rw [parseDuration]
  split
  next hnil => exact iff_of_true rfl hnil
  next hne =>
    obtain ⟨sum, hsum⟩ := foldlM_units (fun found hfound => known_of_mem_allMatches hfound) 0
    rw [hsum]
    exact iff_of_false (Option.some_ne_none sum) hne

/-! ## The matches in a duration -/

/-- The pattern finds the term: it has no point without digits behind it, and its unit is not
spelled with U+03BC. -/
def Readable (t : Term) : Prop := t.fraction ≠ some [] ∧ t.unit ≠ .mu

instance (t : Term) : Decidable (Readable t) := inferInstanceAs (Decidable (_ ∧ _))

theorem Readable.unit_mem {t : Term} (h : Readable t) : t.unit ∈ patternUnits := by
  have hunit := h.2
  cases hu : t.unit with
  | mu => exact absurd hu hunit
  | ns => decide
  | us => decide
  | micro => decide
  | ms => decide
  | s => decide
  | m => decide
  | h => decide

theorem Readable.isNumber {t : Term} (h : Readable t) : IsNumber t.number := by
  have hdigits := t.fraction_digits
  have hsome := t.some_digit
  cases hfraction : t.fraction with
  | none =>
      rw [hfraction] at hsome
      refine ⟨[], t.whole, by simp, t.whole_digits, fun hnil => hsome ⟨hnil, rfl⟩, .inl ?_⟩
      rw [Term.number, hfraction]
      exact List.append_nil _
  | some digits =>
      rw [hfraction] at hdigits
      refine ⟨t.whole, digits, t.whole_digits, hdigits, ?_, .inr ?_⟩
      · rintro rfl
        exact h.1 hfraction
      · rw [Term.number, hfraction]
        rfl

/-- The longest unit is tried first. -/
theorem head?_unitPattern {unit : TimeUnit} (hunit : unit ∈ patternUnits) {rest : List Char}
    (hrest : StartsTerm rest) : (unitPattern (unit.text ++ rest)).head? = some (unit.text, rest) := by
  have hs : ¬ ['s'] <+: rest := by
    rintro ⟨tail, rfl⟩
    exact absurd (hrest 's' rfl) (by decide)
  cases unit with
  | mu => exact absurd hunit (by decide)
  | ns => rfl
  | us => rfl
  | micro => rfl
  | ms => rfl
  | s => rfl
  | h => rfl
  | m =>
      simp [unitPattern, oneOf, patternUnits, TimeUnit.text, hs]

theorem matchAt_readable {t : Term} (h : Readable t) {rest : List Char} (hrest : StartsTerm rest) :
    matchAt (t.text ++ rest) = some (t.number, t.unit.text, rest) := by
  have hstop := unit_stop t.unit rest
  rw [Term.text, List.append_assoc, matchAt_append h.isNumber hstop,
    head?_unitPattern h.unit_mem hrest]
  rfl

theorem matchAt_number_chars {s number unit rest : List Char}
    (h : matchAt s = some (number, unit, rest)) :
    number = s.takeWhile isNumber ∧ unit ++ rest = s.dropWhile isNumber := by
  obtain ⟨hnumber, ⟨known, -, rfl⟩, rfl⟩ := matchAt_eq_some h
  have hstop := unit_stop known rest
  obtain ⟨htake, hdrop⟩ := takeWhile_append_of_stop hnumber.chars hstop
  exact ⟨htake.symm, hdrop.symm⟩

/-- A text in which no match begins is passed over. -/
theorem allMatches_append {text rest : List Char}
    (h : ∀ tail, tail <:+ text → tail ≠ [] → matchAt (tail ++ rest) = none) :
    allMatches (text ++ rest) = allMatches rest := by
  induction text with
  | nil => rfl
  | cons c text ih =>
      have hnone : matchAt (c :: (text ++ rest)) = none :=
        h (c :: text) (List.suffix_refl _) (List.cons_ne_nil c text)
      rw [List.cons_append, allMatches_skip hnone]
      exact ih fun tail htail => h tail (htail.trans (List.suffix_cons c text))

/-- No number of the pattern ends with a point, or goes before the other spelling of a unit. -/
theorem matchAt_unreadable {t : Term} (h : ¬ Readable t) (rest : List Char) {tail : List Char}
    (htail : tail <:+ t.text) (hne : tail ≠ []) : matchAt (tail ++ rest) = none := by
  rw [← Option.not_isSome_iff_eq_none, Option.isSome_iff_exists]
  rintro ⟨⟨number, unit, rest'⟩, hmatch⟩
  obtain ⟨hnumber, ⟨known, hknown, rfl⟩, -⟩ := matchAt_eq_some hmatch
  obtain ⟨htake, hdrop⟩ := matchAt_number_chars hmatch
  have hnumberChars : ∀ c ∈ t.number, isNumber c = true := by
    intro c hc
    rcases List.mem_append.mp hc with hc | hc
    · exact isNumber_of_isDigit (t.whole_digits c hc)
    · cases hfraction : t.fraction with
      | none =>
          rw [hfraction] at hc
          cases hc
      | some digits =>
          have hdigits := t.fraction_digits
          rw [hfraction] at hc hdigits
          rcases List.mem_cons.mp hc with rfl | hc
          · rfl
          · exact isNumber_of_isDigit (hdigits c hc)
  obtain ⟨before, d, hlast, hd⟩ := hnumber.exists_last
  rcases List.suffix_or_suffix_of_suffix htail (List.suffix_append t.number t.unit.text) with
    hletters | ⟨part, rfl⟩
  · -- the tail begins inside the unit
    obtain ⟨c, tail', rfl⟩ := List.exists_cons_of_ne_nil hne
    have hc : ¬ isNumber c = true := by
      rw [unit_text_letters t.unit c (hletters.subset List.mem_cons_self)]
      exact Bool.false_ne_true
    rw [List.cons_append, List.takeWhile_cons_of_neg hc, hlast] at htake
    simp at htake
  · -- it begins inside the number
    obtain ⟨front, hfront⟩ := htail
    rw [Term.text, ← List.append_assoc] at hfront
    have hpart : front ++ part = t.number := List.append_cancel_right hfront
    have hpartChars : ∀ c ∈ part, isNumber c = true := by
      intro c hc
      exact hnumberChars c (hpart ▸ List.mem_append_right front hc)
    obtain ⟨htake', hdrop'⟩ := takeWhile_append_of_stop hpartChars (unit_stop t.unit rest)
    rw [List.append_assoc, htake'] at htake
    rw [List.append_assoc, hdrop'] at hdrop
    rw [Readable, not_and_or, not_not, not_not] at h
    rcases h with hfraction | hunit
    · have hdot : (front ++ (before ++ [d])).getLast? = some '.' := by
        rw [← hlast, htake, hpart, Term.number, hfraction]
        exact List.getLast?_concat
      rw [← List.append_assoc, List.getLast?_concat] at hdot
      rw [Option.some.inj hdot] at hd
      exact absurd hd (by decide)
    · rw [hunit] at hdrop
      have hhead : (known.text ++ rest').head? = some '\u03bc' := by
        rw [hdrop]
        rfl
      have hall : ∀ known ∈ patternUnits, known.text.head? ≠ some '\u03bc' := by decide
      rw [List.head?_append_of_ne_nil _ (unit_text_ne_nil known)] at hhead
      exact hall known hknown hhead

/-- The terms that the pattern finds. -/
def readable (terms : List Term) : List Term := terms.filter fun t => Readable t

theorem allMatches_flatMap (terms : List Term) : allMatches (terms.flatMap Term.text) =
    (readable terms).map fun t => (t.number, t.unit.text) := by
  induction terms with
  | nil => exact allMatches_nil
  | cons t terms ih =>
      rw [List.flatMap_cons, readable]
      by_cases h : Readable t
      · rw [List.filter_cons_of_pos (by simpa using h), List.map_cons,
          allMatches_match (matchAt_readable h (startsTerm_flatMap terms)), ih]
        rfl
      · rw [List.filter_cons_of_neg (by simpa using h),
          allMatches_append fun tail htail hne => matchAt_unreadable h _ htail hne, ih]
        rfl

/-- A sign is no part of a number. -/
theorem allMatches_sign (sign : Sign) (rest : List Char) :
    allMatches (sign.text ++ rest) = allMatches rest := by
  have hskip : ∀ c : Char, isNumber c = false → allMatches (c :: rest) = allMatches rest := by
    intro c hc
    apply allMatches_skip
    rw [← Option.not_isSome_iff_eq_none, Option.isSome_iff_exists]
    rintro ⟨⟨number, unit, rest'⟩, hmatch⟩
    obtain ⟨hnumber, -, -⟩ := matchAt_eq_some hmatch
    obtain ⟨before, d, hlast, -⟩ := hnumber.exists_last
    have htake := (matchAt_number_chars hmatch).1
    rw [List.takeWhile_cons_of_neg (by rw [hc]; exact Bool.false_ne_true), hlast] at htake
    simp at htake
  cases sign with
  | none => rfl
  | plus => exact hskip '+' (by decide)
  | minus => exact hskip '-' (by decide)

theorem parseFloat_number (t : Term) :
    parseFloat t.number = decimal t.whole (t.fraction.getD []) := by
  have hstop : ∀ c, (fractionText t.fraction).head? = some c → c.isDigit = false := by
    intro c hc
    cases hfraction : t.fraction with
    | none =>
        rw [hfraction] at hc
        cases hc
    | some digits =>
        rw [hfraction] at hc
        obtain rfl : '.' = c := Option.some.inj hc
        decide
  obtain ⟨htake, hdrop⟩ := takeWhile_append_of_stop t.whole_digits hstop
  rw [parseFloat, Term.number, htake, hdrop]
  cases t.fraction with
  | none => rfl
  | some digits => rfl

theorem foldlM_readable (terms : List Term) (hterms : ∀ t ∈ terms, Readable t) (total : ℚ) :
    ((terms.map fun t => (t.number, t.unit.text)).foldlM (fun total found =>
      (units found.2).map fun mul => total + parseFloat found.1 * mul) total) =
      some (total + (terms.map Term.value).sum) := by
  induction terms generalizing total with
  | nil =>
      rw [List.map_nil, List.map_nil, List.sum_nil, add_zero]
      rfl
  | cons t terms ih =>
      obtain ⟨ht, hrest⟩ := List.forall_mem_cons.mp hterms
      rw [List.map_cons, List.foldlM_cons, units_text ht.unit_mem, parseFloat_number]
      show (List.map _ terms).foldlM _ (total + t.value) = _
      rw [ih hrest, List.map_cons, List.sum_cons, add_assoc]

/-- What the client makes of a duration: the sum of the readable terms. -/
theorem parseDuration_spells {s : List Char} {sign : Sign} {terms : List Term}
    (h : Spells s sign terms) : parseDuration s =
      if readable terms = [] then none else some ((readable terms).map Term.value).sum := by
  have hmatches : allMatches s = (readable terms).map fun t => (t.number, t.unit.text) := by
    rw [h.text_eq, allMatches_sign, allMatches_flatMap]
  rw [parseDuration, hmatches]
  by_cases hnil : readable terms = []
  · rw [if_pos hnil, hnil]
    rfl
  · have hterms : ∀ t ∈ readable terms, Readable t := fun t ht =>
      of_decide_eq_true (List.mem_filter.mp ht).2
    rw [if_neg hnil, if_neg fun h => hnil (List.map_eq_nil_iff.mp h), foldlM_readable _ hterms,
      zero_add]

/-! ## Where the parsers agree -/

/-- The client finds all of the duration that counts: there is a term it finds, the others are
zero, and with a minus sign all are. -/
structure Covered (sign : Sign) (terms : List Term) : Prop where
  found : ∃ t ∈ terms, Readable t
  zero : ∀ t ∈ terms, sign = .minus ∨ ¬ Readable t → t.value = 0

/-- The client reads the text as the server does. -/
def Shared (s : List Char) : Prop :=
  (∃ sign terms, Spells s sign terms ∧ Covered sign terms) ∨
    ¬ IsDuration s ∧ ∀ d : Char, d.isDigit = true → ∀ unit ∈ patternUnits, ¬ d :: unit.text <:+: s

theorem value_nonneg (t : Term) : 0 ≤ t.value := by
  have hunit : 0 ≤ t.unit.millis := by
    cases t.unit <;> norm_num [TimeUnit.millis]
  exact mul_nonneg (div_nonneg (Nat.cast_nonneg _) (by positivity)) hunit

theorem sum_value_nonneg (terms : List Term) : 0 ≤ (terms.map Term.value).sum := by
  apply List.sum_nonneg
  intro d hd
  obtain ⟨t, -, rfl⟩ := List.mem_map.mp hd
  exact value_nonneg t

theorem sum_value_eq_zero_iff (terms : List Term) :
    (terms.map Term.value).sum = 0 ↔ ∀ t ∈ terms, t.value = 0 := by
  induction terms with
  | nil => exact iff_of_true rfl fun t ht => absurd ht List.not_mem_nil
  | cons t terms ih =>
      rw [List.map_cons, List.sum_cons, List.forall_mem_cons, ← ih,
        add_eq_zero_iff_of_nonneg (value_nonneg t) (sum_value_nonneg terms)]

/-- The terms that the pattern does not find. -/
def unreadable (terms : List Term) : List Term := terms.filter fun t => ¬ Readable t

theorem sum_value_eq (terms : List Term) : (terms.map Term.value).sum =
    ((readable terms).map Term.value).sum + ((unreadable terms).map Term.value).sum := by
  induction terms with
  | nil => exact (add_zero 0).symm
  | cons t terms ih =>
      rw [readable, unreadable] at ih ⊢
      by_cases h : Readable t
      · rw [List.filter_cons_of_pos (by simpa using h), List.filter_cons_of_neg (by simpa using h),
          List.map_cons, List.map_cons, List.sum_cons, List.sum_cons, ih, add_assoc]
      · rw [List.filter_cons_of_neg (by simpa using h), List.filter_cons_of_pos (by simpa using h),
          List.map_cons, List.map_cons, List.sum_cons, List.sum_cons, ih, add_left_comm]

theorem covered_iff (sign : Sign) (terms : List Term) : Covered sign terms ↔
    readable terms ≠ [] ∧
      ((readable terms).map Term.value).sum = sign.apply (terms.map Term.value).sum := by
  have hfound : readable terms ≠ [] ↔ ∃ t ∈ terms, Readable t := by
    rw [readable, Ne, List.filter_eq_nil_iff]
    simp
  have hunreadable : ((unreadable terms).map Term.value).sum = 0 ↔
      ∀ t ∈ terms, ¬ Readable t → t.value = 0 := by
    rw [sum_value_eq_zero_iff]
    simp [unreadable]
  have hread := sum_value_nonneg (readable terms)
  have hunread := sum_value_nonneg (unreadable terms)
  have hsum := sum_value_eq terms
  have hzero : ((readable terms).map Term.value).sum = sign.apply (terms.map Term.value).sum ↔
      ∀ t ∈ terms, sign = .minus ∨ ¬ Readable t → t.value = 0 := by
    by_cases hminus : sign = .minus
    · subst hminus
      have hall : ((readable terms).map Term.value).sum = -(terms.map Term.value).sum ↔
          (terms.map Term.value).sum = 0 := by
        constructor
        · intro h
          linarith
        · intro h
          linarith
      show ((readable terms).map Term.value).sum = -(terms.map Term.value).sum ↔ _
      rw [hall, sum_value_eq_zero_iff]
      simp
    · have happly : sign.apply (terms.map Term.value).sum = (terms.map Term.value).sum := by
        cases sign with
        | none => rfl
        | plus => rfl
        | minus => exact absurd rfl hminus
      rw [happly, hsum, left_eq_add, hunreadable]
      simp only [hminus, false_or]
  rw [hfound, hzero]
  exact ⟨fun h => ⟨h.found, h.zero⟩, fun h => ⟨h.1, h.2⟩⟩

/-- On a duration with terms the parsers agree if the client finds all that counts. -/
theorem agree_of_spells {s : List Char} {sign : Sign} {terms : List Term}
    (h : Spells s sign terms) :
    parseDuration s = GoDuration.parseDuration s ↔ Covered sign terms := by
  rw [parseDuration_spells h, h.parseDuration_eq, covered_iff]
  split
  next hnil => simp [hnil]
  next hne => rw [Option.some.injEq, and_iff_right hne]

/-- The client's parser and Go's agree on a text if and only if it is a duration of which the
client finds all that counts, or it is none and no digit stands directly before a unit. -/
theorem parseDuration_agrees_iff (s : List Char) :
    parseDuration s = GoDuration.parseDuration s ↔ Shared s := by
  by_cases hspells : ∃ sign terms, Spells s sign terms
  · obtain ⟨sign, terms, h⟩ := hspells
    constructor
    · intro hagree
      exact .inl ⟨sign, terms, h, (agree_of_spells h).mp hagree⟩
    · rintro (⟨sign', terms', h', hcovered⟩ | ⟨hnot, -⟩)
      · exact (agree_of_spells h').mpr hcovered
      · exact absurd ⟨sign, .inr ⟨terms, h⟩⟩ hnot
  · have hleft : ¬ ∃ sign terms, Spells s sign terms ∧ Covered sign terms := by
      rintro ⟨sign, terms, h, -⟩
      exact hspells ⟨sign, terms, h⟩
    rw [Shared, or_iff_right hleft, ← allMatches_eq_nil_iff, ← parseDuration_eq_none_iff]
    by_cases hduration : IsDuration s
    · -- a zero without a unit
      obtain ⟨sign, hzero | ⟨terms, h⟩⟩ := hduration
      · have hnone : parseDuration s = none := by
          rw [parseDuration_eq_none_iff, hzero, allMatches_sign]
          have hmatch : matchAt ['0'] = none := by decide
          rw [allMatches_skip hmatch, allMatches_nil]
        refine iff_of_false ?_ fun h => h.1 ⟨sign, .inl hzero⟩
        rw [hnone, hzero, parseDuration_zero]
        exact (Option.some_ne_none 0).symm
      · exact absurd ⟨sign, terms, h⟩ hspells
    · rw [(GoDuration.parseDuration_eq_none_iff s).mpr hduration, and_iff_right hduration]

/-- Five minutes. -/
def fiveMinutes : Term where
  whole := ['5']
  fraction := none
  unit := .m
  whole_digits := by simp
  fraction_digits := by simp
  some_digit := by decide

/-- A minus sign is lost: the server reads `-5m` as less than nothing, the client as five
minutes. -/
theorem parseDuration_minus :
    GoDuration.parseDuration "-5m".toList = some (-300000) ∧
      parseDuration "-5m".toList = some 300000 := by
  have hspells : Spells "-5m".toList .minus [fiveMinutes] := ⟨by decide, List.cons_ne_nil _ _⟩
  have hvalue : fiveMinutes.value = 300000 := by
    show ((5 : ℕ) : ℚ) / 10 ^ 0 * 60000 = 300000
    norm_num
  have hreadable : readable [fiveMinutes] = [fiveMinutes] := rfl
  constructor
  · rw [hspells.parseDuration_eq, List.map_singleton, List.sum_singleton, hvalue]
    rfl
  · rw [parseDuration_spells hspells, hreadable, if_neg (List.cons_ne_nil _ _), List.map_singleton,
      List.sum_singleton, hvalue]

end GritsClient

end Grits
