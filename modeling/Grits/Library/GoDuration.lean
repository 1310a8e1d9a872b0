import Mathlib.Algebra.BigOperators.Group.List.Basic
import Mathlib.Data.List.TakeWhile
import Mathlib.Tactic

/-!
# Durations in Go

`time.ParseDuration`, without the limits of a 64-bit number: a sign, and decimal numbers with a
unit each, or a zero without one.  A duration is a rational number of milliseconds here.
-/

namespace Grits

namespace GoDuration

/-- The units; `micro` is spelled with U+00B5 and `mu` with U+03BC. -/
inductive TimeUnit where
  | ns
  | us
  | micro
  | mu
  | ms
  | s
  | m
  | h
  deriving DecidableEq

/-- A unit as it is written. -/
def TimeUnit.text : TimeUnit → List Char
  | .ns => ['n', 's']
  | .us => ['u', 's']
  | .micro => ['\u00b5', 's']
  | .mu => ['\u03bc', 's']
  | .ms => ['m', 's']
  | .s => ['s']
  | .m => ['m']
  | .h => ['h']

/-- A unit in milliseconds. -/
def TimeUnit.millis : TimeUnit → ℚ
  | .ns => 1 / 1000000
  | .us | .micro | .mu => 1 / 1000
  | .ms => 1
  | .s => 1000
  | .m => 60000
  | .h => 3600000

/-- `unitMap` -/
def unitMap : List TimeUnit := [.ns, .us, .micro, .mu, .ms, .s, .m, .h]

/-- A decimal digit or the point of a number. -/
def isNumber (c : Char) : Bool := c = '.' || c.isDigit

/-- The number that some digits stand for. -/
def digitsValue (digits : List Char) : ℕ := digits.foldl (fun n c => 10 * n + (c.toNat - 48)) 0

/-- A number with digits before and behind the point. -/
def decimal (whole fraction : List Char) : ℚ :=
  (digitsValue (whole ++ fraction) : ℚ) / 10 ^ fraction.length

/-! ## The parser -/

/-- `(\.[0-9]*)?`: the digits behind a point, if there is one, and what follows. -/
def readFraction : List Char → Option (List Char) × List Char
  | '.' :: rest => (some (rest.takeWhile Char.isDigit), rest.dropWhile Char.isDigit)
  | rest => (none, rest)

/-- The loop of `ParseDuration`. -/
def parseTerms (s : List Char) : Option ℚ :=
  if s = [] then some 0
  else
    let whole := s.takeWhile Char.isDigit
    let (fraction, rest) := readFraction (s.dropWhile Char.isDigit)
    -- no digits
    if whole = [] ∧ fraction.getD [] = [] then none
    else
      let unitText := rest.takeWhile fun c => !isNumber c
      match unitMap.find? fun unit => unit.text = unitText with
      -- a missing or an unknown unit
      | none => none
      | some unit =>
          let tail := rest.dropWhile fun c => !isNumber c
          if tail.length < s.length then
            (parseTerms tail).map (decimal whole (fraction.getD []) * unit.millis + ·)
          else none
termination_by s.length

/-- A sign. -/
inductive Sign where
  | none
  | plus
  | minus
  deriving DecidableEq

/-- A sign as it is written. -/
def Sign.text : Sign → List Char
  | .none => []
  | .plus => ['+']
  | .minus => ['-']

/-- The sign a text begins with, and what follows it. -/
def readSign : List Char → Sign × List Char
  | '-' :: rest => (.minus, rest)
  | '+' :: rest => (.plus, rest)
  | s => (.none, s)

/-- A number with a sign. -/
def Sign.apply : Sign → ℚ → ℚ
  | .minus, d => -d
  | _, d => d

/-- `time.ParseDuration` -/
def parseDuration (s : List Char) : Option ℚ :=
  let (sign, rest) := readSign s
  if rest = ['0'] then some 0
  else if rest = [] then none
  else (parseTerms rest).map sign.apply

/-! ## The grammar -/

/-- A number with a unit. -/
structure Term where
  whole : List Char
  fraction : Option (List Char)
  unit : TimeUnit
  whole_digits : ∀ c ∈ whole, c.isDigit = true
  fraction_digits : ∀ c ∈ fraction.getD [], c.isDigit = true
  some_digit : ¬ (whole = [] ∧ fraction.getD [] = [])

/-- A fraction as it is written. -/
def fractionText : Option (List Char) → List Char
  | none => []
  | some digits => '.' :: digits

/-- A number as it is written. -/
def Term.number (t : Term) : List Char := t.whole ++ fractionText t.fraction

/-- A term as it is written. -/
def Term.text (t : Term) : List Char := t.number ++ t.unit.text

/-- A term in milliseconds. -/
def Term.value (t : Term) : ℚ := decimal t.whole (t.fraction.getD []) * t.unit.millis

/-- The text is a duration with this sign and these terms. -/
structure Spells (s : List Char) (sign : Sign) (terms : List Term) : Prop where
  text_eq : s = sign.text ++ terms.flatMap Term.text
  ne_nil : terms ≠ []

/-- The text is a duration: a zero, or terms. -/
def IsDuration (s : List Char) : Prop :=
  ∃ sign : Sign, s = sign.text ++ ['0'] ∨ ∃ terms, Spells s sign terms

/-! ## Reading a term -/

theorem unit_text_ne_nil (unit : TimeUnit) : unit.text ≠ [] := by
  cases unit <;> exact List.cons_ne_nil _ _

theorem unit_text_letters (unit : TimeUnit) : ∀ c ∈ unit.text, isNumber c = false := by
  cases unit <;> simp [TimeUnit.text, isNumber]

theorem unit_text_injective {unit unit' : TimeUnit} (h : unit.text = unit'.text) :
    unit = unit' := by
  cases unit <;> cases unit' <;> first | rfl | exact absurd h (by decide)

theorem mem_unitMap (unit : TimeUnit) : unit ∈ unitMap := by
  cases unit <;> decide

theorem find?_unitMap (unit : TimeUnit) :
    unitMap.find? (fun other => other.text = unit.text) = some unit := by
  cases unit <;> decide

theorem isNumber_of_isDigit {c : Char} (h : c.isDigit = true) : isNumber c = true := by
  rw [isNumber, h, Bool.or_true]

/-- The text ends, or goes on with a number. -/
def StartsTerm (rest : List Char) : Prop := ∀ c, rest.head? = some c → isNumber c = true

/-- The text ends, or goes on with a character that is not a digit. -/
def NoDigit (rest : List Char) : Prop := ∀ c, rest.head? = some c → c.isDigit = false

theorem takeWhile_append_of_stop {p : Char → Bool} {text rest : List Char}
    (htext : ∀ c ∈ text, p c = true) (hrest : ∀ c, rest.head? = some c → p c = false) :
    (text ++ rest).takeWhile p = text ∧ (text ++ rest).dropWhile p = rest := by
  have hstop : rest.takeWhile p = [] ∧ rest.dropWhile p = rest := by
    cases rest with
    | nil => exact ⟨rfl, rfl⟩
    | cons c rest =>
        have hc : ¬ p c = true := by
          rw [hrest c rfl]
          exact Bool.false_ne_true
        exact ⟨List.takeWhile_cons_of_neg hc, List.dropWhile_cons_of_neg hc⟩
  constructor
  · rw [List.takeWhile_append_of_pos htext, hstop.1, List.append_nil]
  · rw [List.dropWhile_append_of_pos htext, hstop.2]

theorem head?_unit_append (unit : TimeUnit) (rest : List Char) :
    ∃ c, (unit.text ++ rest).head? = some c ∧ isNumber c = false := by
  cases unit <;> exact ⟨_, rfl, by decide⟩

/-- A number ends where its unit begins. -/
theorem unit_stop (unit : TimeUnit) (rest : List Char) :
    ∀ c, (unit.text ++ rest).head? = some c → isNumber c = false := by
  intro c hc
  obtain ⟨d, hd, hletter⟩ := head?_unit_append unit rest
  rw [hc] at hd
  rw [Option.some.inj hd]
  exact hletter

theorem readFraction_append {fraction : Option (List Char)}
    (hdigits : ∀ c ∈ fraction.getD [], c.isDigit = true) (unit : TimeUnit) (rest : List Char) :
    readFraction (fractionText fraction ++ (unit.text ++ rest)) =
      (fraction, unit.text ++ rest) := by
  obtain ⟨c, hc, hletter⟩ := head?_unit_append unit rest
  rw [isNumber, Bool.or_eq_false_iff, decide_eq_false_iff_not] at hletter
  have hnodigit : NoDigit (unit.text ++ rest) := by
    intro d hd
    rw [hc] at hd
    rw [← Option.some.inj hd]
    exact hletter.2
  cases fraction with
  | none =>
      show readFraction (unit.text ++ rest) = _
      cases htext : unit.text ++ rest with
      | nil => rfl
      | cons d tail =>
          rw [htext] at hc
          have hd : d ≠ '.' := by
            rw [Option.some.inj hc]
            exact hletter.1
          rw [readFraction]
          intro tail' heq
          exact hd (List.cons.inj heq).1
  | some digits =>
      have hsplit := takeWhile_append_of_stop hdigits hnodigit
      rw [Option.getD_some] at hsplit
      show (some ((digits ++ (unit.text ++ rest)).takeWhile Char.isDigit),
        (digits ++ (unit.text ++ rest)).dropWhile Char.isDigit) = (some digits, _)
      rw [hsplit.1, hsplit.2]

theorem parseTerms_append (t : Term) {rest : List Char} (hrest : StartsTerm rest) :
    parseTerms (t.text ++ rest) = (parseTerms rest).map (t.value + ·) := by
  have hne : t.text ++ rest ≠ [] := by
    rw [Term.text, List.append_assoc]
    intro h
    exact unit_text_ne_nil t.unit (List.append_eq_nil_iff.mp (List.append_eq_nil_iff.mp h).2).1
  have htext : t.text ++ rest = t.whole ++ (fractionText t.fraction ++ (t.unit.text ++ rest)) := by
    rw [Term.text, Term.number, List.append_assoc, List.append_assoc]
  have hstop : NoDigit (fractionText t.fraction ++ (t.unit.text ++ rest)) := by
    intro c hc
    cases hfraction : t.fraction with
    | none =>
        rw [hfraction] at hc
        obtain ⟨d, hd, hletter⟩ := head?_unit_append t.unit rest
        rw [isNumber, Bool.or_eq_false_iff] at hletter
        have hcd : d = c := Option.some.inj (hd.symm.trans hc)
        rw [← hcd]
        exact hletter.2
    | some digits =>
        rw [hfraction] at hc
        obtain rfl : '.' = c := Option.some.inj hc
        decide
  obtain ⟨htake, hdrop⟩ := takeWhile_append_of_stop t.whole_digits hstop
  have hletters : ∀ c ∈ t.unit.text, (!isNumber c) = true := by
    intro c hc
    rw [unit_text_letters t.unit c hc]
    rfl
  have hnumber : ∀ c, rest.head? = some c → (!isNumber c) = false := by
    intro c hc
    rw [hrest c hc]
    rfl
  obtain ⟨hunit, htail⟩ := takeWhile_append_of_stop hletters hnumber
  have hshorter : rest.length < (t.text ++ rest).length := by
    have := List.length_pos_iff.mpr (unit_text_ne_nil t.unit)
    rw [List.length_append, Term.text, List.length_append]
    omega
  have hwhole : (t.text ++ rest).takeWhile Char.isDigit = t.whole := by
    rw [htext, htake]
  have hfraction : readFraction ((t.text ++ rest).dropWhile Char.isDigit) =
      (t.fraction, t.unit.text ++ rest) := by
    rw [htext, hdrop, readFraction_append t.fraction_digits]
  rw [parseTerms, if_neg hne]
  simp only [hwhole, hfraction, hunit, htail, find?_unitMap]
  rw [if_neg t.some_digit, if_pos hshorter]
  rfl

theorem startsTerm_flatMap (terms : List Term) : StartsTerm (terms.flatMap Term.text) := by
  intro c hc
  cases terms with
  | nil => cases hc
  | cons t terms =>
      rw [List.flatMap_cons, Term.text, Term.number, List.append_assoc, List.append_assoc] at hc
      cases hwhole : t.whole with
      | cons d whole =>
          rw [hwhole] at hc
          obtain rfl : d = c := Option.some.inj hc
          exact isNumber_of_isDigit (t.whole_digits d (by rw [hwhole]; exact List.mem_cons_self))
      | nil =>
          cases hfraction : t.fraction with
          | none => exact absurd ⟨hwhole, by rw [hfraction]; rfl⟩ t.some_digit
          | some digits =>
              rw [hwhole, hfraction] at hc
              obtain rfl : '.' = c := Option.some.inj hc
              rfl

/-- Terms are read as what they are. -/
theorem parseTerms_flatMap (terms : List Term) :
    parseTerms (terms.flatMap Term.text) = some (terms.map Term.value).sum := by
  induction terms with
  | nil =>
      rw [List.flatMap_nil, parseTerms, if_pos rfl]
      rfl
  | cons t terms ih =>
      rw [List.flatMap_cons, parseTerms_append t (startsTerm_flatMap terms), ih, List.map_cons,
        List.sum_cons]
      rfl

theorem readFraction_spec (s : List Char) :
    s = fractionText (readFraction s).1 ++ (readFraction s).2 ∧
      ∀ c ∈ (readFraction s).1.getD [], c.isDigit = true := by
  rw [readFraction.eq_def]
  split
  next rest =>
    constructor
    · show '.' :: rest = '.' :: (rest.takeWhile Char.isDigit ++ rest.dropWhile Char.isDigit)
      rw [List.takeWhile_append_dropWhile]
    · intro c hc
      exact List.mem_takeWhile_imp hc
  next =>
    refine ⟨rfl, ?_⟩
    intro c hc
    exact absurd hc List.not_mem_nil

/-- What is read is made of terms. -/
theorem exists_terms_of_parseTerms {s : List Char} {d : ℚ} (h : parseTerms s = some d) :
    ∃ terms : List Term, s = terms.flatMap Term.text := by
  induction hlength : s.length using Nat.strong_induction_on generalizing s d with
  | _ n ih =>
      rw [parseTerms] at h
      split at h
      next hnil => exact ⟨[], hnil⟩
      next hne =>
        obtain ⟨hspec, hdigits⟩ := readFraction_spec (s.dropWhile Char.isDigit)
        cases hfraction : readFraction (s.dropWhile Char.isDigit) with
        | mk fraction rest =>
            rw [hfraction] at h hspec hdigits
            dsimp only at h
            split at h
            next => cases h
            next hdigit =>
              split at h
              next => cases h
              next unit hunit =>
                split at h
                next hshorter =>
                  obtain ⟨tail, htail, -⟩ := Option.map_eq_some_iff.mp h
                  obtain ⟨terms, hterms⟩ := ih _ (hlength ▸ hshorter) htail rfl
                  have htext : unit.text = rest.takeWhile fun c => !isNumber c := by
                    simpa using List.find?_some hunit
                  let t : Term := ⟨s.takeWhile Char.isDigit, fraction, unit,
                    fun c hc => List.mem_takeWhile_imp hc, hdigits, hdigit⟩
                  refine ⟨t :: terms, ?_⟩
                  rw [List.flatMap_cons, ← hterms]
                  show s = (s.takeWhile Char.isDigit ++ fractionText fraction ++ unit.text) ++ _
                  rw [htext, List.append_assoc, List.takeWhile_append_dropWhile, List.append_assoc,
                    ← hspec, List.takeWhile_append_dropWhile]
                next => cases h

theorem readSign_text (sign : Sign) {rest : List Char} (hrest : StartsTerm rest) :
    readSign (sign.text ++ rest) = (sign, rest) := by
  cases sign with
  | plus => rfl
  | minus => rfl
  | none =>
      show readSign rest = _
      cases rest with
      | nil => rfl
      | cons c rest =>
          have hc := hrest c rfl
          rw [readSign]
          · intro rest' heq
            rw [(List.cons.inj heq).1] at hc
            exact absurd hc (by decide)
          · intro rest' heq
            rw [(List.cons.inj heq).1] at hc
            exact absurd hc (by decide)

theorem exists_readSign (s : List Char) : s = (readSign s).1.text ++ (readSign s).2 := by
  rw [readSign.eq_def]
  split
  next => rfl
  next => rfl
  next => rfl

theorem flatMap_text_ne {terms : List Term} (hne : terms ≠ []) :
    terms.flatMap Term.text ≠ [] ∧ terms.flatMap Term.text ≠ ['0'] := by
  obtain ⟨t, rest, rfl⟩ := List.exists_cons_of_ne_nil hne
  obtain ⟨c, letters, hunit⟩ := List.exists_cons_of_ne_nil (unit_text_ne_nil t.unit)
  have hletter : isNumber c = false :=
    unit_text_letters t.unit c (by rw [hunit]; exact List.mem_cons_self)
  have hmem : c ∈ (t :: rest).flatMap Term.text := by
    rw [List.flatMap_cons, Term.text, hunit]
    simp
  constructor
  · intro hnil
    rw [hnil] at hmem
    cases hmem
  · intro hzero
    rw [hzero, List.mem_singleton] at hmem
    rw [hmem] at hletter
    exact absurd hletter (by decide)

/-- A spelled duration is the sum of its terms. -/
theorem Spells.parseDuration_eq {s : List Char} {sign : Sign} {terms : List Term}
    (h : Spells s sign terms) :
    parseDuration s = some (sign.apply (terms.map Term.value).sum) := by
  obtain ⟨hnil, hzero⟩ := flatMap_text_ne h.ne_nil
  rw [parseDuration, h.text_eq, readSign_text sign (startsTerm_flatMap terms)]
  dsimp only
  rw [if_neg hzero, if_neg hnil, parseTerms_flatMap]
  rfl

theorem parseDuration_zero (sign : Sign) : parseDuration (sign.text ++ ['0']) = some 0 := by
  cases sign <;> rfl

/-- The parser accepts exactly the durations. -/
theorem parseDuration_eq_none_iff (s : List Char) : parseDuration s = none ↔ ¬ IsDuration s := by
  constructor
  · rintro hnone ⟨sign, rfl | ⟨terms, hspells⟩⟩
    · rw [parseDuration_zero] at hnone
      cases hnone
    · rw [hspells.parseDuration_eq] at hnone
      cases hnone
  · intro hnot
    rw [← Option.not_isSome_iff_eq_none, Option.isSome_iff_exists]
    rintro ⟨d, hd⟩
    apply hnot
    have hsign := exists_readSign s
    refine ⟨(readSign s).1, ?_⟩
    rw [parseDuration] at hd
    dsimp only at hd
    split at hd
    next hzero =>
      left
      rw [← hzero]
      exact hsign
    next =>
      split at hd
      next => cases hd
      next hne =>
        right
        obtain ⟨sum, hsum, -⟩ := Option.map_eq_some_iff.mp hd
        obtain ⟨terms, hterms⟩ := exists_terms_of_parseTerms hsum
        refine ⟨terms, ?_, ?_⟩
        · rw [← hterms]
          exact hsign
        · rintro rfl
          exact hne hterms

end GoDuration

end Grits
