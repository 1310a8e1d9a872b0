import Mathlib
import Grits.Library.JsLiteral

/-!
# Reading JSON that has been written

`JSON.stringify` and Go's `json.Marshal` write JSON without white space, and differ in what they
escape in a string.  `Compact` relates a text that either may have written to the value it stands
for, and Go's parser reads it as that value, whatever follows the text.
-/

namespace Grits

namespace Json

open Utf16

/-! ## String literals -/

/-- What the scanner does with the character that it meets. -/
theorem scanString_cons (rest : List Char) :
    scanString ('\x22' :: rest) = some ([], rest) ∧
    (∀ c : Char, c ≠ '\x22' → c ≠ '\\' → 0x20 ≤ c.toNat → scanString (c :: rest) =
      (scanString rest).map fun read => (.char c :: read.1, read.2)) ∧
    (∀ c d : Char, c ≠ 'u' → unescape c = some d → scanString ('\\' :: c :: rest) =
      (scanString rest).map fun read => (.char d :: read.1, read.2)) ∧
    ∀ (c₁ c₂ c₃ c₄ : Char) (unit : UInt16), getu4 c₁ c₂ c₃ c₄ = some unit →
      scanString ('\\' :: 'u' :: c₁ :: c₂ :: c₃ :: c₄ :: rest) =
        (scanString rest).map fun read => (ofUnit unit :: read.1, read.2) := by
  refine ⟨by rw [scanString], ?_, ?_, ?_⟩
  · intro c hquote hslash hlarge
    rw [scanString, if_neg (by omega)]
    · cases scanString rest <;> rfl
    · exact hquote
    · intro a b d e tail hc
      exact absurd hc hslash
    · intro d tail hc
      exact absurd hc hslash
  · intro c d hu h
    rw [scanString, h]
    · cases scanString rest <;> rfl
    · intro a b d e tail hc
      exact absurd hc hu
  · intro c₁ c₂ c₃ c₄ unit hunit
    rw [scanString, hunit]
    cases scanString rest <;> rfl

/-- The text spells these code points inside of a string literal. -/
def Spells (text : List Char) (points : List CodePoint) : Prop :=
  ∀ rest, scanString (text ++ rest) =
    (scanString rest).map fun read => (points ++ read.1, read.2)

theorem Spells.nil : Spells [] [] := by
  intro rest
  rw [List.nil_append]
  cases scanString rest <;> rfl

theorem Spells.append {text text' : List Char} {points points' : List CodePoint}
    (h : Spells text points) (h' : Spells text' points') :
    Spells (text ++ text') (points ++ points') := by
  intro rest
  rw [List.append_assoc, h, h']
  cases scanString rest with
  | none => rfl
  | some read => simp only [Option.map_some, List.append_assoc]

theorem Spells.flatMap {α : Type} {write : α → List Char} {point : α → CodePoint} {all : List α}
    (h : ∀ a ∈ all, Spells (write a) [point a]) : Spells (all.flatMap write) (all.map point) := by
  induction all with
  | nil => exact .nil
  | cons a all ih =>
      rw [List.flatMap_cons, List.map_cons]
      exact (h a List.mem_cons_self).append (ih fun b hb => h b (List.mem_cons_of_mem a hb))

/-- A literal ends at the quote that follows its text. -/
theorem Spells.scan {text : List Char} {points : List CodePoint} (h : Spells text points)
    (rest : List Char) : scanString (text ++ '\x22' :: rest) = some (points, rest) := by
  rw [h, (scanString_cons rest).1, Option.map_some, List.append_nil]

theorem spells_plain {c : Char} (hquote : c ≠ '\x22') (hslash : c ≠ '\\')
    (hlarge : 0x20 ≤ c.toNat) :
    Spells [c] [.char c] := by
  intro rest
  exact (scanString_cons rest).2.1 c hquote hslash hlarge

theorem spells_escape {c d : Char} (hu : c ≠ 'u') (h : unescape c = some d) :
    Spells ['\\', c] [.char d] := by
  intro rest
  exact (scanString_cons rest).2.2.1 c d hu h

theorem spells_unicode (unit : UInt16) : Spells (unicodeEscape unit) [ofUnit unit] := by
  have hlt : unit.toNat < 0x10000 := unit.toNat_lt
  have hunit : getu4 (hexDigit (unit.toNat / 4096)) (hexDigit (unit.toNat / 256 % 16))
      (hexDigit (unit.toNat / 16 % 16)) (hexDigit (unit.toNat % 16)) = some unit := by
    rw [getu4, JsLiteral.hexValue_hexDigit (by omega), JsLiteral.hexValue_hexDigit (by omega),
      JsLiteral.hexValue_hexDigit (by omega), JsLiteral.hexValue_hexDigit (by omega)]
    show some (UInt16.ofNat (unit.toNat / 4096 * 4096 + unit.toNat / 256 % 16 * 256 +
      unit.toNat / 16 % 16 * 16 + unit.toNat % 16)) = _
    rw [show unit.toNat / 4096 * 4096 + unit.toNat / 256 % 16 * 256 + unit.toNat / 16 % 16 * 16 +
      unit.toNat % 16 = unit.toNat by omega, UInt16.ofNat_toNat]
  intro rest
  exact (scanString_cons rest).2.2.2 _ _ _ _ unit hunit

/-- A character written as an escape of its code unit. -/
theorem spells_unicode_char {c : Char} (h : c.toNat < 0x10000) :
    Spells (unicodeEscape (UInt16.ofNat c.toNat)) [.char c] := by
  rw [← ofUnit_char h]
  exact spells_unicode _

/-! ### What JavaScript writes -/

theorem spells_quoteChar (c : Char) : Spells (quoteChar c) [.char c] := by
  unfold quoteChar
  split
  next h => rw [h]; exact spells_escape (by decide) (by decide)
  split
  next h => rw [h]; exact spells_escape (by decide) (by decide)
  split
  next h => rw [h]; exact spells_escape (by decide) (by decide)
  split
  next h => rw [h]; exact spells_escape (by decide) (by decide)
  split
  next h => rw [h]; exact spells_escape (by decide) (by decide)
  split
  next h => rw [h]; exact spells_escape (by decide) (by decide)
  split
  next h => rw [h]; exact spells_escape (by decide) (by decide)
  split
  next h => exact spells_unicode_char (by omega)
  next hquote hslash hsmall => exact spells_plain hquote hslash (by omega)

/-- A surrogate that stands alone in a string is one. -/
theorem surrogate_of_mem {s : JsString} {unit : UInt16} (h : CodePoint.lone unit ∈ codePoints s) :
    IsHigh unit ∨ IsLow unit := by
  have hone : ∀ other : UInt16, ofUnit other = .lone unit → IsHigh unit ∨ IsLow unit := by
    intro other hother
    unfold ofUnit at hother
    split at hother
    next hsurrogate => cases hother; exact hsurrogate
    next => cases hother
  induction s using codePoints.induct with
  | case1 => cases h
  | case2 other =>
      rw [codePoints, List.mem_singleton] at h
      exact hone other h.symm
  | case3 high low rest hpair ih =>
      rw [codePoints, if_pos hpair] at h
      rcases List.mem_cons.mp h with h | h
      · cases h
      · exact ih h
  | case4 high low rest hpair ih =>
      rw [codePoints, if_neg hpair] at h
      rcases List.mem_cons.mp h with h | h
      · exact hone high h.symm
      · exact ih h

theorem spells_codePoints (s : JsString) :
    Spells ((codePoints s).flatMap quotePoint) (codePoints s) := by
  have hall : Spells ((codePoints s).flatMap quotePoint) ((codePoints s).map id) := by
    refine Spells.flatMap fun point hpoint => ?_
    cases point with
    | char c => exact spells_quoteChar c
    | lone unit =>
        have hunit : ofUnit unit = .lone unit := if_pos (surrogate_of_mem hpoint)
        have hspells := spells_unicode unit
        rw [hunit] at hspells
        exact hspells
  rwa [List.map_id] at hall

/-! ### What Go writes -/

/-- A character inside of a string literal, as `appendString` writes it when it escapes what HTML
would read. -/
def goQuoteChar (c : Char) : List Char :=
  if c = '\x22' then ['\\', '\x22']
  else if c = '\\' then ['\\', '\\']
  else if c = '\x08' then ['\\', 'b']
  else if c = '\x0c' then ['\\', 'f']
  else if c = '\x0a' then ['\\', 'n']
  else if c = '\x0d' then ['\\', 'r']
  else if c = '\x09' then ['\\', 't']
  else if c.toNat < 0x20 ∨ c ∈ ['<', '>', '&', '\u2028', '\u2029'] then
    unicodeEscape (UInt16.ofNat c.toNat)
  else [c]

theorem spells_goQuoteChar (c : Char) : Spells (goQuoteChar c) [.char c] := by
  unfold goQuoteChar
  split
  next h => rw [h]; exact spells_escape (by decide) (by decide)
  split
  next h => rw [h]; exact spells_escape (by decide) (by decide)
  split
  next h => rw [h]; exact spells_escape (by decide) (by decide)
  split
  next h => rw [h]; exact spells_escape (by decide) (by decide)
  split
  next h => rw [h]; exact spells_escape (by decide) (by decide)
  split
  next h => rw [h]; exact spells_escape (by decide) (by decide)
  split
  next h => rw [h]; exact spells_escape (by decide) (by decide)
  split
  next h =>
    refine spells_unicode_char ?_
    rcases h with h | h
    · omega
    · simp only [List.mem_cons, List.not_mem_nil, or_false] at h
      rcases h with rfl | rfl | rfl | rfl | rfl
      · decide
      · decide
      · decide
      · decide
      · decide
  next hquote hslash _ _ _ _ _ hplain =>
    exact spells_plain hquote hslash (by omega)

/-- A string, as Go writes it. -/
def goQuote (s : List Char) : List Char := '\x22' :: s.flatMap goQuoteChar ++ ['\x22']

theorem spells_goQuote (s : List Char) : Spells (s.flatMap goQuoteChar) (s.map .char) :=
  Spells.flatMap fun c _ => spells_goQuoteChar c

theorem joinHalves_char (s : List Char) : joinHalves (s.map .char) = s := by
  induction s with
  | nil => rfl
  | cons c s ih => rw [List.map_cons, joinHalves, ih]

/-! ## Numbers -/

/-- What may follow a value. -/
def Delimited (rest : List Char) : Prop := ∀ c ∈ rest.head?, c = ',' ∨ c = '\x7d'

theorem delimited_nil : Delimited [] := by
  intro c h
  cases h

theorem delimited_comma (rest : List Char) : Delimited (',' :: rest) := by
  intro c h
  exact .inl (Option.some.inj h).symm

theorem delimited_brace (rest : List Char) : Delimited ('\x7d' :: rest) := by
  intro c h
  exact .inr (Option.some.inj h).symm

/-- The text is a number, and is read to its end. -/
structure Numeral (text : List Char) : Prop where
  head : ∃ c tail, text = c :: tail ∧ (c = '-' ∨ c.isDigit = true)
  scan : ∀ rest, Delimited rest → scanNumber (text ++ rest) = some (text, rest)

theorem Delimited.not_digit {rest : List Char} (h : Delimited rest) :
    ∀ c ∈ rest.head?, c.isDigit = false := by
  intro c hc
  rcases h c hc with rfl | rfl
  · rfl
  · rfl

theorem takeWhile_digits {digits rest : List Char} (hdigits : ∀ c ∈ digits, c.isDigit = true)
    (hrest : Delimited rest) : (digits ++ rest).takeWhile Char.isDigit = digits ∧
      (digits ++ rest).dropWhile Char.isDigit = rest := by
  rw [List.takeWhile_append_of_pos hdigits, List.dropWhile_append_of_pos hdigits]
  cases rest with
  | nil => exact ⟨List.append_nil _, rfl⟩
  | cons c rest =>
      have hc := hrest.not_digit c rfl
      have htake : (c :: rest).takeWhile Char.isDigit = [] := by
        rw [List.takeWhile_cons_of_neg (by simp [hc])]
      have hdrop : (c :: rest).dropWhile Char.isDigit = c :: rest := by
        rw [List.dropWhile_cons_of_neg (by simp [hc])]
      rw [htake, hdrop]
      exact ⟨List.append_nil _, rfl⟩

theorem scanFraction_delimited {rest : List Char} (h : Delimited rest) :
    scanFraction rest = some ([], rest) := by
  unfold scanFraction
  split
  next tail => rcases h '.' rfl with h | h <;> cases h
  next => rfl

theorem scanExponent_delimited {rest : List Char} (h : Delimited rest) :
    scanExponent rest = some ([], rest) := by
  cases rest with
  | nil => rfl
  | cons c rest =>
      unfold scanExponent
      simp only
      rw [if_neg]
      rintro (rfl | rfl)
      · rcases h 'e' rfl with h | h <;> cases h
      · rcases h 'E' rfl with h | h <;> cases h

/-- Digits without a leading zero are read to their end. -/
theorem scanUnsigned_digits {c : Char} {digits rest : List Char}
    (hdigits : ∀ d ∈ c :: digits, d.isDigit = true) (hzero : c = '0' → digits = [])
    (hrest : Delimited rest) :
    scanUnsigned (c :: digits ++ rest) = some (c :: digits, rest) := by
  have hinteger : scanInteger (c :: digits ++ rest) = some (c :: digits, rest) := by
    rw [List.cons_append, scanInteger]
    split
    next hc => rw [hzero hc]; rfl
    next =>
      obtain ⟨htake, hdrop⟩ := takeWhile_digits
        (fun d hd => hdigits d (List.mem_cons_of_mem c hd)) hrest
      rw [if_pos (hdigits c List.mem_cons_self), htake, hdrop]
  rw [scanUnsigned, hinteger]
  show (scanFraction rest).bind _ = _
  rw [scanFraction_delimited hrest]
  show (scanExponent rest).bind _ = _
  rw [scanExponent_delimited hrest]
  show some (c :: digits ++ [] ++ [], rest) = _
  rw [List.append_nil, List.append_nil]

theorem ofAscii_digit {byte : UInt8} (h : 48 ≤ byte.toNat ∧ byte.toNat ≤ 57) :
    (Char.ofNat byte.toNat).isDigit = true := by
  have hall : ∀ byte : UInt8, 48 ≤ byte.toNat ∧ byte.toNat ≤ 57 →
      (Char.ofNat byte.toNat).isDigit = true := by decide +kernel
  exact hall byte h

theorem isDigit_of_mem_ofAscii {n : ℕ} : ∀ c ∈ ofAscii (Decimal.formatNat n), c.isDigit = true := by
  intro c hc
  obtain ⟨byte, hbyte, rfl⟩ := List.mem_map.mp hc
  exact ofAscii_digit (Decimal.digit_of_mem_formatNat hbyte)

/-- A natural number is written without a leading zero. -/
theorem formatNat_cons (n : ℕ) : ∃ c digits, ofAscii (Decimal.formatNat n) = c :: digits ∧
    (c = '0' → digits = []) := by
  by_cases hn : n = 0
  · subst hn
    exact ⟨'0', [], rfl, fun _ => rfl⟩
  · have hne : Nat.digits 10 n ≠ [] := Nat.digits_ne_nil_iff_ne_zero.mpr hn
    have hlast := Nat.getLast_digit_ne_zero 10 hn
    have hlt : (Nat.digits 10 n).getLast hne < 10 :=
      Nat.digits_lt_base (by decide) (List.getLast_mem hne)
    have hrev : (Nat.digits 10 n).reverse =
        (Nat.digits 10 n).getLast hne :: (Nat.digits 10 n).dropLast.reverse := by
      conv_lhs => rw [← List.dropLast_append_getLast hne]
      rw [List.reverse_append]
      rfl
    rw [Decimal.formatNat, if_neg hn, hrev, ofAscii, List.map_cons, List.map_cons]
    refine ⟨_, _, rfl, fun hzero => ?_⟩
    have hall : ∀ d < 10, Char.ofNat (UInt8.ofNat (48 + d)).toNat = '0' → d = 0 := by decide
    exact absurd (hall _ hlt hzero) hlast

theorem numeral_formatNat (n : ℕ) : Numeral (ofAscii (Decimal.formatNat n)) := by
  obtain ⟨c, digits, htext, hzero⟩ := formatNat_cons n
  have hdigits : ∀ d ∈ c :: digits, d.isDigit = true := htext ▸ isDigit_of_mem_ofAscii
  have hc := hdigits c List.mem_cons_self
  rw [htext]
  refine ⟨⟨c, digits, rfl, .inr hc⟩, fun rest hrest => ?_⟩
  rw [scanNumber]
  · exact scanUnsigned_digits hdigits hzero hrest
  · intro tail h
    rw [List.cons_append, List.cons.injEq] at h
    rw [h.1] at hc
    cases hc

theorem numeral_formatInt (n : ℤ) : Numeral (ofAscii (Decimal.formatInt n)) := by
  cases n with
  | ofNat n => exact numeral_formatNat n
  | negSucc n =>
      obtain ⟨c, digits, htext, hzero⟩ := formatNat_cons (n + 1)
      have hdigits : ∀ d ∈ c :: digits, d.isDigit = true := htext ▸ isDigit_of_mem_ofAscii
      have hsign : ofAscii (Decimal.formatInt (.negSucc n)) = '-' :: c :: digits := by
        rw [Decimal.formatInt, ofAscii, List.map_cons, ← ofAscii, htext]
        rfl
      rw [hsign]
      refine ⟨⟨'-', _, rfl, .inl rfl⟩, fun rest hrest => ?_⟩
      show (scanUnsigned (c :: digits ++ rest)).map _ = _
      rw [scanUnsigned_digits hdigits hzero hrest]
      rfl

/-! ## Texts without white space -/

mutual

/-- The text is written without white space, has objects at most `depth` deep, and stands for the
value. -/
inductive Compact : ℕ → List Char → Value → Prop
  | string {depth : ℕ} {text : List Char} {points : List CodePoint} (h : Spells text points) :
      Compact depth ('\x22' :: text ++ ['\x22']) (.string (joinHalves points))
  | number {depth : ℕ} {text : List Char} (h : Numeral text) : Compact depth text (.number text)
  | empty {depth : ℕ} : Compact (depth + 1) ['\x7b', '\x7d'] (.object [])
  | object {depth : ℕ} {text : List Char} {members : List (List Char × Value)}
      (h : CompactMembers depth text members) :
      Compact (depth + 1) ('\x7b' :: text ++ ['\x7d']) (.object members)

/-- The text is that of the members of an object. -/
inductive CompactMembers : ℕ → List Char → List (List Char × Value) → Prop
  | last {depth : ℕ} {key text : List Char} {points : List CodePoint} {value : Value}
      (hkey : Spells key points) (hvalue : Compact depth text value) :
      CompactMembers depth ('\x22' :: key ++ '\x22' :: ':' :: text) [(joinHalves points, value)]
  | cons {depth : ℕ} {key text rest : List Char} {points : List CodePoint} {value : Value}
      {members : List (List Char × Value)} (hkey : Spells key points)
      (hvalue : Compact depth text value) (hrest : CompactMembers depth rest members) :
      CompactMembers depth ('\x22' :: key ++ '\x22' :: ':' :: text ++ ',' :: rest)
        ((joinHalves points, value) :: members)

end

theorem skipSpace_cons {c : Char} (h : c ∉ [' ', '\x09', '\x0a', '\x0d']) (rest : List Char) :
    skipSpace (c :: rest) = c :: rest := by
  rw [skipSpace, List.dropWhile_cons_of_neg (by simpa using h)]

/-- A value begins with a character that is no white space. -/
theorem Compact.skipSpace_append {depth : ℕ} {text : List Char} {value : Value}
    (h : Compact depth text value) (rest : List Char) :
    skipSpace (text ++ rest) = text ++ rest := by
  cases h with
  | string h => exact skipSpace_cons (by decide) _
  | empty => exact skipSpace_cons (by decide) _
  | object h => exact skipSpace_cons (by decide) _
  | number h =>
      obtain ⟨c, tail, rfl, hc⟩ := h.head
      refine skipSpace_cons ?_ _
      rcases hc with rfl | hc
      · decide
      · intro hmem
        simp only [List.mem_cons, List.not_mem_nil, or_false] at hmem
        rcases hmem with rfl | rfl | rfl | rfl <;> cases hc

theorem CompactMembers.head {depth : ℕ} {text : List Char} {members : List (List Char × Value)}
    (h : CompactMembers depth text members) : ∃ tail, text = '\x22' :: tail := by
  cases h with
  | last hkey hvalue => exact ⟨_, rfl⟩
  | cons hkey hvalue hrest => exact ⟨_, rfl⟩

/-- What is read after the opening quote of a member. -/
theorem scan_key {key : List Char} {points : List CodePoint} (h : Spells key points)
    (rest : List Char) :
    scanString (key ++ '\x22' :: ':' :: rest) = some (points, ':' :: rest) := h.scan _

theorem Numeral.append_ne {text : List Char} (h : Numeral text) {d : Char} (hsign : d ≠ '-')
    (hdigit : d.isDigit = false) (rest tail : List Char) : text ++ rest ≠ d :: tail := by
  obtain ⟨c, tail', rfl, hc⟩ := h.head
  intro heq
  rw [List.cons_append, List.cons.injEq] at heq
  obtain ⟨rfl, -⟩ := heq
  rcases hc with hc | hc
  · exact hsign hc
  · rw [hdigit] at hc
    cases hc

theorem parseValue_numeral {text rest : List Char} (h : Numeral text) (hrest : Delimited rest)
    (hspace : skipSpace (text ++ rest) = text ++ rest) (fuel depth : ℕ) :
    parseValue (fuel + 1) depth (text ++ rest) = some (.number text, rest) := by
  rw [parseValue, hspace]
  split
  next tail heq => exact absurd heq (h.append_ne (by decide) (by decide) _ _)
  next tail heq => exact absurd heq (h.append_ne (by decide) (by decide) _ _)
  next tail heq => exact absurd heq (h.append_ne (by decide) (by decide) _ _)
  next tail heq => exact absurd heq (h.append_ne (by decide) (by decide) _ _)
  next tail heq => exact absurd heq (h.append_ne (by decide) (by decide) _ _)
  next tail heq => exact absurd heq (h.append_ne (by decide) (by decide) _ _)
  next => rw [h.scan rest hrest]; rfl

theorem parseValue_object (fuel depth : ℕ) (tail : List Char) :
    parseValue (fuel + 1) (depth + 1) ('\x7b' :: '\x22' :: tail) =
      (parseMembers fuel depth ('\x22' :: tail)).map fun read => (.object read.1, read.2) := by
  rw [parseValue, skipSpace_cons (by decide)]
  show (if depth + 1 = 0 then none else _) = _
  rw [if_neg (by omega), skipSpace_cons (by decide)]
  rfl

/-- The parser reads a text without white space as the value it stands for. -/
theorem parse_compact (fuel : ℕ) :
    (∀ depth text value rest, Compact depth text value → Delimited rest → text.length < fuel →
      parseValue fuel depth (text ++ rest) = some (value, rest)) ∧
    (∀ depth text members rest, CompactMembers depth text members → text.length < fuel →
      parseMembers fuel depth (text ++ '\x7d' :: rest) = some (members, rest)) := by
  induction fuel with
  | zero => exact ⟨fun _ _ _ _ _ _ h => by omega, fun _ _ _ _ _ h => by omega⟩
  | succ fuel ih =>
      obtain ⟨ihValue, ihMembers⟩ := ih
      constructor
      · intro depth text value rest h hrest hfuel
        have hspace := h.skipSpace_append rest
        cases h with
        | @string _ text points h =>
            rw [parseValue, hspace]
            show (scanString (text ++ ['\x22'] ++ rest)).map _ = _
            rw [List.append_assoc]
            show (scanString (text ++ '\x22' :: rest)).map _ = _
            rw [h.scan]
            rfl
        | empty => rw [parseValue, hspace]; rfl
        | @object depth text members h =>
            have hlength : text.length < fuel := by
              simp only [List.cons_append, List.length_cons, List.length_append] at hfuel
              omega
            have hread := ihMembers depth text members rest h hlength
            obtain ⟨tail, rfl⟩ := h.head
            have htext : '\x7b' :: ('\x22' :: tail) ++ ['\x7d'] ++ rest =
                '\x7b' :: '\x22' :: (tail ++ '\x7d' :: rest) := by
              rw [List.append_assoc]
              rfl
            rw [htext, parseValue_object]
            show (parseMembers fuel depth ('\x22' :: tail ++ '\x7d' :: rest)).map _ = _
            rw [hread]
            rfl
        | @number _ text h => exact parseValue_numeral h hrest hspace fuel depth
      · intro depth text members rest h hfuel
        cases h with
        | @last _ key text points value hkey hvalue =>
            have hlength : text.length < fuel := by
              simp only [List.cons_append, List.length_cons, List.length_append] at hfuel
              omega
            have hread := ihValue depth text value ('\x7d' :: rest) hvalue
              (delimited_brace rest) hlength
            have htext : key ++ '\x22' :: ':' :: text ++ '\x7d' :: rest =
                key ++ '\x22' :: ':' :: (text ++ '\x7d' :: rest) := by
              rw [List.append_assoc]
              rfl
            rw [parseMembers]
            show (scanString (key ++ '\x22' :: ':' :: text ++ '\x7d' :: rest)).bind _ = _
            rw [htext, scan_key hkey]
            show (parseValue fuel depth (text ++ '\x7d' :: rest)).bind _ = _
            rw [hread]
            rfl
        | @cons _ key text more points value members hkey hvalue hmore =>
            have hlength : text.length < fuel ∧ more.length < fuel := by
              simp only [List.cons_append, List.length_cons, List.length_append] at hfuel
              omega
            have hread := ihValue depth text value (',' :: (more ++ '\x7d' :: rest)) hvalue
              (delimited_comma _) hlength.1
            have hrest := ihMembers depth more members rest hmore hlength.2
            have htext : key ++ '\x22' :: ':' :: text ++ ',' :: more ++ '\x7d' :: rest =
                key ++ '\x22' :: ':' :: (text ++ ',' :: (more ++ '\x7d' :: rest)) := by
              simp only [List.append_assoc, List.cons_append]
            rw [parseMembers]
            show (scanString (key ++ '\x22' :: ':' :: text ++ ',' :: more ++ '\x7d' :: rest)).bind
              _ = _
            rw [htext, scan_key hkey]
            show (parseValue fuel depth (text ++ ',' :: (more ++ '\x7d' :: rest))).bind _ = _
            rw [hread]
            show (parseMembers fuel depth (more ++ '\x7d' :: rest)).bind _ = _
            rw [hrest]
            rfl

/-- Go reads the bytes of a text without white space as the value it stands for. -/
theorem unmarshal_encode {text : List Char} {value : Value}
    (h : Compact maxNestingDepth text value) : unmarshal (Utf8.encode text) = some value := by
  have hread := (parse_compact (text.length + 1)).1 _ text value [] h delimited_nil (by omega)
  rw [List.append_nil] at hread
  rw [unmarshal, Utf8.decode_encode, hread]
  rfl

/-! ## What `json.Marshal` writes -/

/-- Members whose values have been written. -/
def goMembers : List (List Char × List Char) → List Char
  | [] => []
  | [(key, text)] => goQuote key ++ ':' :: text
  | (key, text) :: member :: members =>
      goQuote key ++ ':' :: text ++ ',' :: goMembers (member :: members)

/-- An object of these members. -/
def goObject (members : List (List Char × List Char)) : List Char :=
  '\x7b' :: goMembers members ++ ['\x7d']

theorem compact_goQuote (depth : ℕ) (s : List Char) : Compact depth (goQuote s) (.string s) := by
  have h : Compact depth (goQuote s) (.string (joinHalves (s.map .char))) :=
    .string (spells_goQuote s)
  rwa [joinHalves_char] at h

/-- A member as it is written. -/
def Writes (depth : ℕ) (member : List Char × List Char) (read : List Char × Value) : Prop :=
  member.1 = read.1 ∧ Compact depth member.2 read.2

theorem compactMembers_go {depth : ℕ} {member : List Char × List Char} {read : List Char × Value}
    {members : List (List Char × List Char)} {reads : List (List Char × Value)}
    (hfirst : Writes depth member read) (hrest : List.Forall₂ (Writes depth) members reads) :
    CompactMembers depth (goMembers (member :: members)) (read :: reads) := by
  induction hrest generalizing member read with
  | nil =>
      obtain ⟨key, text⟩ := member
      obtain ⟨key', value⟩ := read
      obtain ⟨rfl, hvalue⟩ := hfirst
      have h := CompactMembers.last (spells_goQuote key) hvalue
      rw [joinHalves_char] at h
      rw [goMembers, goQuote, List.append_assoc]
      exact h
  | cons hsecond _ ih =>
      obtain ⟨key, text⟩ := member
      obtain ⟨key', value⟩ := read
      obtain ⟨rfl, hvalue⟩ := hfirst
      have h := CompactMembers.cons (spells_goQuote key) hvalue (ih hsecond)
      rw [joinHalves_char] at h
      rw [goMembers, goQuote, List.append_assoc ('\x22' :: key.flatMap goQuoteChar)]
      exact h

theorem compact_goObject {depth : ℕ} {members : List (List Char × List Char)}
    {reads : List (List Char × Value)} (h : List.Forall₂ (Writes depth) members reads) :
    Compact (depth + 1) (goObject members) (.object reads) := by
  cases h with
  | nil => exact .empty
  | cons hfirst hrest => exact .object (compactMembers_go hfirst hrest)

example : goObject [("a".toList, goQuote "<b>\t".toList)] =
    "\x7b\"a\":\"\\u003cb\\u003e\\t\"\x7d".toList := by decide

/-! ## What `JSON.stringify` writes -/

/-- What Go reads where JavaScript has written a string. -/
def goText (s : JsString) : List Char := joinHalves (codePoints s)

/-- What Go reads where JavaScript has written a scalar. -/
def JsScalar.read : JsScalar → Value
  | .str value => .string (goText value)
  | .num value => .number (ofAscii (Decimal.formatNat value))

/-- What Go reads where JavaScript has written a member. -/
def readMember (member : JsString × JsScalar) : List Char × Value :=
  (goText member.1, member.2.read)

theorem compact_stringifyScalar (depth : ℕ) (value : JsScalar) :
    Compact depth (stringifyScalar value) value.read := by
  cases value with
  | str value => exact .string (spells_codePoints value)
  | num value => exact .number (numeral_formatNat value)

theorem compactMembers_stringify (depth : ℕ) (member : JsString × JsScalar)
    (members : List (JsString × JsScalar)) :
    CompactMembers depth (stringifyMembers (member :: members))
      (readMember member :: members.map readMember) := by
  induction members generalizing member with
  | nil =>
      obtain ⟨key, value⟩ := member
      have h := CompactMembers.last (spells_codePoints key) (compact_stringifyScalar depth value)
      rw [stringifyMembers, quote, List.append_assoc]
      exact h
  | cons next members ih =>
      obtain ⟨key, value⟩ := member
      have h := CompactMembers.cons (spells_codePoints key) (compact_stringifyScalar depth value)
        (ih next)
      rw [stringifyMembers, quote,
        List.append_assoc ('\x22' :: (codePoints key).flatMap quotePoint)]
      exact h

/-- Go reads what `JSON.stringify` has written, with the surrogates that stand alone replaced. -/
theorem compact_stringify (depth : ℕ) (members : List (JsString × JsScalar)) :
    Compact (depth + 1) (stringify members) (.object (members.map readMember)) := by
  cases members with
  | nil => exact .empty
  | cons member members => exact .object (compactMembers_stringify depth member members)

/-- A text is read as it was. -/
theorem goText_encode (text : List Char) : goText (encode text) = text := by
  rw [goText, codePoints_encode, joinHalves_char]

end Json

end Grits
