import Mathlib.Tactic

/-!
# Texts, strings of JavaScript and bytes

A JavaScript string is a list of 16-bit code units.  `StringToCodePoints` finds the
characters in it, and the surrogates that are not halves of one.  A text goes into bytes as
UTF-8, and Go reads bytes that are not UTF-8 as replacement characters.
-/

namespace Grits

/-- A JavaScript string, by its code units. -/
abbrev JsString := List UInt16

namespace Utf16

/-- A code point of a string: a character, or a surrogate without its other half. -/
inductive CodePoint where
  | char (c : Char)
  | lone (unit : UInt16)
  deriving DecidableEq

/-- The first half of a character. -/
def IsHigh (unit : UInt16) : Prop := 0xD800 ≤ unit.toNat ∧ unit.toNat < 0xDC00

/-- The second half of a character. -/
def IsLow (unit : UInt16) : Prop := 0xDC00 ≤ unit.toNat ∧ unit.toNat < 0xE000

instance (unit : UInt16) : Decidable (IsHigh unit) := inferInstanceAs (Decidable (_ ∧ _))

instance (unit : UInt16) : Decidable (IsLow unit) := inferInstanceAs (Decidable (_ ∧ _))

/-- The character that has these halves. -/
def combine (high low : UInt16) : Char :=
  Char.ofNat (0x10000 + (high.toNat - 0xD800) * 0x400 + (low.toNat - 0xDC00))

/-- A code unit that is not a half of a character. -/
def ofUnit (unit : UInt16) : CodePoint :=
  if IsHigh unit ∨ IsLow unit then .lone unit else .char (Char.ofNat unit.toNat)

/-- `StringToCodePoints` -/
def codePoints : JsString → List CodePoint
  | [] => []
  | [unit] => [ofUnit unit]
  | high :: low :: rest =>
      if IsHigh high ∧ IsLow low then .char (combine high low) :: codePoints rest
      else ofUnit high :: codePoints (low :: rest)

/-- The code units of a character. -/
def encodeChar (c : Char) : JsString :=
  if c.toNat < 0x10000 then [UInt16.ofNat c.toNat]
  else
    [UInt16.ofNat (0xD800 + (c.toNat - 0x10000) / 0x400),
      UInt16.ofNat (0xDC00 + (c.toNat - 0x10000) % 0x400)]

/-- The code units of a text. -/
def encode (text : List Char) : JsString := text.flatMap encodeChar

/-- The string has no surrogate without its other half: `isWellFormed`. -/
def WellFormed (s : JsString) : Prop := ∀ point ∈ codePoints s, ∃ c, point = .char c

/-! ## The code points of a text -/

theorem toNat_lt_surrogates (c : Char) :
    c.toNat < 0xD800 ∨ 0xDFFF < c.toNat ∧ c.toNat < 0x110000 := by
  have hvalid := c.valid
  rw [UInt32.isValidChar, Nat.isValidChar] at hvalid
  exact hvalid

theorem toNat_ofNat {n : ℕ} (h : n.isValidChar) : (Char.ofNat n).toNat = n := by
  rw [Char.ofNat, dif_pos h]
  rfl

theorem toNat_unit {n : ℕ} (h : n < 0x10000) : (UInt16.ofNat n).toNat = n :=
  UInt16.toNat_ofNat_of_lt' h

theorem ofUnit_char {c : Char} (h : c.toNat < 0x10000) :
    ofUnit (UInt16.ofNat c.toNat) = .char c := by
  have hunit : (UInt16.ofNat c.toNat).toNat = c.toNat := toNat_unit h
  have hrange := toNat_lt_surrogates c
  rw [ofUnit, if_neg]
  · rw [hunit, Char.ofNat_toNat]
  · rintro (⟨hge, hlt⟩ | ⟨hge, hlt⟩)
    · omega
    · omega

/-- A code unit that is no first half stands for itself. -/
theorem codePoints_cons_of_not_high {unit : UInt16} (h : ¬ IsHigh unit) (rest : JsString) :
    codePoints (unit :: rest) = ofUnit unit :: codePoints rest := by
  cases rest with
  | nil => rfl
  | cons low rest => rw [codePoints, if_neg fun hpair => h hpair.1]

theorem codePoints_encodeChar_append (c : Char) (rest : JsString) :
    codePoints (encodeChar c ++ rest) = .char c :: codePoints rest := by
  have hrange := toNat_lt_surrogates c
  rw [encodeChar]
  split
  next hsmall =>
    have hunit : (UInt16.ofNat c.toNat).toNat = c.toNat := toNat_unit hsmall
    rw [List.singleton_append, codePoints_cons_of_not_high, ofUnit_char hsmall]
    rintro ⟨hge, hlt⟩
    omega
  next hlarge =>
    have hhigh : (UInt16.ofNat (0xD800 + (c.toNat - 0x10000) / 0x400)).toNat =
        0xD800 + (c.toNat - 0x10000) / 0x400 := toNat_unit (by omega)
    have hlow : (UInt16.ofNat (0xDC00 + (c.toNat - 0x10000) % 0x400)).toNat =
        0xDC00 + (c.toNat - 0x10000) % 0x400 := toNat_unit (by omega)
    have hcombined : 0x10000 + (0xD800 + (c.toNat - 0x10000) / 0x400 - 0xD800) * 0x400 +
        (0xDC00 + (c.toNat - 0x10000) % 0x400 - 0xDC00) = c.toNat := by
      omega
    rw [List.cons_append, List.cons_append, List.nil_append, codePoints, if_pos, combine, hhigh,
      hlow, hcombined, Char.ofNat_toNat]
    constructor
    · rw [IsHigh, hhigh]
      omega
    · rw [IsLow, hlow]
      omega

/-- The code points of a text are its characters. -/
theorem codePoints_encode (text : List Char) :
    codePoints (encode text) = text.map CodePoint.char := by
  induction text with
  | nil => rfl
  | cons c text ih =>
      show codePoints (encodeChar c ++ encode text) = _
      rw [codePoints_encodeChar_append, ih, List.map_cons]

theorem encode_injective : Function.Injective encode := by
  intro text text' h
  have hpoints := congrArg codePoints h
  rw [codePoints_encode, codePoints_encode] at hpoints
  exact List.map_injective_iff.mpr (fun c c' heq => CodePoint.char.inj heq) hpoints

/-! ## Well-formed strings -/

/-- The code units of a code point. -/
def CodePoint.units : CodePoint → JsString
  | .char c => encodeChar c
  | .lone unit => [unit]

theorem units_ofUnit (unit : UInt16) : (ofUnit unit).units = [unit] := by
  rw [ofUnit]
  split
  next => rfl
  next h =>
    have hlt : unit.toNat < 0x10000 := unit.toNat_lt
    have hvalid : unit.toNat.isValidChar := by
      rw [IsHigh, IsLow] at h
      rw [Nat.isValidChar]
      omega
    have hchar : (Char.ofNat unit.toNat).toNat = unit.toNat := toNat_ofNat hvalid
    rw [CodePoint.units, encodeChar, hchar, if_pos hlt, UInt16.ofNat_toNat]

theorem encodeChar_combine {high low : UInt16} (hhigh : IsHigh high) (hlow : IsLow low) :
    encodeChar (combine high low) = [high, low] := by
  obtain ⟨hge, hlt⟩ := hhigh
  obtain ⟨hge', hlt'⟩ := hlow
  have hchar : (combine high low).toNat =
      0x10000 + (high.toNat - 0xD800) * 0x400 + (low.toNat - 0xDC00) := by
    refine toNat_ofNat ?_
    rw [Nat.isValidChar]
    omega
  have hfirst : 0xD800 + ((combine high low).toNat - 0x10000) / 0x400 = high.toNat := by
    omega
  have hsecond : 0xDC00 + ((combine high low).toNat - 0x10000) % 0x400 = low.toNat := by
    omega
  rw [encodeChar, if_neg (by omega), hfirst, hsecond, UInt16.ofNat_toNat, UInt16.ofNat_toNat]

/-- A string is made of its code points. -/
theorem flatMap_units_codePoints (s : JsString) :
    (codePoints s).flatMap CodePoint.units = s := by
  induction s using codePoints.induct with
  | case1 => rfl
  | case2 unit =>
      rw [codePoints, List.flatMap_singleton, units_ofUnit]
  | case3 high low rest hpair ih =>
      rw [codePoints, if_pos hpair, List.flatMap_cons, ih, CodePoint.units,
        encodeChar_combine hpair.1 hpair.2]
      rfl
  | case4 high low rest hpair ih =>
      rw [codePoints, if_neg hpair, List.flatMap_cons, ih, units_ofUnit]
      rfl

/-- A string is well formed if it is the encoding of a text. -/
theorem wellFormed_iff (s : JsString) : WellFormed s ↔ ∃ text, encode text = s := by
  constructor
  · intro h
    have hchars : ∃ text : List Char, codePoints s = text.map CodePoint.char := by
      refine ⟨(codePoints s).filterMap fun point => match point with
        | .char c => some c
        | .lone _ => none, ?_⟩
      rw [WellFormed] at h
      generalize codePoints s = points at h
      induction points with
      | nil => rfl
      | cons point points ih =>
          obtain ⟨c, rfl⟩ := h point List.mem_cons_self
          rw [List.filterMap_cons, List.map_cons,
            ← ih fun other hother => h other (List.mem_cons_of_mem _ hother)]
    obtain ⟨text, htext⟩ := hchars
    refine ⟨text, ?_⟩
    have hunits := flatMap_units_codePoints s
    rw [htext, List.flatMap_map] at hunits
    exact hunits
  · rintro ⟨text, rfl⟩ point hpoint
    rw [codePoints_encode] at hpoint
    obtain ⟨c, -, hc⟩ := List.mem_map.mp hpoint
    exact ⟨c, hc.symm⟩

end Utf16

namespace Utf8

/-- The bytes of a text. -/
def encode (text : List Char) : List UInt8 := text.flatMap String.utf8EncodeChar

/-- The characters that `utf8.DecodeRune` finds one after the other: a byte that does not begin
a character is a replacement character. -/
def decode : List UInt8 → List Char
  | [] => []
  | byte :: rest =>
      match (byte :: rest).toByteArray.utf8DecodeChar? 0 with
      | some c => c :: decode (rest.drop (c.utf8Size - 1))
      | none => '\uFFFD' :: decode rest
termination_by data => data.length

theorem decode_encodeChar_append (c : Char) (rest : List UInt8) :
    decode (String.utf8EncodeChar c ++ rest) = c :: decode rest := by
  have hlength := String.length_utf8EncodeChar c
  have hdecoded : (String.utf8EncodeChar c ++ rest).toByteArray.utf8DecodeChar? 0 = some c := by
    rw [List.toByteArray_append, ByteArray.utf8DecodeChar?_utf8EncodeChar_append]
  cases hbytes : String.utf8EncodeChar c with
  | nil => exact absurd hbytes String.utf8EncodeChar_ne_nil
  | cons byte bytes =>
      rw [hbytes, List.length_cons] at hlength
      rw [hbytes, List.cons_append] at hdecoded
      have hdrop : (bytes ++ rest).drop (c.utf8Size - 1) = rest := by
        rw [show c.utf8Size - 1 = bytes.length by omega, List.drop_left]
      rw [List.cons_append, decode, hdecoded]
      show c :: decode ((bytes ++ rest).drop (c.utf8Size - 1)) = _
      rw [hdrop]

/-- Reading the bytes of a text gives the text back. -/
theorem decode_encode (text : List Char) : decode (encode text) = text := by
  induction text with
  | nil =>
      show decode [] = []
      rw [decode]
  | cons c text ih =>
      show decode (String.utf8EncodeChar c ++ encode text) = _
      rw [decode_encodeChar_append, ih]

end Utf8

end Grits
