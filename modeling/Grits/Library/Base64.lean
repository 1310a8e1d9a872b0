import Mathlib.Tactic

/-!
# Base64 without padding

`base64.RawStdEncoding` of Go: the decoder skips line breaks and does not look at the bits
that are left over in the last character.
-/

namespace Grits

namespace Base64

/-- The character for six bits. -/
def encodeChar (i : ℕ) : UInt8 :=
  if i < 26 then UInt8.ofNat (65 + i)
  else if i < 52 then UInt8.ofNat (71 + i)
  else if i < 62 then UInt8.ofNat (i - 4)
  else if i = 62 then 43
  else 47

/-- The six bits of a character. -/
def decodeChar (c : UInt8) : Option ℕ :=
  if 65 ≤ c.toNat ∧ c.toNat ≤ 90 then some (c.toNat - 65)
  else if 97 ≤ c.toNat ∧ c.toNat ≤ 122 then some (c.toNat - 71)
  else if 48 ≤ c.toNat ∧ c.toNat ≤ 57 then some (c.toNat + 4)
  else if c = 43 then some 62
  else if c = 47 then some 63
  else none

/-- The six bits that `val` has from the bit `shift` on, as a character. -/
def charAt (val shift : ℕ) : UInt8 := encodeChar (val / 2 ^ shift % 64)

/-- `EncodeToString` -/
def encode : List UInt8 → List UInt8
  | a :: b :: c :: rest =>
      let val := a.toNat * 65536 + b.toNat * 256 + c.toNat
      charAt val 18 :: charAt val 12 :: charAt val 6 :: charAt val 0 :: encode rest
  | [a, b] =>
      let val := a.toNat * 65536 + b.toNat * 256
      [charAt val 18, charAt val 12, charAt val 6]
  | [a] =>
      let val := a.toNat * 65536
      [charAt val 18, charAt val 12]
  | [] => []

/-- The byte that `val` has from the bit `shift` on. -/
def byteAt (val shift : ℕ) : UInt8 := UInt8.ofNat (val / 2 ^ shift % 256)

/-- The bytes of a sequence of six bits each. -/
def decodeQuanta : List ℕ → Option (List UInt8)
  | a :: b :: c :: d :: rest =>
      let val := a * 262144 + b * 4096 + c * 64 + d
      (decodeQuanta rest).map fun bytes => byteAt val 16 :: byteAt val 8 :: byteAt val 0 :: bytes
  | [a, b, c] =>
      let val := a * 262144 + b * 4096 + c * 64
      some [byteAt val 16, byteAt val 8]
  | [a, b] =>
      let val := a * 262144 + b * 4096
      some [byteAt val 16]
  | [_] => none
  | [] => some []

/-- A character that the decoder skips. -/
def isLineBreak (c : UInt8) : Bool := c == 10 || c == 13

/-- `DecodeString` -/
def decode (text : List UInt8) : Option (List UInt8) :=
  ((text.filter fun c => !isLineBreak c).mapM decodeChar).bind decodeQuanta

/-! ## Characters -/

theorem decodeChar_encodeChar {i : ℕ} (h : i < 64) : decodeChar (encodeChar i) = some i := by
  decide +revert

theorem isLineBreak_encodeChar {i : ℕ} (h : i < 64) : isLineBreak (encodeChar i) = false := by
  decide +revert

/-- A text of characters for six bits each. -/
def IsText (text : List UInt8) (values : List ℕ) : Prop :=
  text.filter (fun c => !isLineBreak c) = text ∧ text.mapM decodeChar = some values

theorem isText_nil : IsText [] [] := ⟨rfl, rfl⟩

theorem IsText.cons {text : List UInt8} {values : List ℕ} (h : IsText text values)
    (val shift : ℕ) : IsText (charAt val shift :: text) (val / 2 ^ shift % 64 :: values) := by
  have hlt : val / 2 ^ shift % 64 < 64 := Nat.mod_lt _ (by decide)
  constructor
  · rw [List.filter_cons_of_pos (by rw [charAt, isLineBreak_encodeChar hlt]; rfl), h.1]
  · rw [List.mapM_cons, charAt, decodeChar_encodeChar hlt, h.2]
    rfl

theorem IsText.decode_eq {text : List UInt8} {values : List ℕ} (h : IsText text values) :
    decode text = decodeQuanta values := by
  rw [decode, h.1, h.2]
  rfl

/-! ## The round trip -/

theorem byteAt_eq {val shift : ℕ} {b : UInt8} (h : val / 2 ^ shift % 256 = b.toNat) :
    byteAt val shift = b := by
  rw [byteAt, h]
  exact UInt8.ofNat_toNat

/-- The six bits of three bytes, put together again. -/
theorem quantum_eq {val : ℕ} (h : val < 16777216) :
    val / 2 ^ 18 % 64 * 262144 + val / 2 ^ 12 % 64 * 4096 + val / 2 ^ 6 % 64 * 64 +
      val / 2 ^ 0 % 64 = val := by
  omega

/-- Decoding gives the encoded bytes back. -/
theorem decode_encode (bytes : List UInt8) : decode (encode bytes) = some bytes := by
  have htext : ∃ values, IsText (encode bytes) values ∧ decodeQuanta values = some bytes := by
    induction bytes using encode.induct with
    | case1 a b c rest ih =>
        obtain ⟨values, htext, hquanta⟩ := ih
        have ha := a.toNat_lt
        have hb := b.toNat_lt
        have hc := c.toNat_lt
        have hval : a.toNat * 65536 + b.toNat * 256 + c.toNat < 16777216 := by omega
        refine ⟨_, (((htext.cons _ 0).cons _ 6).cons _ 12).cons _ 18, ?_⟩
        simp only [decodeQuanta, quantum_eq hval, hquanta, Option.map_some]
        rw [byteAt_eq (b := a) (by omega), byteAt_eq (b := b) (by omega),
          byteAt_eq (b := c) (by omega)]
    | case2 a b =>
        have ha := a.toNat_lt
        have hb := b.toNat_lt
        refine ⟨_, ((isText_nil.cons _ 6).cons _ 12).cons _ 18, ?_⟩
        simp only [decodeQuanta]
        rw [byteAt_eq (b := a) (by omega), byteAt_eq (b := b) (by omega)]
    | case3 a =>
        have ha := a.toNat_lt
        refine ⟨_, (isText_nil.cons _ 12).cons _ 18, ?_⟩
        simp only [decodeQuanta]
        rw [byteAt_eq (b := a) (by omega)]
    | case4 => exact ⟨[], isText_nil, rfl⟩
  obtain ⟨values, htext, hquanta⟩ := htext
  rw [htext.decode_eq, hquanta]

end Base64

end Grits
