import Grits.Library.Unicode

/-!
# The runes of a byte string

What a loop of `utf8.DecodeRune` finds in a byte string: characters, and bytes that do not
begin one.
-/

namespace Grits

namespace Utf8

/-- A character of a byte string, or a byte that does not begin one. -/
inductive Rune where
  | char (c : Char)
  | invalid (byte : UInt8)
  deriving DecidableEq

/-- The runes of a byte string. -/
def runes : List UInt8 → List Rune
  | [] => []
  | byte :: rest =>
      match (byte :: rest).toByteArray.utf8DecodeChar? 0 with
      | some c => .char c :: runes (rest.drop (c.utf8Size - 1))
      | none => .invalid byte :: runes rest
termination_by data => data.length

/-- The character that stands for a rune. -/
def Rune.toChar : Rune → Char
  | .char c => c
  | .invalid _ => '\uFFFD'

/-- The bytes of a rune. -/
def Rune.bytes : Rune → List UInt8
  | .char c => String.utf8EncodeChar c
  | .invalid byte => [byte]

theorem decode_eq (data : List UInt8) : decode data = (runes data).map Rune.toChar := by
  induction data using runes.induct with
  | case1 => rw [decode, runes, List.map_nil]
  | case2 byte rest c hc ih =>
      rw [decode, runes, hc]
      show c :: decode _ = c :: List.map Rune.toChar _
      rw [ih]
  | case3 byte rest hnone ih =>
      rw [decode, runes, hnone]
      show _ :: decode rest = _ :: List.map Rune.toChar (runes rest)
      rw [ih]
      rfl

/-- A character that is read takes up its own bytes. -/
theorem eq_of_decodeChar {data : List UInt8} {c : Char}
    (h : data.toByteArray.utf8DecodeChar? 0 = some c) :
    data = String.utf8EncodeChar c ++ data.drop c.utf8Size := by
  have hbytes := String.toByteArray_utf8EncodeChar_of_utf8DecodeChar?_eq_some h
  have htake : String.utf8EncodeChar c = data.take c.utf8Size := by
    have hlist := congrArg (fun b : ByteArray => b.data.toList) hbytes
    simpa using hlist
  rw [htake, List.take_append_drop]

/-- A byte string is made of its runes. -/
theorem flatMap_bytes_runes (data : List UInt8) : (runes data).flatMap Rune.bytes = data := by
  induction data using runes.induct with
  | case1 =>
      rw [runes]
      rfl
  | case2 byte rest c hc ih =>
      have hdrop : (byte :: rest).drop c.utf8Size = rest.drop (c.utf8Size - 1) := by
        obtain ⟨k, hk⟩ := Nat.exists_eq_succ_of_ne_zero c.utf8Size_pos.ne'
        rw [hk]
        rfl
      rw [runes, hc]
      show String.utf8EncodeChar c ++ List.flatMap _ _ = _
      rw [ih, ← hdrop, ← eq_of_decodeChar hc]
  | case3 byte rest hnone ih =>
      rw [runes, hnone]
      show [byte] ++ List.flatMap _ _ = _
      rw [ih]
      rfl

theorem encodeChar_ascii {c : Char} (h : c.toNat < 0x80) :
    String.utf8EncodeChar c = [UInt8.ofNat c.toNat] := by
  have hle : c.val.toNat ≤ 127 := Nat.le_of_lt_succ h
  rw [String.utf8EncodeChar]
  exact if_pos hle

/-- The first byte of a character beyond ASCII is none of ASCII. -/
theorem encodeChar_not_ascii {c : Char} (h : 0x80 ≤ c.toNat) :
    ∃ byte rest, String.utf8EncodeChar c = byte :: rest ∧ 0x80 ≤ byte.toNat := by
  have hnot : ¬ c.val.toNat ≤ 127 := by
    show ¬ c.toNat ≤ 127
    omega
  rw [String.utf8EncodeChar, if_neg hnot]
  split
  next =>
    refine ⟨_, _, rfl, ?_⟩
    rw [UInt8.toNat_ofNat']
    omega
  next =>
    split
    next =>
      refine ⟨_, _, rfl, ?_⟩
      rw [UInt8.toNat_ofNat']
      omega
    next =>
      refine ⟨_, _, rfl, ?_⟩
      rw [UInt8.toNat_ofNat']
      omega

/-- A byte of ASCII is a character. -/
theorem runes_cons_ascii {byte : UInt8} (h : byte.toNat < 0x80) (rest : List UInt8) :
    runes (byte :: rest) = .char (Char.ofNat byte.toNat) :: runes rest := by
  have hchar : (Char.ofNat byte.toNat).toNat = byte.toNat := by
    apply Utf16.toNat_ofNat
    rw [Nat.isValidChar]
    omega
  have hencode : String.utf8EncodeChar (Char.ofNat byte.toNat) = [byte] := by
    rw [encodeChar_ascii (by rw [hchar]; exact h), hchar, UInt8.ofNat_toNat]
  have hsize : (Char.ofNat byte.toNat).utf8Size = 1 := by
    rw [← String.length_utf8EncodeChar, hencode]
    rfl
  have hdecode : (byte :: rest).toByteArray.utf8DecodeChar? 0 = some (Char.ofNat byte.toNat) := by
    have happend := ByteArray.utf8DecodeChar?_utf8EncodeChar_append (b := rest.toByteArray)
      (c := Char.ofNat byte.toNat)
    rw [hencode, ← List.toByteArray_append] at happend
    exact happend
  rw [runes, hdecode]
  show _ :: runes (rest.drop ((Char.ofNat byte.toNat).utf8Size - 1)) = _
  rw [hsize]
  rfl

theorem decode_cons_ascii {byte : UInt8} (h : byte.toNat < 0x80) (rest : List UInt8) :
    decode (byte :: rest) = Char.ofNat byte.toNat :: decode rest := by
  rw [decode_eq, runes_cons_ascii h, decode_eq, List.map_cons]
  rfl

/-- A byte beyond ASCII begins something else than a character of ASCII. -/
theorem decode_cons_not_ascii {byte : UInt8} (h : 0x80 ≤ byte.toNat) (rest : List UInt8) :
    ∃ c tail, decode (byte :: rest) = c :: tail ∧ 0x80 ≤ c.toNat := by
  rw [decode]
  split
  next c hc =>
    refine ⟨c, _, rfl, ?_⟩
    by_contra hlt
    have heq := eq_of_decodeChar hc
    rw [encodeChar_ascii (Nat.lt_of_not_le hlt)] at heq
    have hbyte : byte = UInt8.ofNat c.toNat := (List.cons.inj heq).1
    rw [hbyte, UInt8.toNat_ofNat'] at h
    omega
  next => exact ⟨_, _, rfl, by decide⟩

theorem runes_encodeChar_append (c : Char) (rest : List UInt8) :
    runes (String.utf8EncodeChar c ++ rest) = .char c :: runes rest := by
  have hlength := String.length_utf8EncodeChar c
  have hdecoded : (String.utf8EncodeChar c ++ rest).toByteArray.utf8DecodeChar? 0 = some c := by
    rw [List.toByteArray_append, ByteArray.utf8DecodeChar?_utf8EncodeChar_append]
  cases hbytes : String.utf8EncodeChar c with
  | nil => exact absurd hbytes String.utf8EncodeChar_ne_nil
  | cons byte bytes =>
      rw [hbytes, List.length_cons] at hlength
      rw [hbytes, List.cons_append] at hdecoded
      have hdrop : (bytes ++ rest).drop (c.utf8Size - 1) = rest := by
        rw [show c.utf8Size - 1 = bytes.length by omega, List.drop_left]
      rw [List.cons_append, runes, hdecoded]
      show .char c :: runes ((bytes ++ rest).drop (c.utf8Size - 1)) = _
      rw [hdrop]

/-- The runes of a text are its characters. -/
theorem runes_encode (text : List Char) : runes (encode text) = text.map Rune.char := by
  induction text with
  | nil =>
      show runes [] = []
      rw [runes]
  | cons c text ih =>
      show runes (String.utf8EncodeChar c ++ encode text) = _
      rw [runes_encodeChar_append, ih, List.map_cons]

/-- The byte string is UTF-8. -/
def Valid (data : List UInt8) : Prop := ∀ rune ∈ runes data, ∃ c, rune = .char c

end Utf8

end Grits
