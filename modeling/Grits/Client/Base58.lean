import Grits.Library.Radix
import Grits.NameStore.Encoding

/-!
# The base58 encoder of the client

`_base58Encode` and `_computeCID` of `client/lib/grits/GritsClient.js`, of which
`client/lib/grits/HashVerifier.js` has a copy, and `ComputeHash` and `CopyAndHash` of
`internal/grits/blobstore.go`.

The encoder multiplies the number in its buffer by 256 for each byte and adds the byte,
digit by digit from the right.  It stops where only zeros are left, and it remembers in
`length` how far it came.

`base58.Encode`, `multihash.Sum` and SHA-256 are libraries and come in as parameters.
-/

namespace Grits

namespace Base58

/-- `BASE58_ALPHABET` -/
def alphabet : GoString := "123456789ABCDEFGHJKLMNPQRSTUVWXYZabcdefghijkmnopqrstuvwxyz".toList

/-- The letter of a digit. -/
def letter (d : ℕ) : Char := alphabet.getD d '1'

/-- The bytes as a number, the first one on top. -/
def number (bytes : Bytes) : ℕ := Radix.value 256 (bytes.map UInt8.toNat)

/-- The zero bytes in front. -/
def leadingZeros (bytes : Bytes) : ℕ := (bytes.takeWhile (· == 0)).length

/-- A `1` for each zero byte in front, and the number in base 58. -/
def text (bytes : Bytes) : GoString :=
  List.replicate (leadingZeros bytes) '1' ++ (Radix.digits 58 (number bytes)).map letter

/-- A text is the base58 of some bytes: a `1` for each zero byte in front, and digits
with the same number, of which the first is not zero. -/
structure IsTextOf (bytes : Bytes) (s : GoString) : Prop where
  split : ∃ digits : List ℕ, s = List.replicate (leadingZeros bytes) '1' ++ digits.map letter ∧
    (∀ d ∈ digits, d < 58) ∧ digits.head? ≠ some 0 ∧ Radix.value 58 digits = number bytes

theorem isTextOf_text (bytes : Bytes) : IsTextOf bytes (text bytes) := by
  refine ⟨Radix.digits 58 (number bytes), rfl, ?_, ?_, ?_⟩
  · intro d hd
    exact Radix.digits_lt (by decide) hd
  · exact Radix.head?_digits _
  · exact Radix.value_digits _

/-- Bytes have one text. -/
theorem IsTextOf.eq_text {bytes : Bytes} {s : GoString} (h : IsTextOf bytes s) :
    s = text bytes := by
  obtain ⟨digits, hs, hlt, hhead, hvalue⟩ := h.split
  rw [hs, text, ← hvalue, Radix.digits_value (by decide) hlt hhead]

end Base58

namespace GritsClient

open Base58

/-! ## The encoder -/

/-- The loop over `k`, with `k + 1` places of the buffer still to come.  An access outside
the buffer has no result. -/
def carryLoop (length : ℕ) : ℕ → ℕ → ℕ → List UInt8 → Option (List UInt8 × ℕ)
  | 0, j, _, b58 => some (b58, j)
  | k + 1, j, carry, b58 =>
      if carry = 0 ∧ length ≤ j then some (b58, j)
      else do
        let digit ← b58[k]?
        let carry := carry + 256 * digit.toNat
        carryLoop length k (j + 1) (carry / 58) (b58.set k (UInt8.ofNat (carry % 58)))

/-- The buffer and the `length` after one more byte. -/
def encodeByte (state : List UInt8 × ℕ) (byte : UInt8) : Option (List UInt8 × ℕ) :=
  carryLoop state.2 state.1.length 0 byte.toNat state.1

/-- The size of the buffer for a number of bytes. -/
def bufferSize (count : ℕ) : ℕ := count * 138 / 100 + 1

/-- `_base58Encode` -/
def base58Encode (buffer : Bytes) : Option GoString := do
  let zeros := leadingZeros buffer
  let size := bufferSize (buffer.length - zeros)
  let (b58, length) ← (buffer.drop zeros).foldlM encodeByte (List.replicate size 0, 0)
  let digits := (b58.drop (b58.length - length)).dropWhile (· == 0)
  let letters ← digits.mapM fun d => alphabet[d.toNat]?
  return List.replicate zeros '1' ++ letters

/-! ## The loops -/

/-- The number in the buffer. -/
def held (b58 : List UInt8) : ℕ := Radix.value 58 (b58.map UInt8.toNat)

/-- Every place of the buffer has a digit. -/
def Digits (b58 : List UInt8) : Prop := ∀ d ∈ b58, d.toNat < 58

theorem held_concat (front : List UInt8) (d : UInt8) :
    held (front ++ [d]) = 58 * held front + d.toNat := by
  rw [held, List.map_append, List.map_singleton, Radix.value_concat, held]

theorem held_append (front rest : List UInt8) :
    held (front ++ rest) = held front * 58 ^ rest.length + held rest := by
  rw [held, List.map_append, Radix.value_append, List.length_map, held, held]

theorem toNat_digit (n : ℕ) : (UInt8.ofNat (n % 58)).toNat = n % 58 := by
  apply UInt8.toNat_ofNat_of_lt'
  have := Nat.mod_lt n (show 0 < 58 by decide)
  exact this.trans (by decide)

/-- The places `front` are still to come, and hold zeros from `length` on.  They get the
number 256 times as large, and the carry. -/
theorem carryLoop_spec (length j carry : ℕ) (front rest : List UInt8) (hdigits : Digits front)
    (hzeros : held front < 58 ^ (length - j))
    (hroom : 256 * held front + carry < 58 ^ front.length) :
    ∃ front' j', carryLoop length front.length j carry (front ++ rest) = some (front' ++ rest, j') ∧
      front'.length = front.length ∧ Digits front' ∧
      held front' = 256 * held front + carry ∧
      j ≤ j' ∧ j' ≤ j + front.length ∧ held front' < 58 ^ (j' - j) := by
  induction hlen : front.length generalizing front rest j carry with
  | zero =>
      obtain rfl := List.length_eq_zero_iff.mp hlen
      refine ⟨[], j, rfl, rfl, hdigits, ?_, le_refl j, le_refl j, ?_⟩
      · rw [List.length_nil, pow_zero] at hroom
        omega
      · rw [Nat.sub_self]
        exact Nat.one_pos
  | succ k ih =>
      by_cases hstop : carry = 0 ∧ length ≤ j
      · -- what is left of the buffer is zero
        have hzero : held front = 0 := by
          rw [Nat.sub_eq_zero_of_le hstop.2, pow_zero] at hzeros
          omega
        refine ⟨front, j, if_pos hstop, hlen, hdigits, ?_, le_refl j, by omega, ?_⟩
        · rw [hzero, hstop.1]
        · rw [hzero, Nat.sub_self]
          exact Nat.one_pos
      · obtain ⟨init, d, rfl⟩ : ∃ init d, front = init ++ [d] :=
          (List.eq_nil_or_concat' front).resolve_left fun h => by rw [h] at hlen; cases hlen
        rw [List.length_append, List.length_singleton, Nat.add_right_cancel_iff] at hlen
        rw [held_concat] at hzeros hroom
        have hd : d.toNat < 58 := hdigits d (List.mem_append_right _ (List.mem_singleton_self d))
        generalize hnext : carry + 256 * d.toNat = next
        have hget : (init ++ [d] ++ rest)[k]? = some d := by
          simp [← hlen]
        have hset : (init ++ [d] ++ rest).set k (UInt8.ofNat (next % 58)) =
            init ++ (UInt8.ofNat (next % 58) :: rest) := by
          simp [← hlen]
        have hzeros' : held init < 58 ^ (length - (j + 1)) := by
          rcases Nat.lt_or_ge j length with hj | hj
          · rw [show length - j = length - (j + 1) + 1 by omega, pow_succ] at hzeros
            omega
          · rw [Nat.sub_eq_zero_of_le hj, pow_zero] at hzeros
            rw [Nat.sub_eq_zero_of_le (by omega), pow_zero]
            omega
        have hroom' : 256 * held init + next / 58 < 58 ^ init.length := by
          rw [List.length_append, List.length_singleton, pow_succ] at hroom
          omega
        obtain ⟨front', j', hrun, hlength, hdigits', hheld, hle, hge, hlast⟩ := ih (j + 1)
          (next / 58) init (UInt8.ofNat (next % 58) :: rest)
          (fun c hc => hdigits c (List.mem_append_left _ hc)) hzeros' hroom' hlen
        refine ⟨front' ++ [UInt8.ofNat (next % 58)], j', ?_, ?_, ?_, ?_, by omega, by omega, ?_⟩
        · rw [carryLoop, if_neg hstop, hget]
          show carryLoop length k (j + 1) ((carry + 256 * d.toNat) / 58) _ = _
          rw [hnext, hset, hrun, List.append_assoc]
          rfl
        · rw [List.length_append, List.length_singleton, hlength]
        · intro c hc
          rcases List.mem_append.mp hc with hc | hc
          · exact hdigits' c hc
          · rw [List.mem_singleton.mp hc, toNat_digit]
            exact Nat.mod_lt _ (by decide)
        · rw [held_concat, held_concat, hheld, toNat_digit, ← hnext]
          omega
        · rw [held_concat, toNat_digit, show j' - j = j' - (j + 1) + 1 by omega, pow_succ]
          omega

/-- After some bytes the buffer holds their number, in the last `length` places. -/
structure Holds (size : ℕ) (bytes : Bytes) (state : List UInt8 × ℕ) : Prop where
  length_eq : state.1.length = size
  digits : Digits state.1
  held_eq : held state.1 = number bytes
  length_le : state.2 ≤ size
  short : held state.1 < 58 ^ state.2

theorem number_concat (bytes : Bytes) (byte : UInt8) :
    number (bytes ++ [byte]) = 256 * number bytes + byte.toNat := by
  rw [number, List.map_append, List.map_singleton, Radix.value_concat, number]

theorem encodeByte_spec {size : ℕ} {bytes : Bytes} {state : List UInt8 × ℕ} {byte : UInt8}
    (h : Holds size bytes state) (hroom : number (bytes ++ [byte]) < 58 ^ size) :
    ∃ state', encodeByte state byte = some state' ∧ Holds size (bytes ++ [byte]) state' := by
  rw [number_concat, ← h.held_eq, ← h.length_eq] at hroom
  obtain ⟨b58, j, hrun, hlength, hdigits, hheld, -, hle, hlast⟩ :=
    carryLoop_spec state.2 0 byte.toNat state.1 [] h.digits h.short hroom
  rw [List.append_nil, List.append_nil] at hrun
  refine ⟨(b58, j), hrun, ?_⟩
  constructor
  · exact hlength.trans h.length_eq
  · exact hdigits
  · show held b58 = _
    rw [hheld, h.held_eq, number_concat]
  · show j ≤ size
    rw [Nat.zero_add, h.length_eq] at hle
    exact hle
  · exact hlast

/-- `138 / 100` is a little more than the logarithm of 256 to base 58. -/
theorem bytes_fit (count : ℕ) : 256 ^ count < 58 ^ bufferSize count := by
  have hratio : 256 ^ 100 ≤ 58 ^ 138 := by norm_num
  have hpow : (256 ^ count) ^ 100 < (58 ^ bufferSize count) ^ 100 := by
    calc (256 ^ count) ^ 100 = (256 ^ 100) ^ count := by rw [← pow_mul, ← pow_mul, Nat.mul_comm]
      _ ≤ (58 ^ 138) ^ count := Nat.pow_le_pow_left hratio count
      _ = 58 ^ (count * 138) := by rw [← pow_mul, Nat.mul_comm]
      _ < 58 ^ (bufferSize count * 100) := by
          apply Nat.pow_lt_pow_right (by decide)
          have := Nat.div_add_mod (count * 138) 100
          have := Nat.mod_lt (count * 138) (show 0 < 100 by decide)
          rw [bufferSize]
          omega
      _ = (58 ^ bufferSize count) ^ 100 := pow_mul _ _ _
  exact lt_of_pow_lt_pow_left' 100 hpow

theorem number_lt (bytes : Bytes) : number bytes < 256 ^ bytes.length := by
  rw [number, ← List.length_map (f := UInt8.toNat)]
  apply Radix.value_lt _ (by decide)
  intro d hd
  obtain ⟨byte, -, rfl⟩ := List.mem_map.mp hd
  exact byte.toNat_lt

/-- The loop over the bytes, from any of them on. -/
theorem encodeBytes_spec {size : ℕ} (rest : Bytes) {bytes : Bytes} {state : List UInt8 × ℕ}
    (h : Holds size bytes state) (hroom : 256 ^ (bytes ++ rest).length ≤ 58 ^ size) :
    ∃ state', rest.foldlM encodeByte state = some state' ∧ Holds size (bytes ++ rest) state' := by
  induction rest generalizing bytes state with
  | nil =>
      refine ⟨state, rfl, ?_⟩
      rw [List.append_nil]
      exact h
  | cons byte rest ih =>
      have hnow : number (bytes ++ [byte]) < 58 ^ size := by
        apply (number_lt _).trans_le
        apply le_trans _ hroom
        apply Nat.pow_le_pow_right (by decide)
        simp
      obtain ⟨state', hbyte, h'⟩ := encodeByte_spec h hnow
      obtain ⟨last, hrest, hlast⟩ := ih h' (by rw [← List.append_cons]; exact hroom)
      refine ⟨last, ?_, ?_⟩
      · rw [List.foldlM_cons, hbyte]
        exact hrest
      · rw [List.append_cons]
        exact hlast

theorem eq_zeros_append (bytes : Bytes) :
    bytes = List.replicate (leadingZeros bytes) 0 ++ bytes.drop (leadingZeros bytes) := by
  induction bytes with
  | nil => rfl
  | cons byte bytes ih =>
      by_cases hbyte : byte = 0
      · subst hbyte
        rw [leadingZeros, List.takeWhile_cons_of_pos rfl]
        exact congrArg (0 :: ·) ih
      · rw [leadingZeros, List.takeWhile_cons_of_neg (by simpa using hbyte)]
        rfl

theorem number_drop_zeros (bytes : Bytes) :
    number (bytes.drop (leadingZeros bytes)) = number bytes := by
  conv_rhs => rw [eq_zeros_append bytes]
  rw [number, number, List.map_append, List.map_replicate]
  exact (Radix.value_zeros_append _).symm

theorem letters_eq {digits : List UInt8} (h : Digits digits) :
    (digits.mapM fun d => alphabet[d.toNat]?) = some ((digits.map UInt8.toNat).map letter) := by
  induction digits with
  | nil => rfl
  | cons d digits ih =>
      have hd : d.toNat < alphabet.length := h d List.mem_cons_self
      rw [List.mapM_cons, List.getElem?_eq_getElem hd, ih fun c hc => h c (List.mem_cons_of_mem d hc)]
      show some (_ :: _) = some (_ :: _)
      rw [letter, List.getD_eq_getElem?_getD, List.getElem?_eq_getElem hd]
      rfl

theorem toNat_beq_zero (d : UInt8) : (d.toNat == 0) = (d == 0) := by
  rw [Bool.eq_iff_iff, beq_iff_eq, beq_iff_eq, ← UInt8.toNat_inj]
  rfl

/-- The encoder stays inside its buffer and writes the base58 of the bytes. -/
theorem base58Encode_eq (buffer : Bytes) : base58Encode buffer = some (text buffer) := by
  generalize hzeros : leadingZeros buffer = zeros
  generalize hsize : bufferSize (buffer.length - zeros) = size
  have hzero : held (List.replicate size 0) = 0 := by
    rw [held, List.map_replicate]
    exact Radix.value_replicate_zero size
  have hstart : Holds size [] (List.replicate size 0, 0) := by
    constructor
    · exact List.length_replicate
    · intro d hd
      rw [List.eq_of_mem_replicate hd]
      decide
    · exact hzero
    · exact Nat.zero_le size
    · show held (List.replicate size 0) < 58 ^ 0
      rw [hzero]
      exact Nat.one_pos
  have hroom : 256 ^ ([] ++ buffer.drop zeros).length ≤ 58 ^ size := by
    rw [List.nil_append, List.length_drop, ← hsize]
    exact (bytes_fit _).le
  obtain ⟨⟨b58, length⟩, hrun, hend⟩ := encodeBytes_spec (buffer.drop zeros) hstart hroom
  generalize hdigits : (b58.drop (b58.length - length)).dropWhile (· == 0) = digits
  have hlt : Digits digits := by
    intro d hd
    rw [← hdigits] at hd
    exact hend.digits d (List.mem_of_mem_drop ((List.dropWhile_sublist _).subset hd))
  -- the digits behind the zeros are those of the number
  have hvalue : digits.map UInt8.toNat = Radix.digits 58 (number buffer) := by
    have hheld : held b58 = number buffer := by
      rw [← number_drop_zeros buffer, hzeros]
      exact hend.held_eq
    have hshort := Radix.value_drop hend.short
    rw [List.length_map, ← List.map_drop] at hshort
    rw [← hheld, held, ← hshort, ← Radix.dropWhile_eq_digits (by decide), List.dropWhile_map, ← hdigits]
    · rw [show ((· == 0) ∘ UInt8.toNat : UInt8 → Bool) = (· == 0) from funext toNat_beq_zero]
    · intro d hd
      obtain ⟨c, hc, rfl⟩ := List.mem_map.mp hd
      exact hend.digits c (List.mem_of_mem_drop hc)
  rw [base58Encode, hzeros, hsize]
  show ((buffer.drop zeros).foldlM encodeByte (List.replicate size 0, 0)).bind _ = _
  rw [hrun]
  show ((((b58.drop (b58.length - length)).dropWhile (· == 0)).mapM
    fun d => alphabet[d.toNat]?).bind fun letters => some (List.replicate zeros '1' ++ letters)) = _
  rw [hdigits, letters_eq hlt, hvalue, text, hzeros]
  rfl

/-! ## The address of a blob -/

/-- `_computeCID` -/
def computeCID (sha256 : Bytes → Bytes) (data : Bytes) : Option GoString :=
  let digest := sha256 data
  let multihash := ((List.replicate 34 (0 : UInt8)).set 0 0x12).set 1 0x20
  -- `multihash.set(digest, 2)` throws where the digest is too long
  if 2 + digest.length ≤ multihash.length then
    base58Encode (multihash.take 2 ++ digest ++ multihash.drop (2 + digest.length))
  else none

theorem computeCID_eq {sha256 : Bytes → Bytes} {data : Bytes} (h : (sha256 data).length = 32) :
    computeCID sha256 data = some (text (0x12 :: 0x20 :: sha256 data)) := by
  have hfits : 2 + (sha256 data).length ≤
      (((List.replicate 34 (0 : UInt8)).set 0 0x12).set 1 0x20).length := by
    rw [h]
    decide
  rw [computeCID, if_pos hfits, base58Encode_eq, h]
  show some (text (0x12 :: 0x20 :: (sha256 data ++ []))) = _
  rw [List.append_nil]

end GritsClient

namespace HashVerifier

/-- `_base58Encode`, the same text as in `GritsClient.js`. -/
def base58Encode (buffer : Bytes) : Option GoString := GritsClient.base58Encode buffer

/-- `_computeCID` -/
def computeCID (sha256 : Bytes → Bytes) (buffer : Bytes) : Option GoString :=
  GritsClient.computeCID sha256 buffer

end HashVerifier

namespace BlobStore

open Base58

/-- The libraries behind the hashes. -/
structure HashLibraries where
  /-- SHA-256: `crypto.subtle.digest`, and `Sum` of a hasher of Go on what was written to it. -/
  sha256 : Bytes → Bytes
  /-- `multihash.Sum(data, multihash.SHA2_256, -1)` -/
  multihashSum : Bytes → Option Bytes
  /-- `base58.Encode` -/
  encode : Bytes → GoString

/-- What the libraries are documented to do. -/
structure HashLibraries.Documented (lib : HashLibraries) : Prop where
  digest_length : ∀ data, (lib.sha256 data).length = 32
  multihashSum_eq : ∀ data, lib.multihashSum data = some (0x12 :: 0x20 :: lib.sha256 data)
  encode_text : ∀ bytes, IsTextOf bytes (lib.encode bytes)

/-- `ComputeHash`; an error of the library is a panic. -/
def computeHash (lib : HashLibraries) (data : Bytes) : Option BlobAddr := do
  let mh ← lib.multihashSum data
  return lib.encode mh

/-- What `io.Copy` has moved: the chunks, and the error it stopped at. -/
structure Copied where
  chunks : List Bytes
  error : Option GoString

/-- `CopyAndHash` -/
def copyAndHash (lib : HashLibraries) (copied : Copied) : Except GoString (BlobAddr × ℕ) :=
  let written := copied.chunks.foldl (fun written chunk => written ++ chunk) []
  let size := copied.chunks.foldl (fun size chunk => size + chunk.length) 0
  match copied.error with
  | some err => .error err
  | none => .ok (lib.encode ([18, 32] ++ lib.sha256 written), size)

theorem foldl_append (chunks : List Bytes) (written : Bytes) :
    chunks.foldl (fun written chunk => written ++ chunk) written = written ++ chunks.flatten := by
  induction chunks generalizing written with
  | nil => exact (List.append_nil _).symm
  | cons chunk chunks ih =>
      rw [List.foldl_cons, ih, List.flatten_cons, List.append_assoc]

theorem foldl_length (chunks : List Bytes) (size : ℕ) :
    chunks.foldl (fun size chunk => size + chunk.length) size = size + chunks.flatten.length := by
  induction chunks generalizing size with
  | nil => rfl
  | cons chunk chunks ih =>
      rw [List.foldl_cons, ih, List.flatten_cons, List.length_append, Nat.add_assoc]

/-- Client and server write the same base58, and give a blob the same address. -/
theorem base58_agrees (lib : HashLibraries) (hlib : lib.Documented) :
    (∀ buffer, GritsClient.base58Encode buffer = some (text buffer) ∧
      HashVerifier.base58Encode buffer = some (text buffer) ∧ lib.encode buffer = text buffer) ∧
    ∀ data, ∃ cid, GritsClient.computeCID lib.sha256 data = some cid ∧
      HashVerifier.computeCID lib.sha256 data = some cid ∧ computeHash lib data = some cid ∧
      ∀ copied : Copied, copied.error = none → copied.chunks.flatten = data →
        copyAndHash lib copied = .ok (cid, data.length) := by
  have hencode : ∀ bytes, lib.encode bytes = text bytes := by
    intro bytes
    exact (hlib.encode_text bytes).eq_text
  constructor
  · intro buffer
    exact ⟨GritsClient.base58Encode_eq buffer, GritsClient.base58Encode_eq buffer, hencode buffer⟩
  · intro data
    have hcid := GritsClient.computeCID_eq (hlib.digest_length data)
    refine ⟨text (0x12 :: 0x20 :: lib.sha256 data), hcid, hcid, ?_, ?_⟩
    · rw [computeHash, hlib.multihashSum_eq, ← hencode]
      rfl
    · rintro ⟨chunks, error⟩ herror hdata
      obtain rfl : error = none := herror
      have hchunks : chunks.flatten = data := hdata
      show Except.ok (lib.encode ([18, 32] ++ lib.sha256 (chunks.foldl _ [])), chunks.foldl _ 0) = _
      rw [foldl_append, foldl_length, List.nil_append, Nat.zero_add, hchunks, hencode]
      rfl

/-- The SHA-256 of nothing. -/
def emptyDigest : Bytes :=
  [0xe3, 0xb0, 0xc4, 0x42, 0x98, 0xfc, 0x1c, 0x14, 0x9a, 0xfb, 0xf4, 0xc8, 0x99, 0x6f, 0xb9, 0x24,
    0x27, 0xae, 0x41, 0xe4, 0x64, 0x9b, 0x93, 0x4c, 0xa4, 0x95, 0x99, 0x1b, 0x78, 0x52, 0xb8, 0x55]

/-- Libraries that know one digest. -/
def emptyLibraries : HashLibraries where
  sha256 _ := emptyDigest
  multihashSum _ := some (0x12 :: 0x20 :: emptyDigest)
  encode := text

theorem emptyLibraries_documented : emptyLibraries.Documented where
  digest_length _ := rfl
  multihashSum_eq _ := rfl
  encode_text := isTextOf_text

/-- The empty blob. -/
theorem base58_agrees_empty : computeHash emptyLibraries [] =
    some "QmdfTbBqBPQ7VNxZEYEj14VmRuZBkqFbiwReogJgS1zR1n".toList := by
  obtain ⟨cid, hclient, -, hserver, -⟩ :=
    (base58_agrees emptyLibraries emptyLibraries_documented).2 []
  have hrun : GritsClient.computeCID emptyLibraries.sha256 [] =
      some "QmdfTbBqBPQ7VNxZEYEj14VmRuZBkqFbiwReogJgS1zR1n".toList := by
    decide +kernel
  rw [hserver, ← hclient, hrun]

end BlobStore

end Grits
