import Grits.Library.Json
import Grits.Library.Runes

/-!
# String literals of Go and of JavaScript

`strconv.Quote`, which is what `%q` writes for a string, and the string literals of
JavaScript in double quotes.  The two have different escapes.

Which characters are printable is a parameter.
-/

namespace Grits

open Json Utf8

namespace GoQuote

/-- Two hexadecimal digits. -/
def hex2 (n : ℕ) : List Char := [hexDigit (n / 16), hexDigit (n % 16)]

/-- Four hexadecimal digits. -/
def hex4 (n : ℕ) : List Char := hex2 (n / 256) ++ hex2 (n % 256)

/-- The control characters with an escape of their own, and its letter. -/
def escapes : List (Char × Char) :=
  [('\x07', 'a'), ('\x08', 'b'), ('\x0c', 'f'), ('\x0a', 'n'), ('\x0d', 'r'), ('\x09', 't'),
    ('\x0b', 'v')]

/-- The digits behind `\U`. -/
def hex8 (n : ℕ) : List Char := hex4 (n / 0x10000) ++ hex4 (n % 0x10000)

/-- `appendEscapedRune` -/
def appendEscapedRune (isPrint : Char → Bool) (c : Char) : List Char :=
  if c = '\x22' || c = '\\' then ['\\', c]
  else if isPrint c then [c]
  else
    match escapes.lookup c with
    | some letter => ['\\', letter]
    | none =>
        if c.toNat < 0x20 || c.toNat = 0x7f then '\\' :: 'x' :: hex2 c.toNat
        else if c.toNat < 0x10000 then '\\' :: 'u' :: hex4 c.toNat
        else '\\' :: 'U' :: hex8 c.toNat

/-- A byte that is not part of a character is written in hexadecimal. -/
def quoteRune (isPrint : Char → Bool) : Rune → List Char
  | .char c => appendEscapedRune isPrint c
  | .invalid byte => '\\' :: 'x' :: hex2 byte.toNat

/-- `strconv.Quote` -/
def quote (isPrint : Char → Bool) (s : List UInt8) : List Char :=
  '\x22' :: (runes s).flatMap (quoteRune isPrint) ++ ['\x22']

/-- The character is written with a backslash. -/
def escaped (isPrint : Char → Bool) (c : Char) : Bool := c = '\x22' || c = '\\' || !isPrint c

/-- What `strconv.IsPrint` says of ASCII. -/
def AsciiPrint (isPrint : Char → Bool) : Prop :=
  ∀ c : Char, c.toNat < 0x80 → isPrint c = decide (0x20 ≤ c.toNat ∧ c.toNat < 0x7f)

end GoQuote

namespace JsLiteral

open GoQuote

/-- The code units of an escape of one character.  A digit, and a line end, would begin another
kind of escape, which is not read here. -/
def singleEscape (c : Char) : Option JsString :=
  if c = 'b' then some [0x08]
  else if c = 'f' then some [0x0c]
  else if c = 'n' then some [0x0a]
  else if c = 'r' then some [0x0d]
  else if c = 't' then some [0x09]
  else if c = 'v' then some [0x0b]
  else if c = 'x' || c = 'u' || c.isDigit then none
  else if c = '\n' || c = '\r' || c = '\u2028' || c = '\u2029' then none
  else some (Utf16.encodeChar c)

/-- Two hexadecimal digits. -/
def readHex2 (a b : Char) : Option UInt16 := do
  let a ← hexValue a
  let b ← hexValue b
  some (UInt16.ofNat (a * 16 + b))

/-- Code units in front of what has been read. -/
def prepend (units : JsString) (read : JsString × List Char) : JsString × List Char :=
  (units ++ read.1, read.2)

/-- The characters of a literal up to the closing quote, and what follows it. -/
def scan : List Char → Option (JsString × List Char)
  | [] => none
  | '\x22' :: rest => some ([], rest)
  | '\\' :: 'x' :: a :: b :: rest =>
      (readHex2 a b).bind fun unit => (scan rest).map (prepend [unit])
  | '\\' :: 'u' :: a :: b :: c :: d :: rest =>
      (getu4 a b c d).bind fun unit => (scan rest).map (prepend [unit])
  | '\\' :: c :: rest => (singleEscape c).bind fun units => (scan rest).map (prepend units)
  | c :: rest =>
      if c = '\n' || c = '\r' then none
      else (scan rest).map (prepend (Utf16.encodeChar c))

/-- The value of the string literal a text begins with, and what follows it. -/
def readString : List Char → Option (JsString × List Char)
  | '\x22' :: rest => scan rest
  | _ => none

/-! ## Reading an escape -/

theorem scan_hex (a b : Char) (rest : List Char) : scan ('\\' :: 'x' :: a :: b :: rest) =
    (readHex2 a b).bind fun unit => (scan rest).map (prepend [unit]) := by
  rw [scan]

theorem scan_unicode (a b c d : Char) (rest : List Char) :
    scan ('\\' :: 'u' :: a :: b :: c :: d :: rest) =
      (getu4 a b c d).bind fun unit => (scan rest).map (prepend [unit]) := by
  rw [scan]

theorem scan_escape {c : Char} (hx : c ≠ 'x') (hu : c ≠ 'u') (rest : List Char) :
    scan ('\\' :: c :: rest) = (singleEscape c).bind fun units =>
      (scan rest).map (prepend units) := by
  rw [scan]
  · intro a b tail h
    exact absurd h hx
  · intro a b c' d tail h
    exact absurd h hu

/-- A character that stands for itself. -/
structure Plain (c : Char) : Prop where
  quote : c ≠ '\x22'
  backslash : c ≠ '\\'
  lf : c ≠ '\n'
  cr : c ≠ '\r'

theorem scan_plain {c : Char} (h : Plain c) (rest : List Char) :
    scan (c :: rest) = (scan rest).map (prepend (Utf16.encodeChar c)) := by
  have hend : ¬ (decide (c = '\n') || decide (c = '\r')) = true := by
    simp [h.lf, h.cr]
  rw [scan, if_neg hend]
  · exact h.quote
  · intro a b tail hc
    exact absurd hc h.backslash
  · intro a b c' d tail hc
    exact absurd hc h.backslash
  · intro c' tail hc
    exact absurd hc h.backslash

theorem map_prepend (units units' : JsString) (read : Option (JsString × List Char)) :
    (read.map (prepend units')).map (prepend units) = read.map (prepend (units ++ units')) := by
  rw [Option.map_map]
  congr 1
  funext value
  show (units ++ (units' ++ value.1), value.2) = _
  rw [← List.append_assoc]
  rfl

theorem scan_plains {text : List Char} (h : ∀ c ∈ text, Plain c) (rest : List Char) :
    scan (text ++ rest) = (scan rest).map (prepend (Utf16.encode text)) := by
  induction text with
  | nil =>
      show scan rest = (scan rest).map id
      rw [Option.map_id, id]
  | cons c text ih =>
      rw [List.cons_append, scan_plain (h c List.mem_cons_self),
        ih fun d hd => h d (List.mem_cons_of_mem c hd), map_prepend]
      rfl

theorem hexValue_hexDigit {d : ℕ} (h : d < 16) : hexValue (hexDigit d) = some d := by
  have hall : ∀ d < 16, hexValue (hexDigit d) = some d := by decide
  exact hall d h

theorem plain_hexDigit {d : ℕ} (h : d < 16) : Plain (hexDigit d) := by
  have hall : ∀ d < 16, hexDigit d ≠ '\x22' ∧ hexDigit d ≠ '\\' ∧ hexDigit d ≠ '\n' ∧
      hexDigit d ≠ '\r' := by decide
  obtain ⟨hquote, hbackslash, hlf, hcr⟩ := hall d h
  exact ⟨hquote, hbackslash, hlf, hcr⟩

theorem mem_hex2 {n : ℕ} (h : n < 256) : ∀ c ∈ hex2 n, ∃ d < 16, c = hexDigit d := by
  intro c hc
  rcases List.mem_pair.mp hc with rfl | rfl
  · exact ⟨n / 16, by omega, rfl⟩
  · exact ⟨n % 16, by omega, rfl⟩

theorem mem_hex4 {n : ℕ} (h : n < 0x10000) : ∀ c ∈ hex4 n, ∃ d < 16, c = hexDigit d := by
  intro c hc
  rcases List.mem_append.mp hc with hc | hc
  · exact mem_hex2 (by omega) c hc
  · exact mem_hex2 (by omega) c hc

theorem mem_hex8 (c : Char) : ∀ c' ∈ hex8 c.toNat, ∃ d < 16, c' = hexDigit d := by
  have hrange := Utf16.toNat_lt_surrogates c
  intro c' hc
  rcases List.mem_append.mp hc with hc | hc
  · exact mem_hex4 (by omega) c' hc
  · exact mem_hex4 (by omega) c' hc

theorem scan_hex2 {n : ℕ} (h : n < 256) (rest : List Char) :
    scan ('\\' :: 'x' :: hex2 n ++ rest) = (scan rest).map (prepend [UInt16.ofNat n]) := by
  have hread : readHex2 (hexDigit (n / 16)) (hexDigit (n % 16)) = some (UInt16.ofNat n) := by
    rw [readHex2, hexValue_hexDigit (by omega), hexValue_hexDigit (by omega)]
    show some (UInt16.ofNat (n / 16 * 16 + n % 16)) = _
    rw [show n / 16 * 16 + n % 16 = n by omega]
  show scan ('\\' :: 'x' :: hexDigit (n / 16) :: hexDigit (n % 16) :: rest) = _
  rw [scan_hex, hread]
  rfl

theorem scan_hex4 {n : ℕ} (h : n < 0x10000) (rest : List Char) :
    scan ('\\' :: 'u' :: hex4 n ++ rest) = (scan rest).map (prepend [UInt16.ofNat n]) := by
  have hread : getu4 (hexDigit (n / 256 / 16)) (hexDigit (n / 256 % 16))
      (hexDigit (n % 256 / 16)) (hexDigit (n % 256 % 16)) = some (UInt16.ofNat n) := by
    rw [getu4, hexValue_hexDigit (by omega), hexValue_hexDigit (by omega),
      hexValue_hexDigit (by omega), hexValue_hexDigit (by omega)]
    show some (UInt16.ofNat (n / 256 / 16 * 4096 + n / 256 % 16 * 256 + n % 256 / 16 * 16 +
      n % 256 % 16)) = _
    rw [show n / 256 / 16 * 4096 + n / 256 % 16 * 256 + n % 256 / 16 * 16 + n % 256 % 16 = n by
      omega]
  show scan ('\\' :: 'u' :: hexDigit (n / 256 / 16) :: hexDigit (n / 256 % 16) ::
    hexDigit (n % 256 / 16) :: hexDigit (n % 256 % 16) :: rest) = _
  rw [scan_unicode, hread]
  rfl

/-! ## Reading what Go has quoted -/

/-- What a rune means in JavaScript after Go has quoted it.  There is no `\a` and no `\U`. -/
def meaning (isPrint : Char → Bool) : Rune → JsString
  | .char c =>
      if c = '\x07' then Utf16.encodeChar 'a'
      else if 0x10000 ≤ c.toNat && !isPrint c then Utf16.encode ('U' :: hex8 c.toNat)
      else Utf16.encodeChar c
  | .invalid byte => [UInt16.ofNat byte.toNat]

theorem meaning_small {isPrint : Char → Bool} {c : Char} (hbell : c ≠ '\x07')
    (hsmall : c.toNat < 0x10000) : meaning isPrint (.char c) = Utf16.encodeChar c := by
  have hle : decide (0x10000 ≤ c.toNat) = false := decide_eq_false (Nat.not_le_of_lt hsmall)
  rw [meaning, if_neg hbell, hle, Bool.false_and, if_neg Bool.false_ne_true]

theorem encodeChar_small {c : Char} (hsmall : c.toNat < 0x10000) :
    Utf16.encodeChar c = [UInt16.ofNat c.toNat] := by
  rw [Utf16.encodeChar, if_pos hsmall]

/-- An escape of one character that the two languages share. -/
theorem scan_shared {isPrint : Char → Bool} {c letter : Char} (hbell : c ≠ '\x07')
    (hsmall : c.toNat < 0x10000) (hx : letter ≠ 'x') (hu : letter ≠ 'u')
    (hescape : singleEscape letter = some [UInt16.ofNat c.toNat]) (rest : List Char) :
    scan (['\\', letter] ++ rest) = (scan rest).map (prepend (meaning isPrint (.char c))) := by
  show scan ('\\' :: letter :: rest) = _
  rw [scan_escape hx hu, hescape, meaning_small hbell hsmall, encodeChar_small hsmall]
  rfl

theorem escapes_shared : ∀ entry ∈ escapes, entry.1 ≠ '\x07' → entry.1.toNat < 0x10000 ∧
    entry.2 ≠ 'x' ∧ entry.2 ≠ 'u' ∧ singleEscape entry.2 = some [UInt16.ofNat entry.1.toNat] := by
  decide

theorem not_isPrint {isPrint : Char → Bool} (hascii : AsciiPrint isPrint) {c : Char}
    (h : c.toNat < 0x20) : isPrint c = false := by
  rw [hascii c (by omega)]
  apply decide_eq_false
  omega

theorem scan_quoteRune {isPrint : Char → Bool} (hascii : AsciiPrint isPrint) (rune : Rune)
    (rest : List Char) : scan (quoteRune isPrint rune ++ rest) =
      (scan rest).map (prepend (meaning isPrint rune)) := by
  cases rune with
  | invalid byte => exact scan_hex2 byte.toNat_lt rest
  | char c =>
      have hcontrol : ∀ d : Char, d.toNat < 0x20 → isPrint c = true → c ≠ d := by
        rintro d hd hprint rfl
        rw [not_isPrint hascii hd] at hprint
        cases hprint
      rw [quoteRune, appendEscapedRune]
      split
      next h =>
        rw [Bool.or_eq_true, decide_eq_true_iff, decide_eq_true_iff] at h
        rcases h with rfl | rfl
        · exact scan_shared (by decide) (by decide) (by decide) (by decide) (by decide) rest
        · exact scan_shared (by decide) (by decide) (by decide) (by decide) (by decide) rest
      next hquote =>
      rw [Bool.or_eq_true, decide_eq_true_iff, decide_eq_true_iff, not_or] at hquote
      split
      next hprint =>
        have hplain : Plain c := ⟨hquote.1, hquote.2, hcontrol _ (by decide) hprint,
          hcontrol _ (by decide) hprint⟩
        have hmeaning : meaning isPrint (.char c) = Utf16.encodeChar c := by
          rw [meaning, if_neg (hcontrol _ (by decide) hprint), hprint, Bool.not_true,
            Bool.and_false, if_neg Bool.false_ne_true]
        rw [List.singleton_append, scan_plain hplain, hmeaning]
      next hprint =>
      cases hletter : escapes.lookup c with
      | some letter =>
          have hmem : (c, letter) ∈ escapes := by
            obtain ⟨before, after, heq, -⟩ := List.lookup_eq_some_iff.mp hletter
            rw [heq]
            exact List.mem_append_right _ List.mem_cons_self
          by_cases hbell : c = '\x07'
          · subst hbell
            obtain rfl : letter = 'a' := Option.some.inj hletter.symm
            rfl
          · obtain ⟨hsmall, hx, hu, hescape⟩ := escapes_shared _ hmem hbell
            exact scan_shared hbell hsmall hx hu hescape rest
      | none =>
          have hbell : c ≠ '\x07' := by
            rintro rfl
            cases hletter
          dsimp only
          split
          next hc =>
            rw [Bool.or_eq_true, decide_eq_true_iff, decide_eq_true_iff] at hc
            rw [scan_hex2 (by omega), meaning_small hbell (by omega), encodeChar_small (by omega)]
          next =>
          split
          next hsmall => rw [scan_hex4 hsmall, meaning_small hbell hsmall, encodeChar_small hsmall]
          next hlarge =>
            have hle : decide (0x10000 ≤ c.toNat) = true := decide_eq_true (Nat.le_of_not_lt hlarge)
            have hfalse : isPrint c = false := Bool.eq_false_iff.mpr hprint
            have hplain : ∀ d ∈ hex8 c.toNat, Plain d := by
              intro d hd
              obtain ⟨k, hk, rfl⟩ := mem_hex8 c d hd
              exact plain_hexDigit hk
            have hU : singleEscape 'U' = some (Utf16.encodeChar 'U') := rfl
            rw [meaning, if_neg hbell, hle, hfalse, Bool.not_false, Bool.and_true, if_pos rfl]
            show scan ('\\' :: 'U' :: (hex8 c.toNat ++ rest)) = _
            rw [scan_escape (by decide) (by decide), hU, scan_plains hplain]
            show Option.map _ (Option.map _ _) = _
            rw [map_prepend]
            rfl

/-- The value of a quoted string, and what follows it. -/
theorem readString_quote {isPrint : Char → Bool} (hascii : AsciiPrint isPrint) (s : List UInt8)
    (rest : List Char) : readString (quote isPrint s ++ rest) =
      some ((runes s).flatMap (meaning isPrint), rest) := by
  have hbody : ∀ body : List Rune, scan (body.flatMap (quoteRune isPrint) ++ '\x22' :: rest) =
      some (body.flatMap (meaning isPrint), rest) := by
    intro body
    induction body with
    | nil => rw [List.flatMap_nil, List.nil_append, scan, List.flatMap_nil]
    | cons rune body ih =>
        rw [List.flatMap_cons, List.append_assoc, scan_quoteRune hascii, ih]
        rfl
  show scan (((runes s).flatMap (quoteRune isPrint) ++ ['\x22']) ++ rest) = _
  rw [List.append_assoc]
  exact hbody (runes s)

/-! ## Where the meanings agree -/

/-- The rune means itself: a character other than the bell, and printable if it is beyond
the first 65536. -/
def Agrees (isPrint : Char → Bool) : Rune → Prop
  | .char c => c ≠ '\x07' ∧ (0x10000 ≤ c.toNat → isPrint c = true)
  | .invalid _ => False

theorem length_encodeChar (c : Char) :
    (Utf16.encodeChar c).length = if c.toNat < 0x10000 then 1 else 2 := by
  rw [Utf16.encodeChar]
  split
  next => rfl
  next => rfl

theorem length_meaning_large {isPrint : Char → Bool} {c : Char} (hlarge : 0x10000 ≤ c.toNat)
    (hprint : isPrint c = false) : (meaning isPrint (.char c)).length = 9 := by
  have hbell : c ≠ '\x07' := by
    rintro rfl
    exact absurd hlarge (by decide)
  have hdigits : ∀ text : List Char, (∀ d ∈ text, d.toNat < 0x10000) →
      (Utf16.encode text).length = text.length := by
    intro text htext
    induction text with
    | nil => rfl
    | cons d text ih =>
        show (Utf16.encodeChar d ++ Utf16.encode text).length = _
        rw [List.length_append, length_encodeChar, if_pos (htext d List.mem_cons_self),
          ih fun e he => htext e (List.mem_cons_of_mem d he), List.length_cons, Nat.add_comm]
  rw [meaning, if_neg hbell, decide_eq_true hlarge, hprint, Bool.not_false, Bool.and_true,
    if_pos rfl, hdigits]
  · rfl
  · intro d hd
    rcases List.mem_cons.mp hd with rfl | hd
    · decide
    · obtain ⟨k, hk, rfl⟩ := mem_hex8 c d hd
      have hall : ∀ k < 16, (hexDigit k).toNat < 0x10000 := by decide
      exact hall k hk

theorem meaning_eq {isPrint : Char → Bool} {c : Char} (hbell : c ≠ '\x07')
    (hprint : 0x10000 ≤ c.toNat → isPrint c = true) :
    meaning isPrint (.char c) = Utf16.encodeChar c := by
  rw [meaning, if_neg hbell, if_neg]
  rw [Bool.and_eq_true, decide_eq_true_iff, Bool.not_eq_true']
  rintro ⟨hlarge, hnot⟩
  rw [hprint hlarge] at hnot
  cases hnot

theorem meaning_eq_iff {isPrint : Char → Bool} (rune : Rune) :
    meaning isPrint rune = Utf16.encodeChar rune.toChar ↔ Agrees isPrint rune := by
  cases rune with
  | invalid byte =>
      refine iff_of_false ?_ id
      intro h
      have hunit : UInt16.ofNat byte.toNat = 0xFFFD := (List.cons.inj h).1
      have hbyte := congrArg UInt16.toNat hunit
      rw [Utf16.toNat_unit (byte.toNat_lt.trans (by decide))] at hbyte
      have hlt := byte.toNat_lt
      change byte.toNat = 65533 at hbyte
      omega
  | char c =>
      constructor
      · intro h
        constructor
        · rintro rfl
          have hunits : Utf16.encodeChar 'a' = Utf16.encodeChar '\x07' := h
          exact absurd hunits (by decide)
        · intro hlarge
          by_contra hprint
          rw [Bool.not_eq_true] at hprint
          have hlength := congrArg List.length h
          rw [length_meaning_large hlarge hprint] at hlength
          change 9 = (Utf16.encodeChar c).length at hlength
          rw [length_encodeChar, if_neg (Nat.not_lt.mpr hlarge)] at hlength
          cases hlength
      · rintro ⟨hbell, hprint⟩
        exact meaning_eq hbell hprint

theorem length_le_meaning {isPrint : Char → Bool} (rune : Rune) :
    (Utf16.encodeChar rune.toChar).length ≤ (meaning isPrint rune).length := by
  cases rune with
  | invalid byte => exact le_refl 1
  | char c =>
      show (Utf16.encodeChar c).length ≤ _
      by_cases hbell : c = '\x07'
      · rw [hbell]
        exact le_refl 1
      · by_cases hprint : 0x10000 ≤ c.toNat → isPrint c = true
        · rw [meaning_eq hbell hprint]
        · rw [Classical.not_imp, Bool.not_eq_true] at hprint
          rw [length_meaning_large hprint.1 hprint.2, length_encodeChar]
          split
          next => decide
          next => decide

/-- Two ways to write the members of a list, of which one is never shorter, give the same only
if they agree on every member. -/
theorem flatMap_eq_iff {A B : Type} {f g : A → List B} (hle : ∀ a, (f a).length ≤ (g a).length)
    (l : List A) : l.flatMap g = l.flatMap f ↔ ∀ a ∈ l, g a = f a := by
  have hsum : ∀ l : List A, (l.flatMap f).length ≤ (l.flatMap g).length := by
    intro l
    induction l with
    | nil => exact le_refl 0
    | cons a l ih =>
        rw [List.flatMap_cons, List.flatMap_cons, List.length_append, List.length_append]
        exact Nat.add_le_add (hle a) ih
  induction l with
  | nil => exact iff_of_true rfl fun a ha => absurd ha List.not_mem_nil
  | cons a l ih =>
      rw [List.flatMap_cons, List.flatMap_cons, List.forall_mem_cons]
      constructor
      · intro h
        have hlength := congrArg List.length h
        rw [List.length_append, List.length_append] at hlength
        have hhead : (g a).length = (f a).length := by
          have := hle a
          have := hsum l
          omega
        obtain ⟨hfirst, hrest⟩ := List.append_inj h hhead
        exact ⟨hfirst, ih.mp hrest⟩
      · rintro ⟨hfirst, hrest⟩
        rw [hfirst, ih.mpr hrest]

/-- The literal denotes the text if and only if every rune means itself. -/
theorem readString_quote_iff {isPrint : Char → Bool} (hascii : AsciiPrint isPrint)
    (s : List UInt8) (rest : List Char) :
    readString (quote isPrint s ++ rest) = some (Utf16.encode (decode s), rest) ↔
      ∀ rune ∈ runes s, Agrees isPrint rune := by
  have hencode : Utf16.encode (decode s) =
      (runes s).flatMap fun rune => Utf16.encodeChar rune.toChar := by
    rw [decode_eq, Utf16.encode, List.flatMap_map]
  rw [readString_quote hascii, hencode, Option.some.injEq, Prod.mk.injEq, and_iff_left rfl,
    flatMap_eq_iff length_le_meaning]
  exact forall₂_congr fun rune _ => meaning_eq_iff rune

end JsLiteral

end Grits
