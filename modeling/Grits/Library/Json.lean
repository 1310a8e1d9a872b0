import Grits.Library.Decimal
import Grits.Library.Unicode

/-!
# JSON

`JSON.stringify` of JavaScript for an object of strings and numbers, and the parser of Go's
`encoding/json`.  A JSON text is written as a list of characters: `JSON.stringify` writes a
surrogate without its other half as an escape, which Go reads as a replacement character.
-/

namespace Grits

namespace Json

open Utf16

/-! ## Writing -/

/-- A hexadecimal digit. -/
def hexDigit (d : ℕ) : Char := if d < 10 then Char.ofNat (48 + d) else Char.ofNat (87 + d)

/-- `UnicodeEscape` -/
def unicodeEscape (unit : UInt16) : List Char :=
  ['\\', 'u', hexDigit (unit.toNat / 4096), hexDigit (unit.toNat / 256 % 16),
    hexDigit (unit.toNat / 16 % 16), hexDigit (unit.toNat % 16)]

/-- A character inside of a string literal. -/
def quoteChar (c : Char) : List Char :=
  if c = '\x08' then ['\\', 'b']
  else if c = '\x09' then ['\\', 't']
  else if c = '\x0a' then ['\\', 'n']
  else if c = '\x0c' then ['\\', 'f']
  else if c = '\x0d' then ['\\', 'r']
  else if c = '\x22' then ['\\', '\x22']
  else if c = '\\' then ['\\', '\\']
  else if c.toNat < 0x20 then unicodeEscape (UInt16.ofNat c.toNat)
  else [c]

/-- A code point inside of a string literal. -/
def quotePoint : CodePoint → List Char
  | .char c => quoteChar c
  | .lone unit => unicodeEscape unit

/-- `QuoteJSONString` -/
def quote (s : JsString) : List Char := '\x22' :: (codePoints s).flatMap quotePoint ++ ['\x22']

/-- A property value: a string or a natural number. -/
inductive JsScalar where
  | str (value : JsString)
  | num (value : ℕ)
  deriving DecidableEq

/-- A text of ASCII characters, by its bytes. -/
def ofAscii (bytes : List UInt8) : List Char := bytes.map fun byte => Char.ofNat byte.toNat

/-- `SerializeJSONProperty`; a number below `10 ^ 21` is written in decimal. -/
def stringifyScalar : JsScalar → List Char
  | .str value => quote value
  | .num value => ofAscii (Decimal.formatNat value)

/-- The members of an object. -/
def stringifyMembers : List (JsString × JsScalar) → List Char
  | [] => []
  | [(key, value)] => quote key ++ ':' :: stringifyScalar value
  | (key, value) :: member :: members =>
      quote key ++ ':' :: stringifyScalar value ++ ',' :: stringifyMembers (member :: members)

/-- `JSON.stringify` of an object with these properties. -/
def stringify (members : List (JsString × JsScalar)) : List Char :=
  '\x7b' :: stringifyMembers members ++ ['\x7d']

/-! ## Reading -/

/-- A JSON value as Go reads it: a number is its text, and a surrogate in a string has been
replaced. -/
inductive Value where
  | null
  | bool (value : Bool)
  | number (text : List Char)
  | string (value : List Char)
  | array (items : List Value)
  | object (members : List (List Char × Value))

/-- The white space between tokens. -/
def skipSpace (text : List Char) : List Char :=
  text.dropWhile fun c => c ∈ [' ', '\x09', '\x0a', '\x0d']

/-- The value of a hexadecimal digit. -/
def hexValue (c : Char) : Option ℕ :=
  if '0' ≤ c ∧ c ≤ '9' then some (c.toNat - 48)
  else if 'a' ≤ c ∧ c ≤ 'f' then some (c.toNat - 87)
  else if 'A' ≤ c ∧ c ≤ 'F' then some (c.toNat - 55)
  else none

/-- `getu4` -/
def getu4 (a b c d : Char) : Option UInt16 := do
  let a ← hexValue a
  let b ← hexValue b
  let c ← hexValue c
  let d ← hexValue d
  some (UInt16.ofNat (a * 4096 + b * 256 + c * 16 + d))

/-- The character of a short escape. -/
def unescape (c : Char) : Option Char :=
  if c = '\x22' ∨ c = '\\' ∨ c = '/' then some c
  else if c = 'b' then some '\x08'
  else if c = 'f' then some '\x0c'
  else if c = 'n' then some '\x0a'
  else if c = 'r' then some '\x0d'
  else if c = 't' then some '\x09'
  else none

/-- A string literal up to its closing quote, and what follows it. -/
def scanString : List Char → Option (List CodePoint × List Char)
  | [] => none
  | '\x22' :: rest => some ([], rest)
  | '\\' :: 'u' :: a :: b :: c :: d :: rest => do
      let unit ← getu4 a b c d
      let (points, rest) ← scanString rest
      some (ofUnit unit :: points, rest)
  | '\\' :: c :: rest => do
      let c ← unescape c
      let (points, rest) ← scanString rest
      some (.char c :: points, rest)
  | c :: rest =>
      if c.toNat < 0x20 then none
      else do
        let (points, rest) ← scanString rest
        some (.char c :: points, rest)

/-- The surrogates that `unquote` finds in escapes: two halves make a character, any other is
replaced. -/
def joinHalves : List CodePoint → List Char
  | [] => []
  | .char c :: points => c :: joinHalves points
  | [.lone _] => ['\uFFFD']
  | .lone _ :: .char c :: points => '\uFFFD' :: c :: joinHalves points
  | .lone high :: .lone low :: points =>
      if IsHigh high ∧ IsLow low then combine high low :: joinHalves points
      else '\uFFFD' :: joinHalves (.lone low :: points)

/-- The integer part of a number. -/
def scanInteger : List Char → Option (List Char × List Char)
  | [] => none
  | c :: rest =>
      if c = '0' then some ([c], rest)
      else if c.isDigit then some (c :: rest.takeWhile Char.isDigit, rest.dropWhile Char.isDigit)
      else none

/-- The digits after the point, or of an exponent. -/
def scanDigits (text : List Char) : Option (List Char × List Char) :=
  if text.takeWhile Char.isDigit = [] then none
  else some (text.takeWhile Char.isDigit, text.dropWhile Char.isDigit)

/-- The fraction of a number, if it has one. -/
def scanFraction : List Char → Option (List Char × List Char)
  | '.' :: rest => (scanDigits rest).map fun (digits, rest) => ('.' :: digits, rest)
  | rest => some ([], rest)

/-- The exponent of a number, if it has one. -/
def scanExponent : List Char → Option (List Char × List Char)
  | [] => some ([], [])
  | c :: rest =>
      if c = 'e' ∨ c = 'E' then
        match rest with
        | '+' :: rest => (scanDigits rest).map fun (digits, rest) => (c :: '+' :: digits, rest)
        | '-' :: rest => (scanDigits rest).map fun (digits, rest) => (c :: '-' :: digits, rest)
        | rest => (scanDigits rest).map fun (digits, rest) => (c :: digits, rest)
      else some ([], c :: rest)

/-- A number without its sign. -/
def scanUnsigned (text : List Char) : Option (List Char × List Char) := do
  let (integer, rest) ← scanInteger text
  let (fraction, rest) ← scanFraction rest
  let (exponent, rest) ← scanExponent rest
  some (integer ++ fraction ++ exponent, rest)

/-- A number and what follows it. -/
def scanNumber : List Char → Option (List Char × List Char)
  | '-' :: rest => (scanUnsigned rest).map fun (digits, rest) => ('-' :: digits, rest)
  | text => scanUnsigned text

mutual

/-- A value at the start of a text, and what follows it.  `depth` is how deep objects and arrays
may still be nested. -/
def parseValue : ℕ → ℕ → List Char → Option (Value × List Char)
  | 0, _, _ => none
  | fuel + 1, depth, text =>
      match skipSpace text with
      | '\x7b' :: rest =>
          if depth = 0 then none
          else match skipSpace rest with
            | '\x7d' :: rest => some (.object [], rest)
            | rest =>
                (parseMembers fuel (depth - 1) rest).map fun (members, rest) =>
                  (.object members, rest)
      | '[' :: rest =>
          if depth = 0 then none
          else match skipSpace rest with
            | ']' :: rest => some (.array [], rest)
            | rest =>
                (parseItems fuel (depth - 1) rest).map fun (items, rest) => (.array items, rest)
      | '\x22' :: rest =>
          (scanString rest).map fun (points, rest) => (.string (joinHalves points), rest)
      | 't' :: 'r' :: 'u' :: 'e' :: rest => some (.bool true, rest)
      | 'f' :: 'a' :: 'l' :: 's' :: 'e' :: rest => some (.bool false, rest)
      | 'n' :: 'u' :: 'l' :: 'l' :: rest => some (.null, rest)
      | text => (scanNumber text).map fun (number, rest) => (.number number, rest)

/-- The members of an object, up to its closing brace. -/
def parseMembers : ℕ → ℕ → List Char → Option (List (List Char × Value) × List Char)
  | 0, _, _ => none
  | fuel + 1, depth, text =>
      match skipSpace text with
      | '\x22' :: rest => do
          let (points, rest) ← scanString rest
          match skipSpace rest with
          | ':' :: rest => do
              let (value, rest) ← parseValue fuel depth rest
              match skipSpace rest with
              | ',' :: rest => do
                  let (members, rest) ← parseMembers fuel depth rest
                  some ((joinHalves points, value) :: members, rest)
              | '\x7d' :: rest => some ([(joinHalves points, value)], rest)
              | _ => none
          | _ => none
      | _ => none

/-- The items of an array, up to its closing bracket. -/
def parseItems : ℕ → ℕ → List Char → Option (List Value × List Char)
  | 0, _, _ => none
  | fuel + 1, depth, text => do
      let (value, rest) ← parseValue fuel depth text
      match skipSpace rest with
      | ',' :: rest => do
          let (items, rest) ← parseItems fuel depth rest
          some (value :: items, rest)
      | ']' :: rest => some ([value], rest)
      | _ => none

end

/-- `maxNestingDepth` -/
def maxNestingDepth : ℕ := 10000

/-- The value that `json.Unmarshal` finds in `data`.  Every value of the text takes a character
of its own, which bounds the recursion. -/
def unmarshal (data : List UInt8) : Option Value :=
  let text := Utf8.decode data
  match parseValue (text.length + 1) maxNestingDepth text with
  | some (value, rest) => if skipSpace rest = [] then some value else none
  | none => none

end Json

end Grits
