import Mathlib

/-!
# Relative URLs in a browser

The URL parser of the WHATWG standard, as far as it decides the origin of what a text means
on a page with an `http` or `https` URL.  A backslash counts as a slash there, tabs and
newlines are taken out first, and control characters and spaces at both ends as well.

How a host is read is a parameter.
-/

namespace Grits

namespace WebUrl

variable {Host : Type}

/-- The scheme of a page. -/
inductive Scheme where
  | http
  | https
  deriving DecidableEq

/-- The port that is not written. -/
def Scheme.defaultPort : Scheme → ℕ
  | .http => 80
  | .https => 443

/-- The origin of a page; the default port of the scheme is `none`. -/
structure Origin (Host : Type) where
  scheme : Scheme
  host : Host
  port : Option ℕ

/-- What a text means on a page. -/
inductive Resolved (Host : Type) where
  /-- It is no URL. -/
  | failure
  /-- It begins with a scheme; where that leads is not followed. -/
  | absolute (scheme : List Char)
  | url (origin : Origin Host)

/-- A control character or a space. -/
def isC0OrSpace (c : Char) : Bool := c.toNat ≤ 0x20

/-- A tab or a newline. -/
def isTabOrNewline (c : Char) : Bool := c = '\t' || c = '\n' || c = '\r'

/-- A slash or a backslash. -/
def isSlash (c : Char) : Bool := c = '/' || c = '\\'

/-- The text without control characters and spaces at its end. -/
def trimEnd : List Char → List Char
  | [] => []
  | c :: rest =>
      match trimEnd rest with
      | [] => if isC0OrSpace c then [] else [c]
      | trimmed => c :: trimmed

/-- What the parser reads. -/
def prepare (text : List Char) : List Char :=
  (trimEnd (text.dropWhile isC0OrSpace)).filter fun c => !isTabOrNewline c

/-- The rest of a scheme. -/
def schemeRest : List Char → Option (List Char)
  | [] => none
  | c :: rest =>
      if c = ':' then some []
      else if c.isAlphanum || c = '+' || c = '-' || c = '.' then (schemeRest rest).map (c :: ·)
      else none

/-- The scheme a text begins with. -/
def schemeOf : List Char → Option (List Char)
  | [] => none
  | c :: rest => if c.isAlpha then (schemeRest rest).map (c :: ·) else none

/-! ## The authority -/

/-- The characters that end an authority. -/
def endsAuthority (c : Char) : Bool := c = '/' || c = '\\' || c = '?' || c = '#'

/-- What follows the last `@`. -/
def afterAt (text : List Char) : List Char := (text.reverse.takeWhile (· != '@')).reverse

/-- The host, and the text behind its colon, if there is one outside brackets. -/
def splitPort : Bool → List Char → List Char × Option (List Char)
  | _, [] => ([], none)
  | insideBrackets, c :: rest =>
      if c = ':' && !insideBrackets then ([], some rest)
      else
        let inside := if c = '[' then true else if c = ']' then false else insideBrackets
        let (host, port) := splitPort inside rest
        (c :: host, port)

/-- The number of a port. -/
def portNumber (digits : List Char) : ℕ :=
  digits.foldl (fun n c => 10 * n + (c.toNat - 48)) 0

/-- The port of a URL.  The outer `none` is a failure. -/
def readPort (scheme : Scheme) : Option (List Char) → Option (Option ℕ)
  | none => some none
  | some digits =>
      if !digits.all Char.isDigit then none
      else if digits = [] then some none
      else if 65535 < portNumber digits then none
      else if portNumber digits = scheme.defaultPort then some none
      else some (some (portNumber digits))

/-- The origin that an authority gives, if it gives one. -/
def readAuthority (parseHost : List Char → Option Host) (scheme : Scheme) (text : List Char) :
    Option (Origin Host) :=
  let (host, port) := splitPort false (afterAt (text.takeWhile fun c => !endsAuthority c))
  if host = [] then none
  else
    match parseHost host, readPort scheme port with
    | some host, some port => some ⟨scheme, host, port⟩
    | _, _ => none

/-! ## Resolving a text -/

/-- What a text means on a page.  Two slashes, of either kind, begin an authority; more of
them are ignored. -/
def resolve (parseHost : List Char → Option Host) (page : Origin Host) (text : List Char) :
    Resolved Host :=
  let input := prepare text
  match schemeOf input with
  | some scheme => .absolute scheme
  | none =>
      match input with
      | c :: d :: rest =>
          if isSlash c && isSlash d then
            match readAuthority parseHost page.scheme (rest.dropWhile isSlash) with
            | some origin => .url origin
            | none => .failure
          else .url page
      | _ => .url page

/-! ## Texts that begin with a slash -/

theorem trimEnd_cons {c : Char} (h : isC0OrSpace c = false) (rest : List Char) :
    trimEnd (c :: rest) = c :: trimEnd rest := by
  rw [trimEnd]
  cases trimEnd rest with
  | nil => simp [h]
  | cons d trimmed => rfl

theorem prepare_slash (rest : List Char) :
    prepare ('/' :: rest) = '/' :: (trimEnd rest).filter fun c => !isTabOrNewline c := by
  rw [prepare, List.dropWhile_cons_of_neg (by decide), trimEnd_cons (by decide),
    List.filter_cons_of_pos (by decide)]

/-- The first character that is read behind a slash. -/
theorem head?_filter_trimEnd {c : Char} (hslash : isSlash c = true) (rest : List Char) :
    ((trimEnd rest).filter fun c => !isTabOrNewline c).head? = some c ↔
      (rest.dropWhile isTabOrNewline).head? = some c := by
  induction rest with
  | nil => rfl
  | cons d rest ih =>
      by_cases hd : isTabOrNewline d = true
      · rw [List.dropWhile_cons_of_pos hd, ← ih, trimEnd]
        cases hrest : trimEnd rest with
        | nil =>
            have hspace : isC0OrSpace d = true := by
              rw [isTabOrNewline, Bool.or_eq_true, Bool.or_eq_true] at hd
              rcases hd with (hd | hd) | hd
              · rw [of_decide_eq_true hd]; decide
              · rw [of_decide_eq_true hd]; decide
              · rw [of_decide_eq_true hd]; decide
            dsimp only
            rw [if_pos hspace]
        | cons e trimmed =>
            dsimp only
            rw [List.filter_cons_of_neg (by simp [hd])]
      · rw [List.dropWhile_cons_of_neg hd, List.head?_cons]
        by_cases hspace : isC0OrSpace d = true
        · have hne : d ≠ c := by
            rintro rfl
            rw [isSlash, Bool.or_eq_true] at hslash
            rcases hslash with hc | hc
            · rw [of_decide_eq_true hc] at hspace
              exact absurd hspace (by decide)
            · rw [of_decide_eq_true hc] at hspace
              exact absurd hspace (by decide)
          rw [trimEnd]
          cases trimEnd rest with
          | nil =>
              dsimp only
              rw [if_pos hspace]
              simpa using hne
          | cons e trimmed =>
              dsimp only
              rw [List.filter_cons_of_pos (by simpa using hd), List.head?_cons]
        · rw [trimEnd_cons (by simpa using hspace), List.filter_cons_of_pos (by simpa using hd),
            List.head?_cons]

end WebUrl

end Grits
