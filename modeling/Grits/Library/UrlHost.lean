import Mathlib

/-!
# The host of a URL

The part of a URL between its scheme and its path is the authority
`userinfo@host:port`.  The userinfo ends at the last `@`, the port is a number
after the last colon, and an IPv6 address stands in brackets.  In a name,
percent-encoding is for bytes that are not ASCII; hosts that differ in the case
of letters are the same host.  A name with a colon in it is none that can be
looked up.
-/

namespace Grits

namespace Url

/-! ## Splitting -/

/-- What is before and after the last `sep`. -/
def cutLast (sep : Char) : List Char → Option (List Char × List Char)
  | [] => none
  | c :: rest =>
      match cutLast sep rest with
      | some (before, after) => some (c :: before, after)
      | none => if c = sep then some ([], rest) else none

theorem cutLast_eq_none {sep : Char} {text : List Char} (h : sep ∉ text) :
    cutLast sep text = none := by
  induction text with
  | nil => rfl
  | cons c rest ih =>
      rw [List.mem_cons, not_or] at h
      rw [cutLast, ih h.2]
      exact if_neg (Ne.symm h.1)

theorem cutLast_append {sep : Char} {before after : List Char} (h : sep ∉ after) :
    cutLast sep (before ++ sep :: after) = some (before, after) := by
  induction before with
  | nil =>
      rw [List.nil_append, cutLast, cutLast_eq_none h]
      exact if_pos rfl
  | cons c rest ih => rw [List.cons_append, cutLast, ih]

/-! ## The parts of a URL -/

/-- A letter, a digit, or one of `+-.` -/
def isSchemeChar (c : Char) : Bool := c.isAlphanum || c = '+' || c = '-' || c = '.'

/-- The scheme of a URL, and what is after its colon. -/
def getScheme (url : List Char) : Option (List Char × List Char) :=
  match url.takeWhile isSchemeChar, url.dropWhile isSchemeChar with
  | first :: scheme, ':' :: rest => if first.isAlpha then some (first :: scheme, rest) else none
  | _, _ => none

/-- The authority ends where the path, the query or the fragment begins. -/
def authority (rest : List Char) : List Char :=
  rest.takeWhile fun c => c ≠ '/' && c ≠ '?' && c ≠ '#'

/-- The authority without the userinfo. -/
def hostPort (authority : List Char) : List Char :=
  match cutLast '@' authority with
  | some (_, host) => host
  | none => authority

/-! ## Hosts -/

/-- The ASCII characters that stand for themselves in a host. -/
def isHostChar (c : Char) : Bool :=
  c.isAlphanum || "-_.~!$&'()*+,;=:[]<>\"".toList.contains c

/-- The value of a hexadecimal digit. -/
def unhex (c : Char) : Option ℕ :=
  if c.isDigit then some (c.toNat - '0'.toNat)
  else if 'a' ≤ c ∧ c ≤ 'f' then some (c.toNat - 'a'.toNat + 10)
  else if 'A' ≤ c ∧ c ≤ 'F' then some (c.toNat - 'A'.toNat + 10)
  else none

/-- The bytes of a host, if it is well formed. -/
def unescape : List Char → Option (List UInt8)
  | [] => some []
  | ['%'] => none
  | ['%', _] => none
  | '%' :: high :: low :: rest => do
      let high ← unhex high
      let low ← unhex low
      if 8 ≤ high ∨ (high, low) = (2, 5) then
        let bytes ← unescape rest
        pure (UInt8.ofNat (16 * high + low) :: bytes)
      else none
  | c :: rest => do
      if c.toNat < 0x80 ∧ ¬ isHostChar c then none
      else
        let bytes ← unescape rest
        pure (String.utf8EncodeChar c ++ bytes)

def isPort (port : List Char) : Bool := port.all Char.isDigit

/-- The name of a host without its port. -/
def hostName (host : List Char) : Option (List Char) :=
  match host with
  | '[' :: rest =>
      match cutLast ']' rest with
      | some (address, []) => some address
      | some (address, ':' :: port) => if isPort port then some address else none
      | _ => none
  | _ =>
      match cutLast ':' host with
      | none => some host
      | some (name, port) => if isPort port && !name.contains ':' then some name else none

/-- A byte with an upper case letter made lower case. -/
def toLower (byte : UInt8) : UInt8 :=
  if 0x41 ≤ byte ∧ byte ≤ 0x5A then byte + 0x20 else byte

/-- The host that a name in a URL stands for. -/
def lookup (name : List Char) : Option (List UInt8) :=
  match unescape name with
  | none | some [] => none
  | some bytes => some (bytes.map toLower)

/-- The host in a URL, of which `rest` is what is after `scheme://`. -/
def hostAfterScheme (rest : List Char) : Option (List UInt8) :=
  (hostName (hostPort (authority rest))).bind lookup

example : hostAfterScheme "user:pw@Example.com:8080/a:b@c".toList =
    some "example.com".toUTF8.toList := by decide +kernel

/-! ## Plain names -/

/-- A name that stands for itself: no port, no brackets and nothing escaped. -/
structure IsName (name : List Char) : Prop where
  ne_nil : name ≠ []
  chars : ∀ c ∈ name, (c.toNat < 0x80 → isHostChar c = true) ∧ c ≠ ':' ∧ c ≠ '[' ∧ c ≠ ']'

instance (name : List Char) : Decidable (IsName name) :=
  decidable_of_iff (name ≠ [] ∧
      ∀ c ∈ name, (c.toNat < 0x80 → isHostChar c = true) ∧ c ≠ ':' ∧ c ≠ '[' ∧ c ≠ ']')
    ⟨fun h => ⟨h.1, h.2⟩, fun h => ⟨h.ne_nil, h.chars⟩⟩

variable {name : List Char}

/-- What separates the parts of a URL is not in a name. -/
theorem IsName.notMem (h : IsName name) {c : Char} (hascii : c.toNat < 0x80)
    (hnot : isHostChar c = false) : c ∉ name := by
  intro hmem
  have hchar := (h.chars c hmem).1 hascii
  rw [hnot] at hchar
  cases hchar

theorem IsName.colon_notMem (h : IsName name) : ':' ∉ name :=
  fun hmem => (h.chars ':' hmem).2.1 rfl

theorem IsName.at_notMem (h : IsName name) : '@' ∉ name := h.notMem (by decide) (by decide)

/-- The bytes of a name are those of its characters. -/
theorem unescape_of_chars (h : ∀ c ∈ name, c.toNat < 0x80 → isHostChar c = true) :
    unescape name = some (name.flatMap String.utf8EncodeChar) := by
  induction name with
  | nil => rfl
  | cons c rest ih =>
      rw [List.forall_mem_cons] at h
      have hpercent : c ≠ '%' := by
        rintro rfl
        exact absurd (h.1 (by decide)) (by decide)
      have hchar : ¬ (c.toNat < 0x80 ∧ ¬ isHostChar c = true) := fun hbad => hbad.2 (h.1 hbad.1)
      rw [unescape, ih h.2]
      · simp only [if_neg hchar]
        rfl
      all_goals
        intros
        simp_all

theorem IsName.lookup_eq (h : IsName name) :
    lookup name = some ((name.flatMap String.utf8EncodeChar).map toLower) := by
  rw [lookup, unescape_of_chars fun c hc => (h.chars c hc).1]
  obtain ⟨c, rest, rfl⟩ := List.exists_cons_of_ne_nil h.ne_nil
  cases hbytes : (c :: rest).flatMap String.utf8EncodeChar with
  | nil =>
      rw [List.flatMap_cons, List.append_eq_nil_iff] at hbytes
      exact absurd hbytes.1 String.utf8EncodeChar_ne_nil
  | cons => rfl

/-- A port, or none. -/
def IsPortSuffix (port : List Char) : Prop :=
  port = [] ∨ ∃ digits, digits ≠ [] ∧ isPort digits = true ∧ port = ':' :: digits

/-- What may follow an authority. -/
def EndsAuthority (path : List Char) : Prop :=
  ∀ c ∈ path.head?, c = '/' ∨ c = '?' ∨ c = '#'

theorem IsName.hostName_eq (h : IsName name) {port : List Char} (hport : IsPortSuffix port) :
    hostName (name ++ port) = some name := by
  unfold hostName
  split
  next rest hbracket =>
    obtain ⟨c, rest', rfl⟩ := List.exists_cons_of_ne_nil h.ne_nil
    rw [List.cons_append, List.cons.injEq] at hbracket
    exact absurd hbracket.1 (h.chars c List.mem_cons_self).2.2.1
  next =>
    rcases hport with rfl | ⟨digits, -, hdigits, rfl⟩
    · rw [List.append_nil, cutLast_eq_none h.colon_notMem]
    · have hcolon : ':' ∉ digits := by
        intro hmem
        rw [isPort, List.all_eq_true] at hdigits
        exact absurd (hdigits ':' hmem) (by decide)
      have hname : name.contains ':' = false := by
        rw [List.contains_eq_mem, decide_eq_false_iff_not]
        exact h.colon_notMem
      rw [cutLast_append hcolon]
      simp only [hdigits, hname]
      rfl

theorem authority_append {text path : List Char}
    (htext : ∀ c ∈ text, c ≠ '/' ∧ c ≠ '?' ∧ c ≠ '#') (hpath : EndsAuthority path) :
    authority (text ++ path) = text := by
  unfold authority
  rw [List.takeWhile_append_of_pos fun c hc => by simp [htext c hc]]
  cases path with
  | nil => rw [List.takeWhile_nil, List.append_nil]
  | cons c rest =>
      have hc : c = '/' ∨ c = '?' ∨ c = '#' := hpath c rfl
      rw [List.takeWhile_cons_of_neg, List.append_nil]
      rcases hc with rfl | rfl | rfl <;> decide

/-- The characters that separate the parts of a URL are in no name with a port. -/
theorem IsName.notMem_append (h : IsName name) {port : List Char} (hport : IsPortSuffix port)
    {c : Char} (hascii : c.toNat < 0x80) (hnot : isHostChar c = false)
    (hdigit : c.isDigit = false) : c ∉ name ++ port := by
  have hcolon : c ≠ ':' := by
    rintro rfl
    exact absurd hnot (by decide)
  intro hmem
  rcases List.mem_append.mp hmem with hname | hmem
  · exact h.notMem hascii hnot hname
  · rcases hport with rfl | ⟨digits, -, hdigits, rfl⟩
    · cases hmem
    · rcases List.mem_cons.mp hmem with heq | hmem
      · exact hcolon heq
      · rw [isPort, List.all_eq_true] at hdigits
        rw [hdigits c hmem] at hdigit
        cases hdigit

theorem IsName.separators (h : IsName name) {port : List Char} (hport : IsPortSuffix port) :
    ∀ c ∈ name ++ port, c ≠ '/' ∧ c ≠ '?' ∧ c ≠ '#' := by
  intro c hc
  refine ⟨?_, ?_, ?_⟩ <;>
    · rintro rfl
      exact h.notMem_append hport (by decide) (by decide) (by decide) hc

/-- A name with a port and a path, behind a userinfo or not, is the host. -/
theorem IsName.hostAfterScheme_userinfo (h : IsName name) {userinfo port path : List Char}
    (huserinfo : ∀ c ∈ userinfo, c ≠ '/' ∧ c ≠ '?' ∧ c ≠ '#') (hport : IsPortSuffix port)
    (hpath : EndsAuthority path) :
    hostAfterScheme (userinfo ++ '@' :: (name ++ port ++ path)) = lookup name := by
  have hauthority : authority (userinfo ++ '@' :: (name ++ port ++ path)) =
      userinfo ++ '@' :: (name ++ port) := by
    rw [← List.cons_append, ← List.append_assoc]
    apply authority_append _ hpath
    intro c hc
    rcases List.mem_append.mp hc with hc | hc
    · exact huserinfo c hc
    · rcases List.mem_cons.mp hc with rfl | hc
      · decide
      · exact h.separators hport c hc
  have hhost : hostPort (userinfo ++ '@' :: (name ++ port)) = name ++ port := by
    rw [hostPort, cutLast_append (h.notMem_append hport (by decide) (by decide) (by decide))]
  rw [hostAfterScheme, hauthority, hhost, h.hostName_eq hport, Option.bind_some]

theorem IsName.hostAfterScheme_eq (h : IsName name) {port path : List Char}
    (hport : IsPortSuffix port) (hpath : EndsAuthority path) :
    hostAfterScheme (name ++ port ++ path) = lookup name := by
  have hauthority : authority (name ++ port ++ path) = name ++ port :=
    authority_append (h.separators hport) hpath
  have hhost : hostPort (name ++ port) = name ++ port := by
    rw [hostPort, cutLast_eq_none (h.notMem_append hport (by decide) (by decide) (by decide))]
  rw [hostAfterScheme, hauthority, hhost, h.hostName_eq hport, Option.bind_some]

end Url

end Grits
