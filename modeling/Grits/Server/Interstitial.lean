import Grits.Library.Runes
import Grits.Library.WebUrl
import Grits.NameStore.Encoding

/-!
# The target of the interstitial page

`sanitizeInterstitialTarget` of `internal/gritsd/module_serviceworker.go`.  The page does
`window.location.replace(target)`, where the browser reads the target as a URL relative to
its own.
-/

namespace Grits

namespace Interstitial

open WebUrl

variable {Host : Type}

/-! ## The model -/

/-- `"/"` -/
def slash : UInt8 := 0x2f

/-- `sanitizeInterstitialTarget` -/
def sanitizeInterstitialTarget (target : Bytes) : Bytes :=
  if target = [] then [slash]
  else if [slash, slash] <+: target ∨ [0x3a, slash, slash] <:+: target then [slash]
  else if ¬ [slash] <+: target then slash :: target
  else target

/-- Where the page goes. -/
def redirect (parseHost : List Char → Option Host) (page : Origin Host) (target : Bytes) :
    Resolved Host :=
  resolve parseHost page (Utf8.decode (sanitizeInterstitialTarget target))

/-- The page goes nowhere else than to its own origin. -/
def StaysOnSite (parseHost : List Char → Option Host) (target : Bytes) : Prop :=
  ∀ page : Origin Host, redirect parseHost page target = .url page ∨
    redirect parseHost page target = .failure

/-! ## When the page stays -/

/-- The target is replaced by `"/"`. -/
def Rejected (target : Bytes) : Prop :=
  target = [] ∨ [slash, slash] <+: target ∨ [0x3a, slash, slash] <:+: target

/-- What follows the leading slash, which may be missing. -/
def afterSlash (target : Bytes) : Bytes :=
  if [slash] <+: target then target.tail else target

/-- The first character that is not a tab or a newline is a slash or a backslash. -/
def BeginsWithSlash (text : List Char) : Prop :=
  ∃ c, (text.dropWhile isTabOrNewline).head? = some c ∧ isSlash c = true

/-- The text that the browser takes for an authority, behind all the slashes. -/
def authorityText (text : List Char) : List Char :=
  ((trimEnd text).filter fun c => !isTabOrNewline c).dropWhile isSlash

/-- Behind its leading slash the target has no second one, or there is no host after it. -/
def Harmless (parseHost : List Char → Option Host) (target : Bytes) : Prop :=
  Rejected target ∨
    let text := Utf8.decode (afterSlash target)
    ¬ BeginsWithSlash text ∨ ∀ scheme, readAuthority parseHost scheme (authorityText text) = none

theorem sanitize_rejected {target : Bytes} (h : Rejected target) :
    sanitizeInterstitialTarget target = [slash] := by
  rw [sanitizeInterstitialTarget]
  split
  next => rfl
  next hne => rw [if_pos (h.resolve_left hne)]

theorem sanitize_accepted {target : Bytes} (h : ¬ Rejected target) :
    sanitizeInterstitialTarget target = slash :: afterSlash target := by
  have hne : target ≠ [] := fun hnil => h (.inl hnil)
  rw [sanitizeInterstitialTarget, if_neg hne, if_neg fun hbad => h (.inr hbad), afterSlash]
  by_cases hslash : [slash] <+: target
  · obtain ⟨rest, rfl⟩ := hslash
    rw [if_neg (not_not.mpr (List.prefix_append _ _)), if_pos (List.prefix_append _ _)]
    rfl
  · rw [if_pos hslash, if_neg hslash]

theorem decode_slash (rest : Bytes) : Utf8.decode (slash :: rest) = '/' :: Utf8.decode rest :=
  Utf8.decode_cons_ascii (by decide) rest

/-- What a text with a leading slash means. -/
theorem resolve_slash (parseHost : List Char → Option Host) (page : Origin Host)
    (text : List Char) :
    (¬ BeginsWithSlash text → resolve parseHost page ('/' :: text) = .url page) ∧
    (BeginsWithSlash text → resolve parseHost page ('/' :: text) =
      match readAuthority parseHost page.scheme (authorityText text) with
      | some origin => .url origin
      | none => .failure) := by
  have hscheme : ∀ rest, schemeOf ('/' :: rest) = none := by
    intro rest
    rw [schemeOf, if_neg (by decide)]
  rw [resolve, prepare_slash, hscheme]
  generalize hread : (trimEnd text).filter (fun c => !isTabOrNewline c) = read
  have hhead : ∀ c, isSlash c = true →
      (read.head? = some c ↔ (text.dropWhile isTabOrNewline).head? = some c) := by
    intro c hc
    rw [← hread]
    exact head?_filter_trimEnd hc text
  constructor
  · intro hnot
    cases read with
    | nil => rfl
    | cons d rest =>
        have hd : isSlash d = false := by
          by_contra hslash
          rw [Bool.not_eq_false] at hslash
          exact hnot ⟨d, (hhead d hslash).mp rfl, hslash⟩
        dsimp only
        rw [hd, Bool.and_false, if_neg Bool.false_ne_true]
  · rintro ⟨c, hc, hslash⟩
    have hfirst := (hhead c hslash).mpr hc
    cases read with
    | nil => cases hfirst
    | cons d rest =>
        obtain rfl : d = c := Option.some.inj hfirst
        dsimp only
        rewrite [hslash, if_pos (by decide), authorityText, hread,
          List.dropWhile_cons_of_pos hslash]
        cases readAuthority parseHost page.scheme (rest.dropWhile isSlash) with
        | none => rfl
        | some origin => rfl

/-- Another page with the same scheme, of another origin. -/
theorem exists_other_origin (origin : Origin Host) :
    ∃ page : Origin Host, page.scheme = origin.scheme ∧ page ≠ origin := by
  refine ⟨{ origin with port := some ((origin.port.getD 0) + 1) }, rfl, ?_⟩
  intro heq
  have hport : some (origin.port.getD 0 + 1) = origin.port := congrArg (·.port) heq
  rw [← hport, Option.getD_some] at hport
  have := Option.some.inj hport
  omega

theorem readAuthority_scheme {parseHost : List Char → Option Host} {scheme : Scheme}
    {text : List Char} {origin : Origin Host}
    (h : readAuthority parseHost scheme text = some origin) : origin.scheme = scheme := by
  rw [readAuthority] at h
  dsimp only at h
  split at h
  next => cases h
  next =>
    split at h
    next =>
      cases h
      rfl
    next => cases h

/-- The interstitial page stays on its site if and only if its target is harmless. -/
theorem staysOnSite_iff (parseHost : List Char → Option Host) (target : Bytes) :
    StaysOnSite parseHost target ↔ Harmless parseHost target := by
  by_cases hrejected : Rejected target
  · refine iff_of_true ?_ (.inl hrejected)
    intro page
    left
    rw [redirect, sanitize_rejected hrejected, decode_slash]
    apply (resolve_slash parseHost page _).1
    rintro ⟨c, hc, -⟩
    rw [Utf8.decode] at hc
    cases hc
  · have hredirect : ∀ page : Origin Host, redirect parseHost page target =
        resolve parseHost page ('/' :: Utf8.decode (afterSlash target)) := by
      intro page
      rw [redirect, sanitize_accepted hrejected, decode_slash]
    rw [Harmless, or_iff_right hrejected]
    constructor
    · intro hstays
      by_contra hnot
      rw [not_or, not_not, not_forall] at hnot
      obtain ⟨hslash, scheme, hauthority⟩ := hnot
      obtain ⟨origin, horigin⟩ := Option.ne_none_iff_exists'.mp hauthority
      obtain ⟨page, hscheme, hne⟩ := exists_other_origin origin
      rw [readAuthority_scheme horigin] at hscheme
      have hgoes := (resolve_slash parseHost page _).2 hslash
      rw [hscheme, horigin] at hgoes
      rcases hstays page with hpage | hfailure
      · rw [hredirect, hgoes] at hpage
        exact hne (Resolved.url.inj hpage).symm
      · rw [hredirect, hgoes] at hfailure
        cases hfailure
    · intro hharmless page
      rw [hredirect]
      by_cases hslash : BeginsWithSlash (Utf8.decode (afterSlash target))
      · right
        have hnone := (hharmless.resolve_left (not_not.mpr hslash)) page.scheme
        rw [(resolve_slash parseHost page _).2 hslash, hnone]
      · left
        exact (resolve_slash parseHost page _).1 hslash

/-- The target `/\evil.com`. -/
def offSite : Bytes := Utf8.encode "/\\evil.com".toList

/-- The target leads from the page of one host to another one. -/
theorem redirect_offSite :
    redirect some ⟨.https, "grits.example".toList, none⟩ offSite =
      .url ⟨.https, "evil.com".toList, none⟩ ∧ ¬ StaysOnSite some offSite := by
  have hredirect : redirect some ⟨.https, "grits.example".toList, none⟩ offSite =
      .url ⟨.https, "evil.com".toList, none⟩ := by
    have hsame : sanitizeInterstitialTarget offSite = offSite := by decide
    rw [redirect, hsame, offSite, Utf8.decode_encode]
    rfl
  refine ⟨hredirect, ?_⟩
  intro hstays
  rcases hstays ⟨.https, "grits.example".toList, none⟩ with hpage | hfailure
  · rw [hredirect] at hpage
    have horigin := Resolved.url.inj hpage
    exact absurd (congrArg (·.host) horigin) (by decide)
  · rw [hredirect] at hfailure
    cases hfailure

end Interstitial

end Grits
