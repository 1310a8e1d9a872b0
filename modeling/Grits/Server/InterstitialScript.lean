import Grits.Library.JsLiteral
import Grits.Library.ScriptData
import Grits.Server.Interstitial

/-!
# The target in the script of the interstitial page

`writeInterstitialHTML` of `internal/gritsd/module_serviceworker.go` writes its target with
`%q`, as a literal of Go, into a script.  A browser looks for the end of the script element
first, and then reads the literal as one of JavaScript.

Of the page only the script up to the end of that statement is modelled.
-/

namespace Grits

namespace Interstitial

open GoQuote Utf8

variable {isPrint : Char → Bool}

/-! ## The model -/

/-- The script up to the literal. -/
def scriptBefore : List Char := "\n(function() \x7b\n  var target = ".toList

/-- The end of the statement. -/
def scriptAfter : List Char := ";\n".toList

/-- `writeInterstitialHTML`: the script up to the end of the statement with the target. -/
def writeInterstitialHTML (isPrint : Char → Bool) (target : Bytes) : List Char :=
  scriptBefore ++ quote isPrint target ++ scriptAfter

/-- The literal denotes the target and ends where it should, and no end tag in it closes the
script element. -/
structure EmbedsSafely (isPrint : Char → Bool) (target : Bytes) : Prop where
  literal : JsLiteral.readString (quote isPrint target ++ scriptAfter) =
    some (Utf16.encode (decode target), scriptAfter)
  element : ScriptData.run .script (writeInterstitialHTML isPrint target) ≠ .ended

/-! ## The three grammars -/

/-- A rune as the HTML tokenizer sees it: what is escaped begins no tag. -/
def seen (isPrint : Char → Bool) : Rune → Char
  | .char c => if escaped isPrint c then '\\' else c
  | .invalid _ => '\\'

/-- The target survives all three grammars. -/
structure Embeddable (isPrint : Char → Bool) (target : Bytes) : Prop where
  /-- It is UTF-8. -/
  valid : Valid target
  /-- It has no bell, which Go writes as `\a`. -/
  noBell : '\x07' ∉ decode target
  /-- It has no character that Go writes as `\U`. -/
  noLarge : ∀ c ∈ decode target, 0x10000 ≤ c.toNat → isPrint c = true
  /-- It has no end tag of a script; the characters that Go escapes are part of none. -/
  noEndTag : ScriptData.run .script ((runes target).map (seen isPrint)) ≠ .ended

theorem mem_decode {target : Bytes} {c : Char} (h : .char c ∈ runes target) :
    c ∈ decode target := by
  rw [decode_eq]
  exact List.mem_map.mpr ⟨.char c, h, rfl⟩

theorem agrees_iff {target : Bytes} :
    (∀ rune ∈ runes target, JsLiteral.Agrees isPrint rune) ↔ Valid target ∧
      '\x07' ∉ decode target ∧ ∀ c ∈ decode target, 0x10000 ≤ c.toNat → isPrint c = true := by
  constructor
  · intro h
    have hvalid : Valid target := by
      intro rune hrune
      cases rune with
      | char c => exact ⟨c, rfl⟩
      | invalid byte => exact absurd (h _ hrune) id
    have hdecode : ∀ c ∈ decode target, c ≠ '\x07' ∧ (0x10000 ≤ c.toNat → isPrint c = true) := by
      intro c hc
      rw [decode_eq] at hc
      obtain ⟨rune, hrune, rfl⟩ := List.mem_map.mp hc
      obtain ⟨c, rfl⟩ := hvalid rune hrune
      exact h _ hrune
    exact ⟨hvalid, fun hbell => (hdecode _ hbell).1 rfl, fun c hc => (hdecode c hc).2⟩
  · rintro ⟨hvalid, hbell, hlarge⟩ rune hrune
    obtain ⟨c, rfl⟩ := hvalid rune hrune
    have hc := mem_decode hrune
    exact ⟨fun heq => hbell (heq ▸ hc), hlarge c hc⟩

theorem hexDigit_ne {d : ℕ} (h : d < 16) : Json.hexDigit d ≠ '<' ∧ Json.hexDigit d ≠ '-' := by
  have hall : ∀ d < 16, Json.hexDigit d ≠ '<' ∧ Json.hexDigit d ≠ '-' := by decide
  exact hall d h

/-- An escape is a backslash and characters that begin no tag and no comment. -/
theorem appendEscapedRune_escaped {c : Char} (h : escaped isPrint c = true) :
    ∃ tail, appendEscapedRune isPrint c = '\\' :: tail ∧ ∀ d ∈ tail, d ≠ '<' ∧ d ≠ '-' := by
  rw [appendEscapedRune]
  split
  next hquote =>
    rw [Bool.or_eq_true, decide_eq_true_iff, decide_eq_true_iff] at hquote
    refine ⟨[c], rfl, ?_⟩
    intro d hd
    rw [List.mem_singleton.mp hd]
    rcases hquote with rfl | rfl
    · decide
    · decide
  next hquote =>
  split
  next hprint =>
    rw [escaped, Bool.eq_false_iff.mpr hquote, hprint] at h
    cases h
  next =>
  cases hletter : escapes.lookup c with
  | some letter =>
      refine ⟨[letter], rfl, ?_⟩
      intro d hd
      rw [List.mem_singleton.mp hd]
      obtain ⟨before, after, heq, -⟩ := List.lookup_eq_some_iff.mp hletter
      have hall : ∀ entry ∈ escapes, entry.2 ≠ '<' ∧ entry.2 ≠ '-' := by decide
      exact hall (c, letter) (heq ▸ List.mem_append_right _ List.mem_cons_self)
  | none =>
      dsimp only
      split
      next hcontrol =>
        rw [Bool.or_eq_true, decide_eq_true_iff, decide_eq_true_iff] at hcontrol
        refine ⟨_, rfl, ?_⟩
        rw [List.forall_mem_cons]
        refine ⟨by decide, ?_⟩
        intro d hd
        obtain ⟨k, hk, rfl⟩ := JsLiteral.mem_hex2 (by omega) d hd
        exact hexDigit_ne hk
      next =>
      split
      next hsmall =>
        refine ⟨_, rfl, ?_⟩
        rw [List.forall_mem_cons]
        refine ⟨by decide, ?_⟩
        intro d hd
        obtain ⟨k, hk, rfl⟩ := JsLiteral.mem_hex4 hsmall d hd
        exact hexDigit_ne hk
      next =>
        refine ⟨_, rfl, ?_⟩
        rw [List.forall_mem_cons]
        refine ⟨by decide, ?_⟩
        intro d hd
        obtain ⟨k, hk, rfl⟩ := JsLiteral.mem_hex8 c d hd
        exact hexDigit_ne hk

theorem appendEscapedRune_printed {c : Char} (h : escaped isPrint c = false) :
    appendEscapedRune isPrint c = [c] := by
  rw [escaped, Bool.or_eq_false_iff, Bool.not_eq_false'] at h
  rw [appendEscapedRune, if_neg (by rw [h.1]; decide), if_pos h.2]

/-- What is escaped is for the tokenizer no more than its backslash. -/
theorem run_escape {tail : List Char} (h : ∀ c ∈ tail, c ≠ '<' ∧ c ≠ '-') (q : ScriptData.State) :
    ScriptData.run q ('\\' :: tail) = ScriptData.step q '\\' := by
  rw [ScriptData.run_cons, ScriptData.step_backslash, ScriptData.run_base h]

theorem run_quoteRune (rune : Rune) (q : ScriptData.State) :
    ScriptData.run q (quoteRune isPrint rune) = ScriptData.step q (seen isPrint rune) := by
  cases rune with
  | invalid byte =>
      apply run_escape
      rw [List.forall_mem_cons]
      refine ⟨by decide, ?_⟩
      intro d hd
      obtain ⟨k, hk, rfl⟩ := JsLiteral.mem_hex2 byte.toNat_lt d hd
      exact hexDigit_ne hk
  | char c =>
      rw [quoteRune, seen]
      by_cases hescaped : escaped isPrint c = true
      · obtain ⟨tail, htail, hplain⟩ := appendEscapedRune_escaped hescaped
        rw [htail, if_pos hescaped, run_escape hplain]
      · rw [if_neg hescaped, appendEscapedRune_printed (Bool.eq_false_iff.mpr hescaped)]
        rfl

theorem run_body (runes : List Rune) (q : ScriptData.State) :
    ScriptData.run q (runes.flatMap (quoteRune isPrint)) =
      ScriptData.run q (runes.map (seen isPrint)) := by
  induction runes generalizing q with
  | nil => rfl
  | cons rune runes ih =>
      rw [List.flatMap_cons, ScriptData.run_append, run_quoteRune, ih]
      rfl

/-- The end tag of the script is found in the target or nowhere. -/
theorem run_writeInterstitialHTML (target : Bytes) :
    ScriptData.run .script (writeInterstitialHTML isPrint target) = .ended ↔
      ScriptData.run .script ((runes target).map (seen isPrint)) = .ended := by
  have hbefore : ScriptData.run .script scriptBefore = .script := by decide
  have hafter : ∀ q : ScriptData.State, ScriptData.run q.base scriptAfter = q.base := by
    intro q
    apply ScriptData.run_base
    simp [scriptAfter]
  rw [writeInterstitialHTML, quote, ScriptData.run_append, ScriptData.run_append, hbefore,
    List.cons_append, ScriptData.run_cons, ScriptData.step_quote, ScriptData.run_append, run_body,
    ScriptData.run_cons, ScriptData.step_quote, ScriptData.run_nil, hafter,
    ScriptData.base_eq_ended]
  rfl

/-- The page embeds a target safely if and only if the target is UTF-8, has no bell, no character
that Go writes as `\U`, and no end tag of a script. -/
theorem embedsSafely_iff (hascii : AsciiPrint isPrint) (target : Bytes) :
    EmbedsSafely isPrint target ↔ Embeddable isPrint target := by
  have hliteral := JsLiteral.readString_quote_iff hascii target scriptAfter
  rw [agrees_iff] at hliteral
  have helement := not_congr (@run_writeInterstitialHTML isPrint target)
  constructor
  · intro h
    obtain ⟨hvalid, hbell, hlarge⟩ := hliteral.mp h.literal
    exact ⟨hvalid, hbell, hlarge, helement.mp h.element⟩
  · intro h
    exact ⟨hliteral.mpr ⟨h.valid, h.noBell, h.noLarge⟩, helement.mpr h.noEndTag⟩

/-- `strconv.IsPrint` on ASCII; nothing else is printable. -/
def asciiPrint (c : Char) : Bool := decide (0x20 ≤ c.toNat ∧ c.toNat < 0x7f)

theorem asciiPrint_ascii : AsciiPrint asciiPrint := fun _ _ => rfl

/-- A target with a backslash, a quote, a tag of another element and a newline. -/
def harmless : List Char := "/a\\\x22<b>\n<\u005cscript>".toList

theorem embedsSafely_harmless : EmbedsSafely asciiPrint (Utf8.encode harmless) := by
  refine (embedsSafely_iff asciiPrint_ascii _).mpr ⟨?_, ?_, ?_, ?_⟩
  · intro rune hrune
    rw [runes_encode] at hrune
    obtain ⟨c, -, rfl⟩ := List.mem_map.mp hrune
    exact ⟨c, rfl⟩
  · rw [Utf8.decode_encode]
    decide
  · rw [Utf8.decode_encode]
    intro c hc hlarge
    have hsmall : (harmless.all fun c => c.toNat < 0x10000) = true := by decide
    exact absurd (of_decide_eq_true (List.all_eq_true.mp hsmall c hc)) (not_lt.mpr hlarge)
  · rw [runes_encode]
    decide

/-- The target `/</script>`. -/
def endTag : Bytes := Utf8.encode "/</script>".toList

/-- The target passes the check and closes the script element. -/
theorem endTag_not_embedded :
    sanitizeInterstitialTarget endTag = endTag ∧ ¬ EmbedsSafely asciiPrint endTag := by
  constructor
  · decide
  · intro h
    apply h.element
    rw [writeInterstitialHTML, quote, endTag, runes_encode]
    decide

end Interstitial

end Grits
