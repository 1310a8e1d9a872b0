import Mathlib.Data.List.Basic
import Mathlib.Tactic

/-!
# The text of a script element

The states of the tokenizer of the HTML standard that read the text of a script element, up
to the end tag that closes it.  A state that "reconsumes" a character does what the state
behind it does with that character.
-/

namespace Grits

namespace ScriptData

/-- The states, with the temporary buffer or the tag name in lower case. -/
inductive State where
  | script
  | lessThan
  | endTagOpen
  | endTagName (name : List Char)
  | escapeStart
  | escapeStartDash
  | escaped
  | escapedDash
  | escapedDashDash
  | escapedLessThan
  | escapedEndTagOpen
  | escapedEndTagName (name : List Char)
  | doubleEscapeStart (name : List Char)
  | doubleEscaped
  | doubleEscapedDash
  | doubleEscapedDashDash
  | doubleEscapedLessThan
  | doubleEscapeEnd (name : List Char)
  /-- The end tag of the script has begun. -/
  | ended
  deriving DecidableEq

/-- The characters behind a tag name. -/
def endsName (c : Char) : Bool :=
  c = '\t' || c = '\n' || c = '\x0c' || c = ' ' || c = '/' || c = '>'

/-- The name of the element. -/
def isScript (name : List Char) : Bool := name == "script".toList

/-- Script data state -/
def inScript (c : Char) : State := if c = '<' then .lessThan else .script

/-- Script data escaped state -/
def inEscaped (c : Char) : State :=
  if c = '-' then .escapedDash else if c = '<' then .escapedLessThan else .escaped

/-- Script data double escaped state -/
def inDoubleEscaped (c : Char) : State :=
  if c = '-' then .doubleEscapedDash
  else if c = '<' then .doubleEscapedLessThan
  else .doubleEscaped

/-- The state after a character. -/
def step : State → Char → State
  | .script, c => inScript c
  | .lessThan, c =>
      if c = '/' then .endTagOpen else if c = '!' then .escapeStart else inScript c
  | .endTagOpen, c => if c.isAlpha then .endTagName [c.toLower] else inScript c
  | .endTagName name, c =>
      if endsName c && isScript name then .ended
      else if c.isAlpha then .endTagName (name ++ [c.toLower])
      else inScript c
  | .escapeStart, c => if c = '-' then .escapeStartDash else inScript c
  | .escapeStartDash, c => if c = '-' then .escapedDashDash else inScript c
  | .escaped, c => inEscaped c
  | .escapedDash, c => if c = '-' then .escapedDashDash else inEscaped c
  | .escapedDashDash, c =>
      if c = '-' then .escapedDashDash else if c = '>' then .script else inEscaped c
  | .escapedLessThan, c =>
      if c = '/' then .escapedEndTagOpen
      else if c.isAlpha then .doubleEscapeStart [c.toLower]
      else inEscaped c
  | .escapedEndTagOpen, c => if c.isAlpha then .escapedEndTagName [c.toLower] else inEscaped c
  | .escapedEndTagName name, c =>
      if endsName c && isScript name then .ended
      else if c.isAlpha then .escapedEndTagName (name ++ [c.toLower])
      else inEscaped c
  | .doubleEscapeStart name, c =>
      if endsName c then (if isScript name then .doubleEscaped else .escaped)
      else if c.isAlpha then .doubleEscapeStart (name ++ [c.toLower])
      else inEscaped c
  | .doubleEscaped, c => inDoubleEscaped c
  | .doubleEscapedDash, c => if c = '-' then .doubleEscapedDashDash else inDoubleEscaped c
  | .doubleEscapedDashDash, c =>
      if c = '-' then .doubleEscapedDashDash else if c = '>' then .script else inDoubleEscaped c
  | .doubleEscapedLessThan, c => if c = '/' then .doubleEscapeEnd [] else inDoubleEscaped c
  | .doubleEscapeEnd name, c =>
      if endsName c then (if isScript name then .escaped else .doubleEscaped)
      else if c.isAlpha then .doubleEscapeEnd (name ++ [c.toLower])
      else inDoubleEscaped c
  | .ended, _ => .ended

/-- The state after a text. -/
def run (q : State) (text : List Char) : State := text.foldl step q

@[simp] theorem run_nil (q : State) : run q [] = q := rfl

@[simp] theorem run_cons (q : State) (c : Char) (text : List Char) :
    run q (c :: text) = run (step q c) text := rfl

theorem run_append (q : State) (text rest : List Char) :
    run q (text ++ rest) = run (run q text) rest := List.foldl_append

/-! ## Characters that begin nothing -/

/-- The state after a character that is part of no tag and no comment. -/
def State.base : State → State
  | .script | .lessThan | .endTagOpen | .endTagName _ | .escapeStart | .escapeStartDash => .script
  | .escaped | .escapedDash | .escapedDashDash | .escapedLessThan | .escapedEndTagOpen
  | .escapedEndTagName _ | .doubleEscapeStart _ => .escaped
  | .doubleEscaped | .doubleEscapedDash | .doubleEscapedDashDash | .doubleEscapedLessThan
  | .doubleEscapeEnd _ => .doubleEscaped
  | .ended => .ended

theorem base_eq_ended {q : State} : q.base = .ended ↔ q = .ended := by
  cases q <;> simp [State.base]

theorem step_backslash (q : State) : step q '\\' = q.base := by
  cases q <;> rfl

theorem step_quote (q : State) : step q '\x22' = q.base := by
  cases q <;> rfl

/-- Only `<` and `-` lead on from there. -/
theorem step_base {c : Char} (hless : c ≠ '<') (hdash : c ≠ '-') (q : State) :
    step q.base c = q.base := by
  cases q <;> simp [State.base, step, inScript, inEscaped, inDoubleEscaped, hless, hdash]

theorem run_base {text : List Char} (h : ∀ c ∈ text, c ≠ '<' ∧ c ≠ '-') (q : State) :
    run q.base text = q.base := by
  induction text with
  | nil => rfl
  | cons c text ih =>
      obtain ⟨hless, hdash⟩ := h c List.mem_cons_self
      rw [run_cons, step_base hless hdash]
      exact ih fun d hd => h d (List.mem_cons_of_mem c hd)

end ScriptData

end Grits
