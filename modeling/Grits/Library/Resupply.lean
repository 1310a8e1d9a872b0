import Mathlib.Data.Finset.Card
import Mathlib.Tactic

/-!
# Attempts that name what they lack

A client makes an attempt again and again.  Each attempt that fails may name one item
that was lacking, which the client supplies before it tries again; an item named for
the second time ends the loop.  If an attempt only ever names items that are missing,
and supplying an item makes it not missing, the loop ends with success.
-/

namespace Grits

namespace Resupply

variable {σ α ι ε : Type} [DecidableEq ι]

/-- How one attempt ends. -/
inductive Attempt (α ι ε : Type) where
  | done (result : α)
  | lacks (item : ι)
  | refused (reason : ε)

/-- How the loop ends. -/
inductive Ending (α ι ε : Type) where
  | done (result : α)
  /-- An item was named for the second time. -/
  | stuck (item : ι)
  /-- The item could not be supplied. -/
  | unsupplied (item : ι)
  | refused (reason : ε)
  deriving DecidableEq

/-- What a bounded number of rounds comes to: how the loop has ended, unless it goes on,
and the items asked for. -/
structure Outcome (σ α ι ε : Type) where
  ending : Option (Ending α ι ε)
  asked : List ι
  state : σ

variable (attempt : σ → Attempt α ι ε × σ) (supply : ι → σ → Option σ)

/-- The loop; `asked` are the items named so far. -/
def run : ℕ → List ι → σ → Outcome σ α ι ε
  | 0, asked, s => ⟨none, asked, s⟩
  | fuel + 1, asked, s =>
      match attempt s with
      | (.done result, t) => ⟨some (.done result), asked, t⟩
      | (.refused reason, t) => ⟨some (.refused reason), asked, t⟩
      | (.lacks item, t) =>
          if item ∈ asked then ⟨some (.stuck item), asked, t⟩
          else match supply item t with
            | none => ⟨some (.unsupplied item), asked ++ [item], t⟩
            | some u => run fuel (asked ++ [item]) u

/-- The state after one round that leads to another attempt. -/
def round (s : σ) : Option σ :=
  match attempt s with
  | (.lacks item, t) => supply item t
  | _ => none

/-- The states in which the loop makes an attempt. -/
inductive Visited (start : σ) : σ → Prop
  | start : Visited start start
  | next {s t : σ} (hs : Visited start s) (hround : round attempt supply s = some t) :
      Visited start t

/-- In the states with `I`, an attempt succeeds or names a missing item, and supplying
that item leaves fewer missing. -/
structure Supplies (I : σ → Prop) (missing : σ → Finset ι) : Prop where
  attempt : ∀ s, I s → (∃ result t, attempt s = (.done result, t)) ∨
    ∃ item t u, attempt s = (.lacks item, t) ∧ item ∈ missing s ∧ supply item t = some u ∧
      I u ∧ missing u ⊆ (missing s).erase item

variable {attempt supply} {I : σ → Prop} {missing : σ → Finset ι}

/-- The loop ends with success, after asking for each missing item once at most and
for nothing else. -/
theorem Supplies.run_done (h : Supplies attempt supply I missing) {s : σ} (hs : I s)
    {asked : List ι} (hasked : ∀ item ∈ asked, item ∉ missing s) {fuel : ℕ}
    (hfuel : (missing s).card < fuel) :
    ∃ result items t, run attempt supply fuel asked s = ⟨some (.done result), asked ++ items, t⟩ ∧
      items.Nodup ∧ ∀ item ∈ items, item ∈ missing s := by
  induction fuel generalizing s asked with
  | zero => omega
  | succ fuel ih =>
      rcases h.attempt s hs with ⟨result, t, hrun⟩ | ⟨item, t, u, hrun, hitem, hsupply, hu, hless⟩
      · refine ⟨result, [], t, ?_, List.nodup_nil, by simp⟩
        rw [run, hrun, List.append_nil]
      · have hnew : item ∉ asked := fun hold => hasked item hold hitem
        have hasked' : ∀ other ∈ asked ++ [item], other ∉ missing u := by
          intro other hother hmissing
          have hbefore := hless hmissing
          rw [Finset.mem_erase] at hbefore
          rcases List.mem_append.mp hother with hold | hlast
          · exact hasked other hold hbefore.2
          · exact hbefore.1 (List.mem_singleton.mp hlast)
        have hcard : (missing u).card < fuel := by
          have hle := Finset.card_le_card hless
          rw [Finset.card_erase_of_mem hitem] at hle
          have hpos := Finset.card_pos.mpr ⟨item, hitem⟩
          omega
        obtain ⟨result, items, v, hrest, hnodup, hitems⟩ := ih hu hasked' hcard
        refine ⟨result, item :: items, v, ?_, ?_, ?_⟩
        · rw [run, hrun]
          simp only [if_neg hnew, hsupply]
          rw [hrest, List.append_assoc]
          rfl
        · apply List.nodup_cons.mpr
          refine ⟨?_, hnodup⟩
          intro hagain
          have hbefore := hless (hitems item hagain)
          simp at hbefore
        · intro other hother
          rcases List.mem_cons.mp hother with rfl | hother
          · exact hitem
          · exact Finset.mem_of_mem_erase (hless (hitems other hother))

end Resupply

end Grits
