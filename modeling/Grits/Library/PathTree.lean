import Mathlib.Data.List.Infix
import Mathlib.Logic.Function.Basic
import Mathlib.Tactic

/-!
# Trees addressed by paths

A persistent tree is given by its nodes and the children of each: `kids a` maps
names to nodes, and is `none` at a leaf.  A path is a list of names, and an
absent node is `none`.

An implementation may read a damaged node in some way although the node has no
children; `reads a f` says that it may find the children `f` at `a`.  A node is
`Exact` if it can only be read as what it is, and a tree is `Whole` if all its
nodes are exact.

`Updated kids reads path value old new` says that the tree `new` is the tree
`old` with `value` put at `path`: on the way to `path` every node is replaced
by one that differs in one entry from what was read there, all else is shared.
-/

namespace Grits

namespace PathTree

variable {A N : Type} (kids : A → Option (N → Option A))

/-- The child of a node, if the node is there and has one of this name. -/
def child (o : Option A) (name : N) : Option A :=
  o.bind fun a => (kids a).bind fun children => children name

/-- The node a path leads to. -/
def walk : Option A → List N → Option A
  | o, [] => o
  | o, name :: path => walk (child kids o name) path

@[simp] theorem walk_nil (o : Option A) : walk kids o [] = o := rfl

@[simp] theorem walk_cons (o : Option A) (name : N) (path : List N) :
    walk kids o (name :: path) = walk kids (child kids o name) path := rfl

@[simp] theorem child_none (name : N) : child kids none name = none := rfl

@[simp] theorem walk_none (path : List N) : walk kids none path = none := by
  induction path with
  | nil => rfl
  | cons name path ih => simpa using ih

theorem walk_append (o : Option A) (path rest : List N) :
    walk kids o (path ++ rest) = walk kids (walk kids o path) rest := by
  induction path generalizing o with
  | nil => rfl
  | cons name path ih => exact ih _

theorem walk_concat (o : Option A) (path : List N) (name : N) :
    walk kids o (path ++ [name]) = child kids (walk kids o path) name := by
  rw [walk_append]
  rfl

variable {kids}

theorem child_some {a : A} {children : N → Option A} (h : kids a = some children)
    (name : N) : child kids (some a) name = children name := by
  simp [child, h]

/-! ## Unrelated paths -/

/-- Neither path leads to or through the other. -/
def Unrelated (path other : List N) : Prop := ¬ path <+: other ∧ ¬ other <+: path

instance [DecidableEq N] (path other : List N) : Decidable (Unrelated path other) :=
  inferInstanceAs (Decidable (_ ∧ _))

theorem Unrelated.symm {path other : List N} (h : Unrelated path other) :
    Unrelated other path := ⟨h.2, h.1⟩

theorem unrelated_cons_of_ne {name other : N} (h : name ≠ other) (path rest : List N) :
    Unrelated (name :: path) (other :: rest) := by
  constructor
  · rw [List.cons_prefix_cons]
    exact fun hpre => h hpre.1
  · rw [List.cons_prefix_cons]
    exact fun hpre => h hpre.1.symm

theorem unrelated_cons_iff {name : N} {path rest : List N} :
    Unrelated (name :: path) (name :: rest) ↔ Unrelated path rest := by
  simp [Unrelated, List.cons_prefix_cons]

theorem not_unrelated_nil_left (path : List N) : ¬ Unrelated [] path := fun h =>
  h.1 List.nil_prefix

theorem not_unrelated_nil_right (path : List N) : ¬ Unrelated path [] := fun h =>
  h.2 List.nil_prefix

/-- Names that are left out on the way do not make a path related to one that it
leaves further down. -/
theorem unrelated_filter_append {named : N → Bool} {front path other : List N}
    (h : Unrelated path other) (hother : ∀ name ∈ other, named name = true) :
    Unrelated (front ++ path) (front.filter named ++ other) := by
  induction front with
  | nil => exact h
  | cons name front ih =>
      by_cases hname : named name = true
      · rw [List.filter_cons_of_pos hname, List.cons_append, List.cons_append,
          unrelated_cons_iff]
        exact ih
      · rw [List.filter_cons_of_neg hname]
        cases hnext : front.filter named ++ other with
        | nil =>
            rw [List.append_eq_nil_iff] at hnext
            rw [hnext.2] at h
            exact absurd h (not_unrelated_nil_right path)
        | cons next rest =>
            refine unrelated_cons_of_ne ?_ _ _
            rintro rfl
            have hmem : name ∈ front.filter named ++ other := by
              rw [hnext]
              exact List.mem_cons_self
            rcases List.mem_append.mp hmem with hmem | hmem
            · exact hname (List.mem_filter.mp hmem).2
            · exact hname (hother name hmem)

/-- A path with names that are left out is unrelated to what the other names are unrelated to. -/
theorem Unrelated.of_filter {named : N → Bool} {path other : List N}
    (h : Unrelated (path.filter named) other) (hother : ∀ name ∈ other, named name = true) :
    Unrelated path other := by
  have hfilter : other.filter named = other := List.filter_eq_self.mpr hother
  constructor
  · intro hpre
    apply h.1
    rw [← hfilter]
    exact hpre.filter named
  · intro hpre
    apply h.2
    rw [← hfilter]
    exact hpre.filter named

/-- A path with names that are left out, but not the last one, does not lead to where the other
names lead, nor through there. -/
theorem unrelated_filter_of_getLast? {named : N → Bool} {path rest : List N} {last : N}
    (hpath : path.filter named ≠ path) (hlast : path.getLast? = some last)
    (hnamed : named last = true) (hrest : ∀ name ∈ rest, named name = true) :
    Unrelated path (path.filter named ++ rest) := by
  have hall : ∀ name ∈ path.filter named ++ rest, named name = true := by
    intro name hname
    rcases List.mem_append.mp hname with hname | hname
    · exact (List.mem_filter.mp hname).2
    · exact hrest name hname
  constructor
  · intro hpre
    apply hpath
    rw [List.filter_eq_self]
    exact fun name hname => hall name (hpre.subset hname)
  · rintro ⟨back, hback⟩
    have hfilter := congrArg (List.filter named) hback
    rw [List.filter_append, List.filter_eq_self.mpr hall, List.append_assoc,
      List.append_right_eq_self, List.append_eq_nil_iff] at hfilter
    -- what is left out would be at the end
    have hback' : ∀ name ∈ back, ¬ named name = true := List.filter_eq_nil_iff.mp hfilter.2
    rw [hfilter.1, List.append_nil] at hback
    cases back using List.reverseRecOn with
    | nil =>
        rw [List.append_nil] at hback
        exact hpath hback
    | append_singleton front name =>
        rw [← hback, ← List.append_assoc, List.getLast?_concat, Option.some.injEq] at hlast
        refine hback' name (by simp) ?_
        rw [hlast, hnamed]

/-! ## Exact nodes -/

variable {reads : A → (N → Option A) → Prop}

variable (kids reads) in
/-- The node can only be read as the children it has. -/
def Exact (a : A) : Prop := ∀ children, reads a children → kids a = some children

variable (kids reads) in
/-- Every node above the end of the path is exact. -/
def ExactAlong : Option A → List N → Prop
  | _, [] => True
  | o, name :: path => (∀ a, o = some a → Exact kids reads a) ∧
      ExactAlong (child kids o name) path

variable (kids reads) in
/-- Every node of the tree is exact. -/
def Whole (o : Option A) : Prop :=
  ∀ path a, walk kids o path = some a → Exact kids reads a

theorem whole_none : Whole kids reads none := by
  intro path a h
  simp at h

theorem Whole.child {o : Option A} (h : Whole kids reads o) (name : N) :
    Whole kids reads (child kids o name) := fun path a ha => h (name :: path) a ha

theorem Whole.walk {o : Option A} (h : Whole kids reads o) (path : List N) :
    Whole kids reads (walk kids o path) := by
  intro rest a ha
  rw [← walk_append] at ha
  exact h _ a ha

theorem Whole.exactAlong {o : Option A} (h : Whole kids reads o) (path : List N) :
    ExactAlong kids reads o path := by
  induction path generalizing o with
  | nil => trivial
  | cons name path ih => exact ⟨fun a ha => h [] a ha, ih (h.child name)⟩

/-! ## One update -/

variable [DecidableEq N]

variable (kids reads) in
/-- `new` is `old` with `value` put at the path. -/
def Updated : List N → Option A → Option A → Option A → Prop
  | [], value, _, new => new = value
  | name :: path, value, old, new => ∃ a a' children below, old = some a ∧ new = some a' ∧
      reads a children ∧ reads a' (Function.update children name below) ∧
      (kids a = some children → kids a' = some (Function.update children name below)) ∧
      Updated path value (children name) below

variable {path : List N} {value old new : Option A}

/-- Over exact nodes an update replaces one child of each. -/
theorem Updated.cons_inv {name : N} (h : Updated kids reads (name :: path) value old new)
    (hexact : ∀ a, old = some a → Exact kids reads a) :
    ∃ a a' children below, old = some a ∧ new = some a' ∧ kids a = some children ∧
      kids a' = some (Function.update children name below) ∧
      Updated kids reads path value (children name) below := by
  obtain ⟨a, a', children, below, hold, hnew, hreads, -, hkids, hrest⟩ := h
  have ha : kids a = some children := hexact a hold children hreads
  exact ⟨a, a', children, below, hold, hnew, ha, hkids ha, hrest⟩

/-- The path leads to the value that was put there. -/
theorem Updated.walk_eq (h : Updated kids reads path value old new)
    (hexact : ExactAlong kids reads old path) : walk kids new path = value := by
  induction path generalizing old new with
  | nil => exact h
  | cons name path ih =>
      obtain ⟨a, a', children, below, rfl, rfl, hold, hnew, hrest⟩ := h.cons_inv hexact.1
      have hbelow := hexact.2
      rw [child_some hold] at hbelow
      rw [walk_cons, child_some hnew, Function.update_self]
      exact ih hrest hbelow

/-- A path below the updated one leads into the new value. -/
theorem Updated.walk_below (h : Updated kids reads path value old new)
    (hexact : ExactAlong kids reads old path) (rest : List N) :
    walk kids new (path ++ rest) = walk kids value rest := by
  rw [walk_append, h.walk_eq hexact]

/-- A node above the updated path is replaced by one that differs in one entry,
which is itself updated. -/
theorem Updated.walk_above {above : List N} {name : N} {rest : List N}
    (h : Updated kids reads (above ++ name :: rest) value old new)
    (hexact : ExactAlong kids reads old above) :
    Updated kids reads (name :: rest) value (walk kids old above) (walk kids new above) := by
  induction above generalizing old new with
  | nil => exact h
  | cons next above ih =>
      obtain ⟨a, a', children, below, rfl, rfl, hold, hnew, hrest⟩ := h.cons_inv hexact.1
      have hbelow := hexact.2
      rw [child_some hold] at hbelow
      rw [walk_cons, walk_cons, child_some hold, child_some hnew, Function.update_self]
      exact ih hrest hbelow

/-- Above the updated path there are nodes with children, before and after. -/
theorem Updated.kids_above {above : List N} {name : N} {rest : List N}
    (h : Updated kids reads (above ++ name :: rest) value old new)
    (hexact : ExactAlong kids reads old (above ++ [name])) :
    ∃ a a' children children', walk kids old above = some a ∧ walk kids new above = some a' ∧
      kids a = some children ∧ kids a' = some children' := by
  induction above generalizing old new with
  | nil =>
      obtain ⟨a, a', children, below, rfl, rfl, hold, hnew, -⟩ := h.cons_inv hexact.1
      exact ⟨a, a', _, _, rfl, rfl, hold, hnew⟩
  | cons next above ih =>
      obtain ⟨a, a', children, below, rfl, rfl, hold, hnew, hrest⟩ := h.cons_inv hexact.1
      have hbelow := hexact.2
      rw [child_some hold] at hbelow
      rw [walk_cons, walk_cons, child_some hold, child_some hnew, Function.update_self]
      exact ih hrest hbelow

variable (kids) in
/-- The node is read as the children it has, and as nothing else. -/
def ReadsExactly (a : A) (children : N → Option A) : Prop := kids a = some children

/-- Over exact nodes an update reads what is there. -/
theorem Updated.exactly (h : Updated kids reads path value old new)
    (hexact : ExactAlong kids reads old path) :
    Updated kids (ReadsExactly kids) path value old new := by
  induction path generalizing old new with
  | nil => exact h
  | cons name path ih =>
      obtain ⟨a, a', children, below, rfl, rfl, hold, hnew, hrest⟩ := h.cons_inv hexact.1
      have hbelow := hexact.2
      rw [child_some hold] at hbelow
      exact ⟨a, a', children, below, rfl, rfl, hold, hnew, fun _ => hnew, ih hrest hbelow⟩

/-- What is at a path after an update was there before, or is part of the value. -/
theorem Updated.walk_before (h : Updated kids reads path value old new) {other : List N}
    (hexact : ExactAlong kids reads old other) (hnew : walk kids new other ≠ none) :
    walk kids old other ≠ none ∨
      ∃ rest, other = path ++ rest ∧ walk kids value rest ≠ none := by
  induction path generalizing old new other with
  | nil =>
      rw [Updated] at h
      subst h
      exact .inr ⟨other, rfl, hnew⟩
  | cons name path ih =>
      cases other with
      | nil =>
          obtain ⟨a, -, -, -, rfl, -⟩ := h
          exact .inl (Option.some_ne_none a)
      | cons next other =>
          obtain ⟨a, a', children, below, rfl, rfl, hold, hkids, hrest⟩ := h.cons_inv hexact.1
          have hbelow := hexact.2
          rw [child_some hold] at hbelow
          rw [walk_cons, child_some hkids] at hnew
          rw [walk_cons, child_some hold]
          by_cases hname : next = name
          · subst hname
            rw [Function.update_self] at hnew
            rcases ih hrest hbelow hnew with hbefore | ⟨rest, rfl, hvalue⟩
            · exact .inl hbefore
            · exact .inr ⟨rest, rfl, hvalue⟩
          · rw [Function.update_of_ne hname] at hnew
            exact .inl hnew

/-! ## The nodes an update makes -/

variable (kids) in
/-- On the way to the path every node of `old` is replaced by one with `P`, which differs
from it in the next name only. -/
def Rebuilt (P : A → Prop) : List N → Option A → Option A → Prop
  | [], _, _ => True
  | name :: path, old, new => ∃ a a', old = some a ∧ new = some a' ∧ P a' ∧
      ∀ children, kids a = some children → ∃ below,
        kids a' = some (Function.update children name below) ∧
        Rebuilt P path (children name) below

/-- Above the path there are new nodes, elsewhere the old ones. -/
theorem Rebuilt.walk {P : A → Prop} (h : Rebuilt kids P path old new) {dir : List N} {a : A}
    (hold : PathTree.walk kids old dir = some a) (hdir : ¬ path <+: dir) :
    ∃ a', PathTree.walk kids new dir = some a' ∧ (dir <+: path → P a') ∧
      (¬ dir <+: path → a' = a) := by
  induction path generalizing old new dir with
  | nil => exact absurd List.nil_prefix hdir
  | cons name path ih =>
      obtain ⟨b, b', rfl, rfl, hnew, hbelow⟩ := h
      cases dir with
      | nil => exact ⟨b', rfl, fun _ => hnew, fun hne => absurd List.nil_prefix hne⟩
      | cons next dir =>
          rw [walk_cons] at hold
          cases hkids : kids b with
          | none =>
              rw [child, Option.bind_some, hkids, Option.bind_none, walk_none] at hold
              cases hold
          | some children =>
              obtain ⟨below, hkids', hrest⟩ := hbelow children hkids
              rw [child_some hkids] at hold
              rw [walk_cons, child_some hkids']
              by_cases hname : next = name
              · subst hname
                rw [List.cons_prefix_cons, not_and] at hdir
                rw [Function.update_self]
                obtain ⟨a', hwalk, habove, helse⟩ := ih hrest hold (hdir rfl)
                refine ⟨a', hwalk, ?_, ?_⟩
                · intro hpre
                  exact habove (List.cons_prefix_cons.mp hpre).2
                · intro hpre
                  exact helse fun hrest => hpre (List.cons_prefix_cons.mpr ⟨rfl, hrest⟩)
              · rw [Function.update_of_ne hname]
                refine ⟨a, hold, ?_, fun _ => rfl⟩
                intro hpre
                exact absurd (List.cons_prefix_cons.mp hpre).1 hname

/-! ## Several updates, one after another -/

variable (kids reads) in
/-- `new` is `old` with the updates made from left to right. -/
def UpdatedAll : List (List N × Option A) → Option A → Option A → Prop
  | [], old, new => new = old
  | (path, value) :: updates, old, new =>
      ∃ middle, Updated kids reads path value old middle ∧ UpdatedAll updates middle new

variable {updates : List (List N × Option A)}

theorem UpdatedAll.append {others : List (List N × Option A)} {middle : Option A}
    (h : UpdatedAll kids reads updates old middle)
    (hothers : UpdatedAll kids reads others middle new) :
    UpdatedAll kids reads (updates ++ others) old new := by
  induction updates generalizing old with
  | nil =>
      rw [UpdatedAll] at h
      subst h
      exact hothers
  | cons update updates ih =>
      obtain ⟨next, hfirst, hrest⟩ := h
      exact ⟨next, hfirst, ih hrest⟩

/-! ## What an update leaves alone

A node that has children can only be read as what it is. -/

variable (hread : ∀ a children children', kids a = some children → reads a children' →
  children' = children)

include hread

omit [DecidableEq N] in
theorem exact_of_kids {a : A} {children : N → Option A} (h : kids a = some children) :
    Exact kids reads a := by
  intro children' hreads
  rw [h, hread a children children' h hreads]

omit [DecidableEq N] in
theorem exact_some_of_kids {a : A} {children : N → Option A} (h : kids a = some children) :
    ∀ b, some a = some b → Exact kids reads b := by
  rintro b ⟨⟩
  exact exact_of_kids hread h

/-- An unrelated path leads where it led before. -/
theorem Updated.walk_unrelated (h : Updated kids reads path value old new)
    {other : List N} (hother : Unrelated path other) (hexact : ExactAlong kids reads old other) :
    walk kids new other = walk kids old other ∧ ExactAlong kids reads new other := by
  induction path generalizing old new other with
  | nil => exact absurd hother (not_unrelated_nil_left other)
  | cons name path ih =>
      cases other with
      | nil => exact absurd hother (not_unrelated_nil_right _)
      | cons next other =>
          obtain ⟨a, a', children, below, rfl, rfl, hold, hnew, hrest⟩ := h.cons_inv hexact.1
          have hbelow := hexact.2
          rw [child_some hold] at hbelow
          rw [walk_cons, walk_cons, child_some hnew, child_some hold, ExactAlong,
            child_some hnew]
          by_cases hname : next = name
          · subst hname
            rw [Function.update_self]
            obtain ⟨hwalk, hexactNew⟩ := ih hrest (unrelated_cons_iff.mp hother) hbelow
            exact ⟨hwalk, exact_some_of_kids hread hnew, hexactNew⟩
          · rw [Function.update_of_ne hname]
            exact ⟨rfl, exact_some_of_kids hread hnew, hbelow⟩

/-- An update of a whole tree with a whole tree gives a whole tree. -/
theorem Updated.whole (h : Updated kids reads path value old new)
    (hold : Whole kids reads old) (hvalue : Whole kids reads value) :
    Whole kids reads new := by
  induction path generalizing old new with
  | nil =>
      rw [Updated] at h
      subst h
      exact hvalue
  | cons name path ih =>
      obtain ⟨a, a', children, below, rfl, rfl, hkids, hnew, hrest⟩ := h.cons_inv (hold [])
      have hchildren : ∀ next, Whole kids reads (children next) := by
        intro next
        have := hold.child next
        rwa [child_some hkids] at this
      have hbelow : Whole kids reads below := ih hrest (hchildren name)
      intro other b hb
      cases other with
      | nil => exact exact_some_of_kids hread hnew b hb
      | cons next other =>
          rw [walk_cons, child_some hnew] at hb
          by_cases hname : next = name
          · subst hname
            rw [Function.update_self] at hb
            exact hbelow other b hb
          · rw [Function.update_of_ne hname] at hb
            exact hchildren next other b hb

/-- Updates of a whole tree with whole trees read what is there. -/
theorem UpdatedAll.exactly (h : UpdatedAll kids reads updates old new)
    (hold : Whole kids reads old) (hvalues : ∀ update ∈ updates, Whole kids reads update.2) :
    UpdatedAll kids (ReadsExactly kids) updates old new := by
  induction updates generalizing old with
  | nil => exact h
  | cons update updates ih =>
      obtain ⟨middle, hfirst, hrest⟩ := h
      have hmiddle := hfirst.whole hread hold (hvalues update List.mem_cons_self)
      exact ⟨middle, hfirst.exactly (hold.exactAlong _),
        ih hrest hmiddle fun u hu => hvalues u (List.mem_cons_of_mem _ hu)⟩

/-- A path unrelated to every updated path leads where it led before. -/
theorem UpdatedAll.walk_unrelated (h : UpdatedAll kids reads updates old new)
    {other : List N} (hother : ∀ update ∈ updates, Unrelated update.1 other)
    (hexact : ExactAlong kids reads old other) :
    walk kids new other = walk kids old other ∧ ExactAlong kids reads new other := by
  induction updates generalizing old with
  | nil =>
      rw [UpdatedAll] at h
      subst h
      exact ⟨rfl, hexact⟩
  | cons update updates ih =>
      obtain ⟨middle, hfirst, hrest⟩ := h
      obtain ⟨hwalk, hmiddle⟩ :=
        hfirst.walk_unrelated hread (hother update List.mem_cons_self) hexact
      obtain ⟨hwalk', hnew⟩ :=
        ih hrest (fun u hu => hother u (List.mem_cons_of_mem _ hu)) hmiddle
      exact ⟨hwalk'.trans hwalk, hnew⟩

/-- In a whole tree, an updated path to which no later update is related leads
to its value. -/
theorem UpdatedAll.walk_last {before after : List (List N × Option A)}
    (h : UpdatedAll kids reads (before ++ (path, value) :: after) old new)
    (hold : Whole kids reads old) (hvalues : ∀ update ∈ before, Whole kids reads update.2)
    (hvalue : Whole kids reads value)
    (hafter : ∀ update ∈ after, Unrelated update.1 path) :
    walk kids new path = value := by
  induction before generalizing old with
  | nil =>
      obtain ⟨middle, hfirst, hrest⟩ := h
      have hmiddle : Whole kids reads middle := hfirst.whole hread hold hvalue
      have hwalk := hrest.walk_unrelated hread hafter (hmiddle.exactAlong path)
      rw [hwalk.1, hfirst.walk_eq (hold.exactAlong path)]
  | cons update before ih =>
      obtain ⟨middle, hfirst, hrest⟩ := h
      have hmiddle := hfirst.whole hread hold (hvalues update List.mem_cons_self)
      exact ih hrest hmiddle fun u hu => hvalues u (List.mem_cons_of_mem _ hu)

/-- The nodes along a path stay exact, if those of the value are. -/
theorem Updated.exactAlong (h : Updated kids reads path value old new) {other : List N}
    (hexact : ExactAlong kids reads old other)
    (hvalue : ∀ rest, other = path ++ rest → ExactAlong kids reads value rest) :
    ExactAlong kids reads new other := by
  induction path generalizing old new other with
  | nil =>
      rw [Updated] at h
      subst h
      exact hvalue other rfl
  | cons name path ih =>
      cases other with
      | nil => trivial
      | cons next other =>
          obtain ⟨a, a', children, below, rfl, rfl, hold, hkids, hrest⟩ := h.cons_inv hexact.1
          have hbelow := hexact.2
          rw [child_some hold] at hbelow
          refine ⟨exact_some_of_kids hread hkids, ?_⟩
          rw [child_some hkids]
          by_cases hname : next = name
          · subst hname
            rw [Function.update_self]
            refine ih hrest hbelow fun rest hother => hvalue rest ?_
            rw [hother, List.cons_append]
          · rw [Function.update_of_ne hname]
            exact hbelow

/-- What is at a path after some updates was there before, or is part of a value. -/
theorem UpdatedAll.walk_before (h : UpdatedAll kids reads updates old new) {other : List N}
    (hexact : ExactAlong kids reads old other)
    (hvalues : ∀ update ∈ updates, ∀ rest, other = update.1 ++ rest →
      ExactAlong kids reads update.2 rest)
    (hnew : walk kids new other ≠ none) :
    walk kids old other ≠ none ∨
      ∃ update ∈ updates, ∃ rest, other = update.1 ++ rest ∧ walk kids update.2 rest ≠ none := by
  induction updates generalizing old with
  | nil =>
      rw [UpdatedAll] at h
      subst h
      exact .inl hnew
  | cons update updates ih =>
      obtain ⟨middle, hfirst, hrest⟩ := h
      have hmiddle := hfirst.exactAlong hread hexact (hvalues update List.mem_cons_self)
      rcases ih hrest hmiddle fun u hu => hvalues u (List.mem_cons_of_mem _ hu) with
        hbefore | ⟨later, hlater, hrest⟩
      · exact (hfirst.walk_before hexact hbefore).imp_right fun hvalue =>
          ⟨update, List.mem_cons_self, hvalue⟩
      · exact .inr ⟨later, List.mem_cons_of_mem _ hlater, hrest⟩

/-! ## Growth -/

variable (kids reads) in
/-- What has a path of such names in `old` has it in `new`: a leaf is the same, a
node with children has at least the same names. -/
def Grown (named : N → Prop) (old new : Option A) : Prop :=
  ∀ path a, (∀ name ∈ path, named name) → walk kids old path = some a →
    ∃ a', walk kids new path = some a' ∧ Exact kids reads a' ∧ (kids a = none → a' = a) ∧
      ∀ children, kids a = some children → ∃ children', kids a' = some children' ∧
        ∀ name, children name ≠ none → children' name ≠ none

omit hread [DecidableEq N] in
theorem Whole.grown (h : Whole kids reads old) (named : N → Prop) :
    Grown kids reads named old old := by
  intro path a _ hwalk
  exact ⟨a, hwalk, h path a hwalk, fun _ => rfl, fun children hkids =>
    ⟨children, hkids, fun _ hname => hname⟩⟩

omit hread [DecidableEq N] in
/-- Exactness along a path, node by node. -/
theorem exactAlong_of_walk {o : Option A} {path : List N}
    (h : ∀ above below, path = above ++ below → ∀ a, walk kids o above = some a →
      Exact kids reads a) : ExactAlong kids reads o path := by
  induction path generalizing o with
  | nil => trivial
  | cons name path ih =>
      refine ⟨fun a ha => h [] (name :: path) rfl a ha, ih ?_⟩
      intro above below hpath a ha
      exact h (name :: above) below (by rw [hpath, List.cons_append]) a ha

omit hread [DecidableEq N] in
theorem Grown.exactAlong {named : N → Prop} {o : Option A} (h : Grown kids reads named old o)
    {path : List N} {a : A} (hnamed : ∀ name ∈ path, named name)
    (hwalk : walk kids old path = some a) : ExactAlong kids reads o path := by
  refine exactAlong_of_walk ?_
  rintro above below rfl b hb
  rw [walk_append] at hwalk
  cases habove : walk kids old above with
  | none =>
      rw [habove, walk_none] at hwalk
      cases hwalk
  | some c =>
      obtain ⟨c', hc', hexact, -⟩ := h above c
        (fun name hname => hnamed name (List.mem_append_left _ hname)) habove
      rw [hc'] at hb
      cases hb
      exact hexact

omit hread in
/-- An update of a path with at least one name gives a node. -/
theorem Updated.new_ne_none {name : N} (h : Updated kids reads (name :: path) value old new) :
    new ≠ none := by
  obtain ⟨-, a', -, -, -, rfl, -⟩ := h
  exact Option.some_ne_none a'

/-- An update at a path that the old tree does not have only adds to it. -/
theorem Grown.updated {named : N → Prop} {middle : Option A}
    (h : Grown kids reads named old middle) (hupdated : Updated kids reads path value middle new)
    (hne : path ≠ []) (hlast : ∀ name, path.getLast? = some name → named name)
    (habsent : (∀ name ∈ path, named name) → walk kids old path = none) :
    Grown kids reads named old new := by
  intro other a hnamed hwalk
  obtain ⟨a', hmiddle, hexact, hleaf, hgrown⟩ := h other a hnamed hwalk
  by_cases hpath : path <+: other
  · -- the updated path would be there already
    obtain ⟨rest, rfl⟩ := hpath
    rw [walk_append, habsent fun name hname => hnamed name (List.mem_append_left _ hname),
      walk_none] at hwalk
    cases hwalk
  by_cases hother : other <+: path
  · -- the node is above the update: one of its entries is written
    obtain ⟨below, rfl⟩ := hother
    cases below with
    | nil =>
        rw [List.append_nil] at hpath
        exact absurd (List.prefix_refl other) hpath
    | cons name rest =>
        have habove := hupdated.walk_above (h.exactAlong hnamed hwalk)
        rw [hmiddle] at habove
        have hexact' : ∀ b, some a' = some b → Exact kids reads b := by
          rintro b ⟨⟩
          exact hexact
        obtain ⟨b, b', children, below, hb, hnew, hkids, hkids', hrest⟩ :=
          habove.cons_inv hexact'
        cases hb
        refine ⟨b', hnew, exact_of_kids hread hkids', ?_, ?_⟩
        · intro hnone
          rw [hleaf hnone] at hkids
          rw [hkids] at hnone
          cases hnone
        · intro children₀ hchildren₀
          obtain ⟨children', hchildren', hsub⟩ := hgrown children₀ hchildren₀
          rw [hkids] at hchildren'
          cases hchildren'
          refine ⟨_, hkids', ?_⟩
          intro next hnext
          by_cases hname : next = name
          · subst hname
            rw [Function.update_self]
            cases rest with
            | cons _ _ => exact hrest.new_ne_none
            | nil =>
                -- an entry that was there would make the path one that was there
                exfalso
                have hall : ∀ name ∈ other ++ [next], named name := by
                  intro name hname
                  rcases List.mem_append.mp hname with hname | hname
                  · exact hnamed name hname
                  · rw [List.mem_singleton] at hname
                    subst hname
                    exact hlast name List.getLast?_concat
                have hnone := habsent hall
                rw [walk_concat, hwalk, child_some hchildren₀] at hnone
                exact hnext hnone
          · rw [Function.update_of_ne hname]
            exact hsub next hnext
  · obtain ⟨hsame, -⟩ := hupdated.walk_unrelated hread ⟨hpath, hother⟩
      (h.exactAlong hnamed hwalk)
    exact ⟨a', hsame.trans hmiddle, hexact, hleaf, hgrown⟩

/-- Updates at paths that the old tree does not have only add to it. -/
theorem Grown.updatedAll {named : N → Prop} {middle : Option A}
    (h : Grown kids reads named old middle)
    (hupdated : UpdatedAll kids reads updates middle new)
    (hall : ∀ update ∈ updates, update.1 ≠ [] ∧
      (∀ name, update.1.getLast? = some name → named name) ∧
      ((∀ name ∈ update.1, named name) → walk kids old update.1 = none)) :
    Grown kids reads named old new := by
  induction updates generalizing middle with
  | nil =>
      rw [UpdatedAll] at hupdated
      subst hupdated
      exact h
  | cons update updates ih =>
      obtain ⟨next, hfirst, hrest⟩ := hupdated
      obtain ⟨hne, hlast, habsent⟩ := hall update List.mem_cons_self
      exact ih (h.updated hread hfirst hne hlast habsent) hrest
        fun u hu => hall u (List.mem_cons_of_mem _ hu)

end PathTree

end Grits
