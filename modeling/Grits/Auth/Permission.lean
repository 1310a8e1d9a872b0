import Grits.Library.SlashPath

/-!
# Permissions

The permission values of `access.json` files and the part of
`internal/gritsd/module_auth.go` that merges and inherits them.

A permission is a set of capabilities, and `mergePerm` is the union of two
sets.  `Permission.Le` compares permissions by their capabilities; it is only a
preorder, since the empty permission and any unknown text allow the same.
-/

namespace Grits

/-- `type Permission string`: the five meaningful values, the empty one, and any
other text. -/
inductive Permission where
  | empty
  | read
  | insert
  | readInsert
  | readWrite
  | owner
  | other (text : GoString)
  deriving DecidableEq

/-- `CanRead`. -/
def canRead (p : Permission) : Bool :=
  p == .read || p == .readInsert || p == .readWrite || p == .owner

/-- `CanInsert`. -/
def canInsert (p : Permission) : Bool :=
  p == .insert || p == .readInsert || p == .readWrite || p == .owner

/-- `CanWrite`. -/
def canWrite (p : Permission) : Bool := p == .readWrite || p == .owner

/-- `CanOwn`. -/
def canOwn (p : Permission) : Bool := p == .owner

/-- `mergePerm`. -/
def mergePerm (a b : Permission) : Permission :=
  let read := canRead a || canRead b
  let insert := canInsert a || canInsert b
  let write := canWrite a || canWrite b
  let own := canOwn a || canOwn b
  if own then .owner
  else if write then .readWrite
  else if read && insert then .readInsert
  else if insert then .insert
  else if read then .read
  else .empty

/-! ## Capabilities -/

/-- What a permission can allow. -/
inductive Capability where
  | read
  | insert
  | write
  | own
  deriving DecidableEq

/-- Whether a permission allows something. -/
def Permission.allows (p : Permission) : Capability → Bool
  | .read => canRead p
  | .insert => canInsert p
  | .write => canWrite p
  | .own => canOwn p

@[simp] theorem allows_empty (c : Capability) : Permission.empty.allows c = false := by
  cases c <;> rfl

@[simp] theorem allows_owner (c : Capability) : Permission.owner.allows c = true := by
  cases c <;> rfl

/-- Merging is union. -/
@[simp] theorem allows_mergePerm (a b : Permission) (c : Capability) :
    (mergePerm a b).allows c = (a.allows c || b.allows c) := by
  cases a <;> cases b <;> cases c <;> rfl

/-- `p` allows nothing that `q` does not allow. -/
def Permission.Le (p q : Permission) : Prop := ∀ c, p.allows c = true → q.allows c = true

theorem Permission.Le.refl (p : Permission) : p.Le p := fun _ h => h

theorem Permission.Le.trans {p q r : Permission} (h : p.Le q) (h' : q.Le r) : p.Le r :=
  fun c hc => h' c (h c hc)

/-- `p` is a least permission that allows what every member of `S` allows. -/
structure LeastAbove (S : Permission → Prop) (p : Permission) : Prop where
  upper : ∀ q, S q → q.Le p
  least : ∀ r, (∀ q, S q → q.Le r) → p.Le r

/-- A permission is least above a set if each of its capabilities comes from a member. -/
theorem leastAbove_of_allows_iff {S : Permission → Prop} {p : Permission}
    (h : ∀ c, p.allows c = true ↔ ∃ q, S q ∧ q.allows c = true) : LeastAbove S p where
  upper := by
    intro q hq c hc
    exact (h c).mpr ⟨q, hq, hc⟩
  least := by
    intro r hr c hc
    obtain ⟨q, hq, hqc⟩ := (h c).mp hc
    exact hr q hq c hqc

/-- Owning, writing and reading imply one another downward. -/
theorem allows_write_of_own {p : Permission} (h : p.allows .own = true) :
    p.allows .write = true := by
  cases p <;> first | rfl | cases h

theorem allows_insert_of_write {p : Permission} (h : p.allows .write = true) :
    p.allows .insert = true := by
  cases p <;> first | rfl | cases h

/-! ## Inheriting -/

/-- What a grant passes on to a path below its directory; `none` where the loop
goes on to the next grant. -/
def inheritedPerm : Permission → Option Permission
  | .insert => none
  | .readInsert => some .read
  | .readWrite => some .owner
  | p => some p

/-- What a grant passes on to its directory's `.grits`. -/
def gritsParentPerm : Permission → Option Permission
  | .insert => none
  | .readInsert => some .read
  | .readWrite => some .read
  | p => some p

/-- What a grant means at its own directory. -/
def localPerm (lastSegIsGrits : Bool) (p : Permission) : Option Permission :=
  if lastSegIsGrits && p == .readWrite then some .read else some p

end Grits
