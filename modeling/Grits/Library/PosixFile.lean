import Mathlib

/-!
# Files as arrays of bytes

What POSIX says of the contents of a regular file: an unbounded array that is zero from its size
on.  Lists of bytes stand for such files, and the list operations below for reading, writing and
truncating them.
-/

namespace Grits

/-- The contents of a file. -/
@[ext] structure PosixFile (α : Type) [Zero α] where
  size : ℕ
  byte : ℕ → α
  byte_of_le : ∀ i, size ≤ i → byte i = 0

namespace PosixFile

variable {α : Type} [Zero α]

/-- The empty file. -/
def empty : PosixFile α := ⟨0, fun _ => 0, fun _ _ => rfl⟩

/-- At most `len` bytes from the offset, fewer at the end of the file. -/
def read (f : PosixFile α) (off len : ℕ) : List α :=
  (List.range (min len (f.size - off))).map fun i => f.byte (off + i)

/-- Bytes put at the offset; the file grows if need be. -/
def write (f : PosixFile α) (off : ℕ) (data : List α) : PosixFile α where
  size := if data = [] then f.size else max f.size (off + data.length)
  byte i := if off ≤ i ∧ i < off + data.length then data.getD (i - off) 0 else f.byte i
  byte_of_le := by
    intro i hi
    cases data with
    | nil =>
        rw [if_pos rfl] at hi
        rw [if_neg (by simp)]
        exact f.byte_of_le i hi
    | cons first rest =>
        rw [if_neg (List.cons_ne_nil _ _)] at hi
        rw [if_neg (by omega)]
        exact f.byte_of_le i (by omega)

/-- The file cut off or filled up with zeros. -/
def truncate (f : PosixFile α) (size : ℕ) : PosixFile α where
  size := size
  byte i := if i < size then f.byte i else 0
  byte_of_le := by
    intro i _
    rw [if_neg (by omega)]

/-- Nothing written changes nothing. -/
@[simp] theorem write_nil (f : PosixFile α) (off : ℕ) : f.write off [] = f := by
  ext i
  · rfl
  · change (if off ≤ i ∧ i < off + 0 then _ else f.byte i) = f.byte i
    rw [if_neg (by omega)]

/-! ## Lists of bytes -/

/-- The file with these bytes. -/
def ofList (bytes : List α) : PosixFile α where
  size := bytes.length
  byte i := bytes.getD i 0
  byte_of_le := fun _ h => List.getD_eq_default bytes 0 h

/-- `ReadAt` -/
def slice (bytes : List α) (off len : ℕ) : List α := (bytes.drop off).take len

/-- `Truncate` -/
def resize (bytes : List α) (size : ℕ) : List α :=
  bytes.take size ++ List.replicate (size - bytes.length) 0

/-- `WriteAt` -/
def splice (bytes : List α) (off : ℕ) (data : List α) : List α :=
  if data = [] then bytes else resize bytes off ++ data ++ bytes.drop (off + data.length)

variable {bytes data : List α} {off len size : ℕ}

theorem ofList_injective : Function.Injective (ofList : List α → PosixFile α) := by
  intro bytes other h
  have hlength : bytes.length = other.length := congrArg PosixFile.size h
  apply List.ext_getElem hlength
  intro i hi hi'
  have hbyte := congrFun (congrArg PosixFile.byte h) i
  change bytes.getD i 0 = other.getD i 0 at hbyte
  rwa [List.getD_eq_getElem _ _ hi, List.getD_eq_getElem _ _ hi'] at hbyte

@[simp] theorem ofList_nil : ofList ([] : List α) = empty := by
  ext i
  · rfl
  · simp [ofList, empty]

theorem slice_eq_read : slice bytes off len = (ofList bytes).read off len := by
  apply List.ext_getElem
  · simp [slice, read, ofList]
  · intro i hi hi'
    simp only [slice, List.length_take, List.length_drop] at hi
    simp only [slice, read, ofList, List.getElem_take, List.getElem_drop, List.getElem_map,
      List.getElem_range]
    rw [List.getD_eq_getElem _ _ (by omega)]

theorem getD_append_eq (first rest : List α) (i : ℕ) : (first ++ rest).getD i 0 =
    if i < first.length then first.getD i 0 else rest.getD (i - first.length) 0 := by
  split
  next h => rw [List.getD_append _ _ _ _ h]
  next h => rw [List.getD_append_right _ _ _ _ (by omega)]

theorem getD_take_eq (bytes : List α) (n i : ℕ) :
    (bytes.take n).getD i 0 = if i < n then bytes.getD i 0 else 0 := by
  simp only [List.getD_eq_getElem?_getD, List.getElem?_take]
  split
  next => rfl
  next => rfl

theorem getD_drop_eq (bytes : List α) (n i : ℕ) :
    (bytes.drop n).getD i 0 = bytes.getD (n + i) 0 := by
  simp only [List.getD_eq_getElem?_getD, List.getElem?_drop]

theorem getD_zeros (n i : ℕ) : (List.replicate n (0 : α)).getD i 0 = 0 := by
  simp only [List.getD_eq_getElem?_getD, List.getElem?_replicate]
  split
  next => rfl
  next => rfl

@[simp] theorem length_resize : (resize bytes size).length = size := by
  simp only [resize, List.length_append, List.length_take, List.length_replicate]
  omega

theorem getD_resize (i : ℕ) :
    (resize bytes size).getD i 0 = if i < size then bytes.getD i 0 else 0 := by
  rw [resize, getD_append_eq, getD_take_eq, getD_zeros, List.length_take]
  split
  next => rfl
  next h =>
    split
    next => rw [List.getD_eq_default _ _ (by omega)]
    next => rfl

/-- Resizing a list is truncating the file. -/
theorem ofList_resize : ofList (resize bytes size) = (ofList bytes).truncate size := by
  ext i
  · exact length_resize
  · exact getD_resize i

/-- Splicing a list is writing to the file. -/
theorem ofList_splice : ofList (splice bytes off data) = (ofList bytes).write off data := by
  unfold splice
  split
  next h =>
    subst h
    ext i
    · rfl
    · simp [ofList, write]
  next h =>
    have hpos := List.length_pos_of_ne_nil h
    ext i
    · change (resize bytes off ++ data ++ bytes.drop (off + data.length)).length =
        if data = [] then bytes.length else max bytes.length (off + data.length)
      rw [if_neg h]
      simp only [List.length_append, length_resize, List.length_drop]
      omega
    · change (resize bytes off ++ data ++ bytes.drop (off + data.length)).getD i 0 =
        if off ≤ i ∧ i < off + data.length then data.getD (i - off) 0 else bytes.getD i 0
      rw [getD_append_eq, getD_append_eq, getD_resize, getD_drop_eq, List.length_append,
        length_resize]
      -- before the data, in the data, behind the data
      rcases Nat.lt_or_ge i off with hbefore | hoff
      · simp only [hbefore, if_true]
        rw [if_pos (by omega), if_neg (by omega)]
      · rcases Nat.lt_or_ge i (off + data.length) with hin | hbehind
        · rw [if_pos hin, if_neg (by omega), if_pos ⟨hoff, hin⟩]
        · rw [if_neg (by omega), if_neg (by omega)]
          congr 1
          omega

theorem resize_eq_take (h : size ≤ bytes.length) : resize bytes size = bytes.take size := by
  rw [resize, Nat.sub_eq_zero_of_le h, List.replicate_zero, List.append_nil]

theorem resize_length : resize bytes bytes.length = bytes := by
  rw [resize_eq_take le_rfl, List.take_length]

end PosixFile

end Grits
