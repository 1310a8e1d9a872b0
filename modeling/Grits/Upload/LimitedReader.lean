import Grits.NameStore.Encoding
import Mathlib.Tactic

/-!
# Reading a body up to a limit

`limitedReader` of `internal/gritsd/module_http.go`, which `handleBlobUpload` and `handleLink`
put around the body of a request, and the loop of `io.Copy` and `io.ReadAll` over it.
-/

namespace Grits

namespace LimitedReader

/-- An `io.Reader` over a body.  A `Read` with a buffer of `n` bytes gives bytes, whether it
returns `io.EOF`, and the state after it. -/
structure Reader (σ : Type) where
  read : σ → ℕ → Bytes × Bool × σ
  /-- What is left of the body. -/
  rest : σ → Bytes
  length_read : ∀ s n, (read s n).1.length ≤ n
  rest_eq : ∀ s n, rest s = (read s n).1 ++ rest (read s n).2.2
  rest_of_eof : ∀ s n, (read s n).2.1 = true → rest (read s n).2.2 = []

/-- What a `Read` returns beside its bytes. -/
inductive ReadError where
  | eof
  /-- "request body too large" -/
  | tooLarge
  deriving DecidableEq

variable {σ : Type} (R : Reader σ)

/-- `limitedReader.Read` with a buffer of `n` bytes. -/
def Reader.readLimited (remaining : ℤ) (s : σ) (n : ℕ) : Bytes × Option ReadError × ℤ × σ :=
  if remaining ≤ 0 then ([], some .tooLarge, remaining, s)
  else
    let n := if remaining < n then remaining.toNat else n
    let (data, eof, s) := R.read s n
    (data, if eof then some .eof else none, remaining - data.length, s)

/-- A loop of reads with these buffers: what is read until the end of the file, or an error.
Nothing if neither comes up. -/
def Reader.readAll : List ℕ → ℤ → σ → Option (Except ReadError Bytes)
  | [], _, _ => none
  | n :: buffers, remaining, s =>
      match R.readLimited remaining s n with
      | (data, none, remaining, s) => (readAll buffers remaining s).map (Except.map (data ++ ·))
      | (data, some .eof, _, _) => some (.ok data)
      | (_, some .tooLarge, _, _) => some (.error .tooLarge)

/-- If no read asks for more than is left of the body, the end is reported with its last
byte. -/
def Reader.EndsWithData : List ℕ → σ → Prop
  | [], _ => False
  | n :: buffers, s =>
      R.rest s ≠ [] ∧ ((R.read s (min n (R.rest s).length)).2.1 = true ∨
        EndsWithData buffers (R.read s (min n (R.rest s).length)).2.2)

/-! ## One read -/

variable {R} {s : σ} {remaining : ℤ} {n : ℕ} {buffers : List ℕ}
  {outcome : Except ReadError Bytes}

theorem Reader.readLimited_of_nonpos (h : remaining ≤ 0) :
    R.readLimited remaining s n = ([], some .tooLarge, remaining, s) := if_pos h

/-- A read that is allowed gets to the reader, with a buffer no longer than the limit. -/
theorem Reader.readLimited_of_pos (h : 0 < remaining) :
    R.readLimited remaining s n =
      ((R.read s (min n remaining.toNat)).1,
        if (R.read s (min n remaining.toNat)).2.1 then some .eof else none,
        remaining - (R.read s (min n remaining.toNat)).1.length,
        (R.read s (min n remaining.toNat)).2.2) := by
  have hbuffer : (if remaining < n then remaining.toNat else n) = min n remaining.toNat := by
    split
    · omega
    · omega
  rw [readLimited, if_neg (not_le.mpr h), hbuffer]

/-- A round of the loop that is allowed. -/
theorem Reader.readAll_cons (h : 0 < remaining) :
    R.readAll (n :: buffers) remaining s =
      if (R.read s (min n remaining.toNat)).2.1 then
        some (.ok (R.read s (min n remaining.toNat)).1)
      else
        (R.readAll buffers (remaining - (R.read s (min n remaining.toNat)).1.length)
          (R.read s (min n remaining.toNat)).2.2).map
            (Except.map ((R.read s (min n remaining.toNat)).1 ++ ·)) := by
  rw [readAll, readLimited_of_pos h]
  split_ifs
  · simp
  · simp

/-- What a read takes off the body. -/
theorem Reader.length_rest (s : σ) (n : ℕ) :
    (R.rest s).length = (R.read s n).1.length + (R.rest (R.read s n).2.2).length := by
  have h := congrArg List.length (R.rest_eq s n)
  rwa [List.length_append] at h

/-- A read that reports the end has read the rest. -/
theorem Reader.read_of_eof (h : (R.read s n).2.1 = true) : (R.read s n).1 = R.rest s := by
  rw [R.rest_eq s n, R.rest_of_eof s n h, List.append_nil]

/-! ## The loop -/

/-- A body below the limit is read whole. -/
theorem Reader.readAll_of_lt (h : ((R.rest s).length : ℤ) < remaining)
    (hend : R.readAll buffers remaining s = some outcome) : outcome = .ok (R.rest s) := by
  induction buffers generalizing s remaining outcome with
  | nil => cases hend
  | cons n buffers ih =>
      rw [readAll_cons (by omega)] at hend
      have hlength := R.length_rest s (min n remaining.toNat)
      split_ifs at hend with heof
      · rw [read_of_eof heof] at hend
        exact (Option.some.inj hend).symm
      · obtain ⟨outcome', hrest, rfl⟩ := Option.map_eq_some_iff.mp hend
        rw [ih (by omega) hrest, R.rest_eq s (min n remaining.toNat)]
        rfl

/-- A body above the limit is not read to its end. -/
theorem Reader.readAll_of_gt (h : remaining < (R.rest s).length)
    (hend : R.readAll buffers remaining s = some outcome) : outcome = .error .tooLarge := by
  induction buffers generalizing s remaining outcome with
  | nil => cases hend
  | cons n buffers ih =>
      by_cases hpos : 0 < remaining
      · rw [readAll_cons hpos] at hend
        have hlength := R.length_rest s (min n remaining.toNat)
        have hread := R.length_read s (min n remaining.toNat)
        split_ifs at hend with heof
        · -- the end is not reached by a read within the limit
          have hnil := R.rest_of_eof s _ heof
          rw [hnil, List.length_nil] at hlength
          omega
        · obtain ⟨outcome', hrest, rfl⟩ := Option.map_eq_some_iff.mp hend
          rw [ih (by omega) hrest]
          rfl
      · rw [readAll, readLimited_of_nonpos (not_lt.mp hpos)] at hend
        exact (Option.some.inj hend).symm

/-- A body of the length of the limit is read whole exactly if its end is reported with its
last byte. -/
theorem Reader.readAll_of_eq (h : remaining = (R.rest s).length)
    (hend : R.readAll buffers remaining s = some outcome) :
    outcome = .ok (R.rest s) ↔ R.EndsWithData buffers s := by
  induction buffers generalizing s remaining outcome with
  | nil => cases hend
  | cons n buffers ih =>
      have hnat : remaining.toNat = (R.rest s).length := by omega
      rw [EndsWithData]
      by_cases hpos : 0 < remaining
      · have hne : R.rest s ≠ [] := by
          intro hnil
          rw [hnil, List.length_nil] at h
          omega
        rw [readAll_cons hpos, hnat] at hend
        rw [and_iff_right hne]
        have hlength := R.length_rest s (min n (R.rest s).length)
        split_ifs at hend with heof
        · rw [read_of_eof heof] at hend
          exact iff_of_true (Option.some.inj hend).symm (.inl heof)
        · obtain ⟨outcome', hrest, rfl⟩ := Option.map_eq_some_iff.mp hend
          have hih := ih (by omega) hrest
          rw [or_iff_right heof, ← hih]
          cases outcome' with
          | error e =>
              refine iff_of_false ?_ ?_
              · intro heq
                cases heq
              · intro heq
                cases heq
          | ok data =>
              generalize min n (R.rest s).length = m
              show Except.ok ((R.read s m).1 ++ data) = Except.ok (R.rest s) ↔ _
              rw [R.rest_eq s m, Except.ok.injEq, Except.ok.injEq]
              exact List.append_right_inj _
      · have hnil : R.rest s = [] := List.length_eq_zero_iff.mp (by omega)
        rw [readAll, readLimited_of_nonpos (not_lt.mp hpos)] at hend
        have hfailed : Except.error ReadError.tooLarge = outcome := Option.some.inj hend
        refine iff_of_false ?_ ?_
        · rw [← hfailed]
          intro heq
          cases heq
        · rintro ⟨hne, -⟩
          exact hne hnil

/-- Reading succeeds with the whole body exactly if the body is within the limit: this holds
but for a body of the length of the limit whose end is reported in a read of its own. -/
theorem readAll_within_limit_iff (R : Reader σ) (s : σ) (maxSize : ℤ) (buffers : List ℕ)
    (outcome : Except ReadError Bytes) (hend : R.readAll buffers maxSize s = some outcome) :
    (outcome = .ok (R.rest s) ↔ ((R.rest s).length : ℤ) ≤ maxSize) ↔
      ((R.rest s).length : ℤ) ≠ maxSize ∨ R.EndsWithData buffers s := by
  rcases lt_trichotomy ((R.rest s).length : ℤ) maxSize with hlt | heq | hgt
  · rw [Reader.readAll_of_lt hlt hend]
    exact iff_of_true (iff_of_true rfl hlt.le) (.inl hlt.ne)
  · rw [Reader.readAll_of_eq heq.symm hend, iff_true_right heq.le]
    exact (or_iff_right (not_not_intro heq)).symm
  · rw [Reader.readAll_of_gt hgt hend]
    refine iff_of_true (iff_of_false ?_ (not_le.mpr hgt)) (.inl hgt.ne')
    intro h
    cases h

/-! ## Readers that come to an end -/

/-- The reader gives a byte to a buffer that has room for it, and the end once there is none. -/
def Reader.Proceeds (R : Reader σ) : Prop :=
  ∀ s n, 0 < n → (R.rest s ≠ [] → (R.read s n).1 ≠ []) ∧ (R.rest s = [] → (R.read s n).2.1 = true)

/-- Of a reader that proceeds the loop comes to an end. -/
theorem Reader.exists_outcome (hR : R.Proceeds) (hbuffers : ∀ n ∈ buffers, 0 < n)
    (henough : (R.rest s).length < buffers.length) :
    ∃ outcome, R.readAll buffers remaining s = some outcome := by
  induction buffers generalizing s remaining with
  | nil => exact absurd henough (Nat.not_lt_zero _)
  | cons n buffers ih =>
      by_cases hpos : 0 < remaining
      · rw [readAll_cons hpos]
        have hn : 0 < min n remaining.toNat := by
          have := hbuffers n List.mem_cons_self
          omega
        obtain ⟨hdata, heof⟩ := hR s (min n remaining.toNat) hn
        split_ifs with hend
        · exact ⟨_, rfl⟩
        · have hne : R.rest s ≠ [] := fun hnil => hend (heof hnil)
          have hlength := R.length_rest s (min n remaining.toNat)
          have hread := List.length_pos_iff.mpr (hdata hne)
          rw [List.length_cons] at henough
          have hrest : ∃ outcome, R.readAll buffers
              (remaining - (R.read s (min n remaining.toNat)).1.length)
              (R.read s (min n remaining.toNat)).2.2 = some outcome :=
            ih (fun m hm => hbuffers m (List.mem_cons_of_mem _ hm)) (by omega)
          obtain ⟨outcome, houtcome⟩ := hrest
          rw [houtcome]
          exact ⟨_, rfl⟩
      · rw [readAll, readLimited_of_nonpos (not_lt.mp hpos)]
        exact ⟨_, rfl⟩

/-! ## A reader of bytes in memory -/

/-- `bytes.Reader`, which reports the end in a read of its own unless `together`. -/
def bytesReader (together : Bool) : Reader Bytes where
  read s n := (s.take n, if together then s.drop n = [] else s = [], s.drop n)
  rest := id
  length_read s n := by simp
  rest_eq s n := (List.take_append_drop n s).symm
  rest_of_eof s n := by
    cases together with
    | true => simp
    | false =>
        intro h
        have hnil : s = [] := by simpa using h
        simp [hnil]

theorem readAll_within_limit_iff_together :
    (bytesReader true).readAll [2, 2] 3 [1, 2, 3] = some (.ok [1, 2, 3]) ∧
      (((bytesReader true).rest [1, 2, 3]).length : ℤ) ≤ 3 := by
  have hend : (bytesReader true).readAll [2, 2] 3 [1, 2, 3] = some (.ok [1, 2, 3]) := by decide
  have hiff := readAll_within_limit_iff (bytesReader true) [1, 2, 3] 3 [2, 2] (.ok [1, 2, 3]) hend
  have htogether : (bytesReader true).EndsWithData [2, 2] [1, 2, 3] := by
    refine ⟨by decide, .inr ⟨by decide, .inl (by decide)⟩⟩
  exact ⟨hend, (hiff.mpr (.inr htogether)).mp rfl⟩

/-- A body of three bytes is refused with a limit of three bytes. -/
theorem readAll_within_limit_fails :
    ∃ outcome, (bytesReader false).readAll [2, 2, 2] 3 [1, 2, 3] = some outcome ∧
      ¬ (outcome = .ok ((bytesReader false).rest [1, 2, 3]) ↔
        (((bytesReader false).rest [1, 2, 3]).length : ℤ) ≤ 3) := by
  refine ⟨.error .tooLarge, by decide, ?_⟩
  decide

end LimitedReader

end Grits
