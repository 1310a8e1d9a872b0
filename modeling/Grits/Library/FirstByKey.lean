import Mathlib.Data.List.Basic
import Mathlib.Data.List.Nodup
import Mathlib.Data.List.Perm.Basic
import Mathlib.Data.List.Range

/-!
# Lists without a repeated key

Appending elements whose key has not been seen keeps, of the elements with one
key, the first.
-/

namespace Grits

namespace FirstByKey

variable {A K : Type} [DecidableEq K] (key : A → K)

/-- Append the elements whose key is new. -/
def appendNew (seen : List A) : List A → List A
  | [] => seen
  | a :: rest =>
      if key a ∈ seen.map key then appendNew seen rest else appendNew (seen ++ [a]) rest

theorem appendNew_append (seen first second : List A) :
    appendNew key seen (first ++ second) = appendNew key (appendNew key seen first) second := by
  induction first generalizing seen with
  | nil => rfl
  | cons a first ih =>
      rw [List.cons_append, appendNew, appendNew]
      split
      next => exact ih seen
      next => exact ih (seen ++ [a])

/-- Appending list after list is appending them all. -/
theorem foldl_appendNew {B : Type} (f : B → List A) (seen : List A) (all : List B) :
    all.foldl (fun seen b => appendNew key seen (f b)) seen =
      appendNew key seen (all.map f).flatten := by
  induction all generalizing seen with
  | nil => rfl
  | cons b all ih => rw [List.foldl_cons, ih, List.map_cons, List.flatten_cons, appendNew_append]

theorem nodup_appendNew {seen : List A} (h : (seen.map key).Nodup) (more : List A) :
    ((appendNew key seen more).map key).Nodup := by
  induction more generalizing seen with
  | nil => exact h
  | cons a more ih =>
      rw [appendNew]
      split
      next => exact ih h
      next hnew =>
        refine ih ?_
        rw [List.map_append, List.nodup_append]
        refine ⟨h, List.nodup_singleton _, ?_⟩
        intro k hk other hother heq
        rw [List.map_singleton, List.mem_singleton] at hother
        rw [← hother, ← heq] at hnew
        exact hnew hk

theorem appendNew_map {B : Type} (f : B → A) (seen more : List B) :
    appendNew key (seen.map f) (more.map f) =
      (appendNew (fun b => key (f b)) seen more).map f := by
  induction more generalizing seen with
  | nil => rfl
  | cons b more ih =>
      rw [List.map_cons, appendNew, appendNew, List.map_map, Function.comp_def]
      split
      next => exact ih seen
      next =>
        rw [← ih, List.map_append, List.map_singleton]

/-- Nothing is left out where no key comes twice. -/
theorem appendNew_of_nodup {seen more : List A} (h : ((seen ++ more).map key).Nodup) :
    appendNew key seen more = seen ++ more := by
  induction more generalizing seen with
  | nil => rw [appendNew, List.append_nil]
  | cons a more ih =>
      have hall : seen ++ a :: more = (seen ++ [a]) ++ more := by simp
      rw [hall] at h ⊢
      have hnew : key a ∉ seen.map key := by
        rw [List.map_append, List.map_append, List.append_assoc] at h
        intro hmem
        exact List.disjoint_of_nodup_append h hmem (by simp)
      rw [appendNew, if_neg hnew, ih h]

/-- What is appended comes after what was there. -/
theorem exists_appendNew (seen more : List A) :
    ∃ new, appendNew key seen more = seen ++ new ∧ ∀ a ∈ new, key a ∉ seen.map key := by
  induction more generalizing seen with
  | nil => exact ⟨[], (List.append_nil seen).symm, fun _ h => absurd h List.not_mem_nil⟩
  | cons a more ih =>
      rw [appendNew]
      split
      next => exact ih seen
      next hnew =>
        obtain ⟨new, hnew', hkeys⟩ := ih (seen ++ [a])
        refine ⟨a :: new, by rw [hnew']; simp, ?_⟩
        intro b hb
        rcases List.mem_cons.mp hb with rfl | hb
        · exact hnew
        · intro hmem
          refine hkeys b hb ?_
          rw [List.map_append]
          exact List.mem_append_left _ hmem

/-- `a` is the first element of the list with its key. -/
def FirstIn (all : List A) (a : A) : Prop :=
  ∃ before after, all = before ++ a :: after ∧ key a ∉ before.map key

variable {key}

omit [DecidableEq K] in
theorem FirstIn.mem {all : List A} {a : A} (h : FirstIn key all a) : a ∈ all := by
  obtain ⟨before, after, rfl, -⟩ := h
  simp

omit [DecidableEq K] in
/-- Two first elements with one key are the same. -/
theorem FirstIn.unique {all : List A} {a b : A} (ha : FirstIn key all a) (hb : FirstIn key all b)
    (hkey : key a = key b) : a = b := by
  obtain ⟨before, after, rfl, hbefore⟩ := ha
  obtain ⟨before', after', heq, hbefore'⟩ := hb
  rcases List.append_eq_append_iff.mp heq with ⟨mid, hmid, hrest⟩ | ⟨mid, hmid, hrest⟩
  · cases mid with
    | nil =>
        rw [List.nil_append] at hrest
        exact (List.cons.inj hrest).1
    | cons first mid =>
        rw [List.cons_append] at hrest
        obtain ⟨rfl, -⟩ := List.cons.inj hrest
        rw [hmid] at hbefore'
        exact absurd (by simp [hkey]) hbefore'
  · cases mid with
    | nil =>
        rw [List.nil_append] at hrest
        exact (List.cons.inj hrest).1.symm
    | cons first mid =>
        rw [List.cons_append] at hrest
        obtain ⟨rfl, -⟩ := List.cons.inj hrest
        rw [hmid] at hbefore
        exact absurd (by simp [hkey]) hbefore

omit [DecidableEq K] in
theorem firstIn_cons {first a : A} {rest : List A} :
    FirstIn key (first :: rest) a ↔ a = first ∨ key a ≠ key first ∧ FirstIn key rest a := by
  constructor
  · rintro ⟨before, after, heq, hbefore⟩
    cases before with
    | nil => exact .inl (List.cons.inj heq).1.symm
    | cons other before =>
        obtain ⟨rfl, hrest⟩ := List.cons.inj heq
        rw [List.map_cons, List.mem_cons, not_or] at hbefore
        exact .inr ⟨hbefore.1, before, after, hrest, hbefore.2⟩
  · rintro (rfl | ⟨hne, before, after, rfl, hbefore⟩)
    · exact ⟨[], rest, rfl, List.not_mem_nil⟩
    · refine ⟨first :: before, after, rfl, ?_⟩
      rw [List.map_cons, List.mem_cons, not_or]
      exact ⟨hne, hbefore⟩

variable (key) in
/-- Every key has a first element. -/
theorem exists_firstIn {all : List A} {a : A} (h : a ∈ all) :
    ∃ b, FirstIn key all b ∧ key b = key a := by
  induction all with
  | nil => cases h
  | cons first rest ih =>
      by_cases hkey : key a = key first
      · exact ⟨first, firstIn_cons.mpr (.inl rfl), hkey.symm⟩
      · have hmem : a ∈ rest := (List.mem_cons.mp h).resolve_left fun heq => hkey (by rw [heq])
        obtain ⟨b, hb, hba⟩ := ih hmem
        exact ⟨b, firstIn_cons.mpr (.inr ⟨by rwa [hba], hb⟩), hba⟩

/-- What is appended is first among the elements with its key. -/
theorem mem_appendNew_iff {seen more : List A} {a : A} :
    a ∈ appendNew key seen more ↔
      a ∈ seen ∨ key a ∉ seen.map key ∧ FirstIn key more a := by
  induction more generalizing seen with
  | nil =>
      rw [appendNew]
      refine ⟨.inl, ?_⟩
      rintro (h | ⟨-, h⟩)
      · exact h
      · exact absurd h.mem List.not_mem_nil
  | cons first more ih =>
      rw [appendNew, firstIn_cons]
      split
      next hseen =>
        rw [ih]
        refine or_congr_right (and_congr_right fun hnew => ?_)
        constructor
        · intro h
          refine .inr ⟨?_, h⟩
          rintro heq
          rw [heq] at hnew
          exact hnew hseen
        · rintro (rfl | ⟨-, h⟩)
          · exact absurd hseen hnew
          · exact h
      next hseen =>
        rw [ih, List.mem_append, List.mem_singleton, List.map_append, List.mem_append, not_or,
          List.map_singleton, List.mem_singleton, or_assoc]
        refine or_congr_right ?_
        constructor
        · rintro (rfl | ⟨⟨hnew, hne⟩, h⟩)
          · exact ⟨hseen, .inl rfl⟩
          · exact ⟨hnew, .inr ⟨hne, h⟩⟩
        · rintro ⟨hnew, rfl | ⟨hne, h⟩⟩
          · exact .inl rfl
          · exact .inr ⟨⟨hnew, hne⟩, h⟩

theorem mem_appendNew_nil {more : List A} {a : A} :
    a ∈ appendNew key [] more ↔ FirstIn key more a := by
  rw [mem_appendNew_iff]
  simp

/-- The first elements of a concatenation. -/
theorem firstIn_append {first second : List A} {a : A} :
    FirstIn key (first ++ second) a ↔
      FirstIn key first a ∨ key a ∉ first.map key ∧ FirstIn key second a := by
  rw [← mem_appendNew_nil, appendNew_append, mem_appendNew_iff, mem_appendNew_nil]
  refine or_congr_right (and_congr_left fun _ => not_congr ?_)
  rw [List.mem_map, List.mem_map]
  constructor
  · rintro ⟨b, hb, hkey⟩
    exact ⟨b, (mem_appendNew_nil.mp hb).mem, hkey⟩
  · rintro ⟨b, hb, hkey⟩
    obtain ⟨c, hc, hcb⟩ := exists_firstIn key hb
    exact ⟨c, mem_appendNew_nil.mpr hc, hcb.trans hkey⟩

/-- The first elements of a list given by its indices. -/
theorem firstIn_map_range {f : ℕ → A} {n : ℕ} {a : A} :
    FirstIn key ((List.range n).map f) a ↔
      ∃ i < n, a = f i ∧ ∀ j < i, key (f j) ≠ key (f i) := by
  induction n with
  | zero =>
      constructor
      · intro h
        exact absurd h.mem List.not_mem_nil
      · rintro ⟨i, hi, -⟩
        exact absurd hi (Nat.not_lt_zero i)
  | succ n ih =>
      have hlast : FirstIn key [f n] a ↔ a = f n := by
        rw [firstIn_cons]
        refine ⟨?_, .inl⟩
        rintro (h | ⟨-, h⟩)
        · exact h
        · exact absurd h.mem List.not_mem_nil
      rw [List.range_succ, List.map_append, firstIn_append, ih, List.map_singleton, hlast]
      constructor
      · rintro (⟨i, hi, rfl, hfirst⟩ | ⟨hnew, rfl⟩)
        · exact ⟨i, by omega, rfl, hfirst⟩
        · refine ⟨n, by omega, rfl, fun j hj heq => hnew ?_⟩
          rw [← heq, List.map_map]
          exact List.mem_map.mpr ⟨j, List.mem_range.mpr hj, rfl⟩
      · rintro ⟨i, hi, rfl, hfirst⟩
        by_cases hin : i = n
        · subst hin
          refine .inr ⟨fun hmem => ?_, rfl⟩
          rw [List.map_map] at hmem
          obtain ⟨j, hj, heq⟩ := List.mem_map.mp hmem
          exact hfirst j (List.mem_range.mp hj) heq
        · exact .inl ⟨i, by omega, rfl, hfirst⟩

/-- Lists of alike elements are merged alike, where alike elements have one key. -/
theorem appendNew_forall₂ {B : Type} {key' : B → K} {R : A → B → Prop}
    (hkey : ∀ a b, R a b → key a = key' b) {seen more : List A} {seen' more' : List B}
    (hseen : List.Forall₂ R seen seen') (hmore : List.Forall₂ R more more') :
    List.Forall₂ R (appendNew key seen more) (appendNew key' seen' more') := by
  have hkeys : ∀ {l : List A} {l' : List B}, List.Forall₂ R l l' → l.map key = l'.map key' := by
    intro l l' h
    induction h with
    | nil => rfl
    | cons hab _ ih => rw [List.map_cons, List.map_cons, hkey _ _ hab, ih]
  induction hmore generalizing seen seen' with
  | nil => exact hseen
  | @cons a b more more' hab _ ih =>
      rw [appendNew, appendNew, hkey a b hab, hkeys hseen]
      split
      next => exact ih hseen
      next => exact ih (List.rel_append hseen (.cons hab .nil))

/-! ## Merging lists -/

variable {lists lists' : List (List A)}

/-- First elements of the lists with one key are the same, across all lists. -/
def Consistent (key : A → K) (lists : List (List A)) : Prop :=
  ∀ list ∈ lists, ∀ list' ∈ lists, ∀ a a', FirstIn key list a → FirstIn key list' a' →
    key a = key a' → a = a'

theorem exists_firstIn_of_flatten {a : A} (h : FirstIn key lists.flatten a) :
    ∃ list ∈ lists, FirstIn key list a := by
  induction lists with
  | nil => exact absurd h.mem List.not_mem_nil
  | cons list lists ih =>
      rw [List.flatten_cons, firstIn_append] at h
      rcases h with h | ⟨-, h⟩
      · exact ⟨list, List.mem_cons_self, h⟩
      · obtain ⟨list', hmem, hfirst⟩ := ih h
        exact ⟨list', List.mem_cons_of_mem _ hmem, hfirst⟩

/-- A merged list has everything that is first in its list, if and only if the lists
are consistent. -/
theorem merged_iff : (∀ list ∈ lists, ∀ a, FirstIn key list a → a ∈ appendNew key [] lists.flatten) ↔
    Consistent key lists := by
  constructor
  · intro h list hlist list' hlist' a a' ha ha' hkey
    have hmem := mem_appendNew_nil.mp (h list hlist a ha)
    exact hmem.unique (mem_appendNew_nil.mp (h list' hlist' a' ha')) hkey
  · intro h list hlist a ha
    have hflatten : a ∈ lists.flatten := List.mem_flatten.mpr ⟨list, hlist, ha.mem⟩
    obtain ⟨b, hb, hkey⟩ := exists_firstIn key hflatten
    obtain ⟨list', hlist', hb'⟩ := exists_firstIn_of_flatten hb
    rw [h list hlist list' hlist' a b ha hb' hkey.symm]
    exact mem_appendNew_nil.mpr hb

theorem nodup_merged (key : A → K) (lists : List (List A)) :
    ((appendNew key [] lists.flatten).map key).Nodup := by
  have hnil : (([] : List A).map key).Nodup := List.nodup_nil
  exact nodup_appendNew key hnil _

/-- The order of consistent lists affects only the order of the merged list. -/
theorem Consistent.perm (h : Consistent key lists) (hperm : lists'.Perm lists) :
    (appendNew key [] lists'.flatten).Perm (appendNew key [] lists.flatten) := by
  have hmem : ∀ {all : List (List A)}, Consistent key all → ∀ a,
      a ∈ appendNew key [] all.flatten ↔ ∃ list ∈ all, FirstIn key list a := by
    intro all hall a
    constructor
    · exact fun ha => exists_firstIn_of_flatten (mem_appendNew_nil.mp ha)
    · rintro ⟨list, hlist, ha⟩
      exact merged_iff.mpr hall list hlist a ha
  have h' : Consistent key lists' := fun list hlist list' hlist' =>
    h list (hperm.mem_iff.mp hlist) list' (hperm.mem_iff.mp hlist')
  rw [List.perm_ext_iff_of_nodup (nodup_merged key lists').of_map (nodup_merged key lists).of_map]
  intro a
  rw [hmem h', hmem h]
  simp only [hperm.mem_iff]

end FirstByKey

end Grits
