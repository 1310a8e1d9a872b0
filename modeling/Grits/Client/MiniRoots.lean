import Grits.Library.Topmost
import Grits.Library.Unicode

/-!
# The mini-roots of a volume

`_miniRoots` of a `GritsVolume` in `client/lib/grits/GritsClient.js`: a map from paths to
addresses from which a lookup can start.  A lookup or link response fills it anew, an
`AccessDeniedError` takes a path out, `resetRoot` takes the addresses away, and logging in
or out empties it.
-/

namespace Grits

namespace MiniRoots

open Topmost

/-! ## The model -/

/-- A string or `undefined`. -/
abbrev JsValue := Option JsString

/-- A value that counts as true. -/
def truthy (value : JsValue) : Bool := value.any fun s => s != []

/-- An entry of a lookup or link response. -/
structure PathEntry where
  path : JsString
  addr : JsValue
  error : JsValue

/-- A value of `_miniRoots`. -/
structure Entry where
  addr : JsValue
  ts : ℤ

/-- `_miniRoots`, in the order of insertion. -/
abbrev Roots := List (JsString × Entry)

/-- The separator of paths. -/
def slash : UInt16 := 0x2f

/-- `_isAncestorOrSelf` -/
def isAncestorOrSelf (ancestorPath targetPath : JsString) : Bool :=
  if ancestorPath == targetPath then true
  else if ancestorPath == [] then true
  else (ancestorPath ++ [slash]).isPrefixOf targetPath

/-- The paths of the mini-roots. -/
def keys (roots : Roots) : List JsString := roots.map (·.1)

/-- `Map.prototype.set` -/
def mapSet (roots : Roots) (path : JsString) (entry : Entry) : Roots :=
  if path ∈ keys roots then
    roots.map fun root => if root.1 = path then (path, entry) else root
  else roots ++ [(path, entry)]

/-- The entries that resolved. -/
def successPaths (paths : List PathEntry) : List PathEntry :=
  paths.filter fun e => !truthy e.error && truthy e.addr

/-- `hasSuccessfulAncestor` -/
def hasSuccessfulAncestor (success : List PathEntry) (entry : PathEntry) : Bool :=
  success.any fun other => other.path != entry.path && isAncestorOrSelf other.path entry.path

/-- The loop over the successful entries.  `Date.now()` is read at each of them. -/
def rebuild (success : List PathEntry) : List PathEntry → List ℤ → Roots → Roots
  | [], _, roots => roots
  | entry :: rest, clock, roots =>
      if hasSuccessfulAncestor success entry then rebuild success rest clock.tail roots
      else rebuild success rest clock.tail
        (mapSet roots entry.path ⟨entry.addr, clock.headD 0⟩)

/-- `_ingestLookupResponse` -/
def ingestLookupResponse (clock : List ℤ) (paths : Option (List PathEntry)) (roots : Roots) :
    Roots :=
  match paths with
  | none | some [] => roots
  | some paths => rebuild (successPaths paths) (successPaths paths) clock []

/-- The test of `_findMiniRoot`: the root is usable for the path. -/
def usable (hardTimeout now : ℤ) (path : JsString) (root : JsString × Entry) : Bool :=
  truthy root.2.addr && !decide (now - root.2.ts > hardTimeout) &&
    (root.1 == [] || path == root.1 || (root.1 ++ [slash]).isPrefixOf path)

/-- `_findMiniRoot`: the first match. -/
def findMiniRoot (hardTimeout now : ℤ) (path : JsString) (roots : Roots) :
    Option (JsString × Entry) :=
  roots.find? (usable hardTimeout now path)

/-- What happens to the mini-roots. -/
inductive Event where
  /-- A lookup or link response is processed. -/
  | response (clock : List ℤ) (paths : Option (List PathEntry))
  /-- A lookup failed with an `AccessDeniedError` for this path. -/
  | accessDenied (path : JsValue)
  /-- `resetRoot` -/
  | resetRoot
  /-- `login` or `logout` -/
  | clear

/-- The mini-roots after an event. -/
def next (roots : Roots) : Event → Roots
  | .response clock paths => ingestLookupResponse clock paths roots
  | .accessDenied path => roots.filter fun root => some root.1 != path
  | .resetRoot => roots.map fun root => (root.1, { root.2 with addr := none })
  | .clear => []

/-- The mini-roots of a volume after some events. -/
def after (events : List Event) : Roots := events.foldl next []

/-! ## Paths -/

theorem isAncestorOrSelf_iff {a b : JsString} :
    isAncestorOrSelf a b ↔ a = b ∨ a = [] ∨ a ++ [slash] <+: b := by
  rw [isAncestorOrSelf]
  split
  next h => simp [beq_iff_eq.mp h]
  next h =>
    have hne : a ≠ b := fun heq => h (beq_iff_eq.mpr heq)
    split
    next hroot => simp [beq_iff_eq.mp hroot]
    next hroot =>
      have hne' : a ≠ [] := fun heq => hroot (beq_iff_eq.mpr heq)
      simp [hne, hne']

/-- Two proper ancestors of one path. -/
theorem comparable_of_slash {a b c : JsString} (ha : a ++ [slash] <+: c) (hb : b ++ [slash] <+: c)
    (hle : a.length ≤ b.length) : a = b ∨ a ++ [slash] <+: b := by
  have hpre : a ++ [slash] <+: b ++ [slash] := by
    apply List.prefix_of_prefix_length_le ha hb
    simp [hle]
  rcases Nat.eq_or_lt_of_le hle with heq | hlt
  · left
    have hlength : (a ++ [slash]).length = (b ++ [slash]).length := by simp [heq]
    exact List.append_cancel_right (hpre.eq_of_length hlength)
  · right
    apply List.prefix_of_prefix_length_le hpre (List.prefix_append b [slash])
    simpa using hlt

/-- Paths are a forest. -/
theorem forest : Forest (fun a b => isAncestorOrSelf a b = true) List.length := by
  constructor
  · intro a
    exact isAncestorOrSelf_iff.mpr (.inl rfl)
  · intro a b c hab hbc
    rw [isAncestorOrSelf_iff] at hab hbc ⊢
    rcases hab with rfl | rfl | hab
    · exact hbc
    · exact .inr (.inl rfl)
    · rcases hbc with rfl | rfl | hbc
      · exact .inr (.inr hab)
      · simp at hab
      · exact .inr (.inr (hab.trans ((List.prefix_append b [slash]).trans hbc)))
  · intro a b hab hne
    rcases isAncestorOrSelf_iff.mp hab with rfl | rfl | hab
    · exact absurd rfl hne
    · exact List.length_pos_iff.mpr (Ne.symm hne)
    · have hlength := hab.length_le
      rw [List.length_append, List.length_singleton] at hlength
      omega
  · intro a b c hac hbc
    rw [isAncestorOrSelf_iff, isAncestorOrSelf_iff]
    rcases isAncestorOrSelf_iff.mp hac with rfl | rfl | hac
    · exact .inr (isAncestorOrSelf_iff.mp hbc)
    · exact .inl (.inr (.inl rfl))
    · rcases isAncestorOrSelf_iff.mp hbc with rfl | rfl | hbc
      · exact .inl (.inr (.inr hac))
      · exact .inr (.inr (.inl rfl))
      · rcases Nat.le_total a.length b.length with hle | hle
        · exact .inl ((comparable_of_slash hac hbc hle).imp id .inr)
        · exact .inr ((comparable_of_slash hbc hac hle).imp id .inr)

theorem isTopmost_iff {success : List PathEntry} {entry : PathEntry} (hmem : entry ∈ success) :
    IsTopmost (fun a b => isAncestorOrSelf a b = true) (success.map (·.path)) entry.path ↔
      hasSuccessfulAncestor success entry = false := by
  rw [hasSuccessfulAncestor, List.any_eq_false]
  constructor
  · intro htop other hother habove
    rw [Bool.and_eq_true, bne_iff_ne] at habove
    exact habove.1 (htop.none_above other.path (List.mem_map_of_mem hother) habove.2)
  · intro hnone
    refine ⟨List.mem_map_of_mem hmem, ?_⟩
    intro path hpath habove
    obtain ⟨other, hother, rfl⟩ := List.mem_map.mp hpath
    by_contra hne
    apply hnone other hother
    rw [Bool.and_eq_true, bne_iff_ne]
    exact ⟨hne, habove⟩

/-! ## The map -/

theorem keys_mapSet (roots : Roots) (path : JsString) (entry : Entry) :
    keys (mapSet roots path entry) =
      if path ∈ keys roots then keys roots else keys roots ++ [path] := by
  by_cases h : path ∈ keys roots
  · rw [mapSet, if_pos h, if_pos h, keys, List.map_map]
    refine List.map_congr_left fun root _ => ?_
    show (if root.1 = path then (path, entry) else root).1 = root.1
    split
    next heq => exact heq.symm
    next => rfl
  · rw [mapSet, if_neg h, if_neg h, keys, List.map_append]
    rfl

theorem mem_keys_mapSet {roots : Roots} {path other : JsString} {entry : Entry} :
    other ∈ keys (mapSet roots path entry) ↔ other ∈ keys roots ∨ other = path := by
  rw [keys_mapSet]
  split
  next h =>
    constructor
    · exact .inl
    · rintro (hother | rfl)
      · exact hother
      · exact h
  next h => rw [List.mem_append, List.mem_singleton]

theorem nodup_mapSet {roots : Roots} (h : (keys roots).Nodup) (path : JsString) (entry : Entry) :
    (keys (mapSet roots path entry)).Nodup := by
  rw [keys_mapSet]
  split
  next => exact h
  next hnew =>
    rw [List.nodup_append']
    refine ⟨h, List.nodup_singleton path, ?_⟩
    exact List.disjoint_singleton.mpr hnew

theorem mem_keys_rebuild {success : List PathEntry} (entries : List PathEntry) {clock : List ℤ}
    {roots : Roots} {path : JsString} :
    path ∈ keys (rebuild success entries clock roots) ↔ path ∈ keys roots ∨
      ∃ entry ∈ entries, entry.path = path ∧ hasSuccessfulAncestor success entry = false := by
  induction entries generalizing clock roots with
  | nil => simp [rebuild]
  | cons entry entries ih =>
      rw [rebuild]
      split
      next hancestor =>
        rw [ih, List.exists_mem_cons_iff, hancestor]
        simp only [Bool.true_eq_false, and_false, false_or]
      next hancestor =>
        rw [ih, mem_keys_mapSet, or_assoc, List.exists_mem_cons_iff, Bool.eq_false_iff.mpr hancestor]
        simp only [and_true, eq_comm (a := entry.path)]

theorem nodup_rebuild {success : List PathEntry} (entries : List PathEntry) {clock : List ℤ}
    {roots : Roots} (h : (keys roots).Nodup) :
    (keys (rebuild success entries clock roots)).Nodup := by
  induction entries generalizing clock roots with
  | nil => exact h
  | cons entry entries ih =>
      rw [rebuild]
      split
      next => exact ih h
      next => exact ih (nodup_mapSet h entry.path _)

/-- A response with entries makes mini-roots of the topmost paths that resolved. -/
theorem mem_keys_ingest {clock : List ℤ} {paths : List PathEntry} (hne : paths ≠ [])
    {roots : Roots} {path : JsString} :
    path ∈ keys (ingestLookupResponse clock (some paths) roots) ↔
      IsTopmost (fun a b => isAncestorOrSelf a b = true) ((successPaths paths).map (·.path))
        path := by
  obtain ⟨first, rest, rfl⟩ := List.exists_cons_of_ne_nil hne
  show path ∈ keys (rebuild _ _ clock []) ↔ _
  rw [mem_keys_rebuild]
  constructor
  · rintro (hnil | ⟨entry, hentry, rfl, hancestor⟩)
    · exact absurd hnil List.not_mem_nil
    · exact (isTopmost_iff hentry).mpr hancestor
  · intro htop
    obtain ⟨entry, hentry, rfl⟩ := List.mem_map.mp htop.mem
    exact .inr ⟨entry, hentry, rfl, (isTopmost_iff hentry).mp htop⟩

/-! ## What holds after every event -/

/-- One entry for each path, and no path above another one. -/
structure Valid (roots : Roots) : Prop where
  nodup : (keys roots).Nodup
  antichain : IsAntichain (fun a b => isAncestorOrSelf a b = true) {path | path ∈ keys roots}

theorem Valid.sublist {roots roots' : Roots} (h : Valid roots)
    (hsub : (keys roots').Sublist (keys roots)) : Valid roots' where
  nodup := hsub.nodup h.nodup
  antichain := h.antichain.subset fun _ hpath => hsub.subset hpath

theorem valid_nil : Valid [] where
  nodup := List.nodup_nil
  antichain := fun _ ha => absurd ha List.not_mem_nil

theorem Valid.ingest {roots : Roots} (h : Valid roots) (clock : List ℤ)
    (paths : Option (List PathEntry)) : Valid (ingestLookupResponse clock paths roots) := by
  cases hpaths : paths with
  | none => exact h
  | some paths =>
      by_cases hnil : paths = []
      · subst hnil
        exact h
      · constructor
        · obtain ⟨first, rest, rfl⟩ := List.exists_cons_of_ne_nil hnil
          exact nodup_rebuild _ List.nodup_nil
        · intro a ha b hb
          rw [Set.mem_ofPred_eq, mem_keys_ingest hnil] at ha hb
          exact isAntichain ha hb

theorem Valid.next {roots : Roots} (h : Valid roots) (event : Event) :
    Valid (next roots event) := by
  cases event with
  | response clock paths => exact h.ingest clock paths
  | accessDenied path => exact h.sublist (List.filter_sublist.map _)
  | resetRoot =>
      apply h.sublist
      rw [keys, MiniRoots.next, List.map_map]
      exact List.Sublist.refl _
  | clear => exact valid_nil

theorem valid_after (events : List Event) : Valid (after events) := by
  induction events using List.reverseRecOn with
  | nil => exact valid_nil
  | append_singleton events event ih =>
      rw [after, List.foldl_concat]
      exact ih.next event

/-- No two mini-roots match one path. -/
theorem Valid.match_unique {roots : Roots} (h : Valid roots) {path : JsString}
    {root other : JsString × Entry} (hroot : root ∈ roots) (hother : other ∈ roots)
    (hmatch : isAncestorOrSelf root.1 path = true)
    (hmatch' : isAncestorOrSelf other.1 path = true) : root = other := by
  have hpath : root.1 = other.1 := forest.antichain_unique h.antichain
    (List.mem_map_of_mem hroot) (List.mem_map_of_mem hother) hmatch hmatch'
  exact List.inj_on_of_nodup_map h.nodup hroot hother hpath

theorem usable_iff {hardTimeout now : ℤ} {path : JsString} {root : JsString × Entry} :
    usable hardTimeout now path root = true ↔
      truthy root.2.addr = true ∧ now - root.2.ts ≤ hardTimeout ∧
        isAncestorOrSelf root.1 path = true := by
  rw [usable, isAncestorOrSelf_iff, Bool.and_eq_true, Bool.and_eq_true, Bool.or_eq_true,
    Bool.or_eq_true, beq_iff_eq, beq_iff_eq, List.isPrefixOf_iff_prefix, Bool.not_eq_true',
    decide_eq_false_iff_not, gt_iff_lt, not_lt, or_assoc, or_left_comm, and_assoc,
    eq_comm (a := path)]

/-- The mini-roots are an antichain and cover what resolved in the last response, and the
first match for a path is the only one. -/
theorem miniRoots_cover (events : List Event) :
    (∀ a ∈ keys (after events), ∀ b ∈ keys (after events), a ≠ b →
      isAncestorOrSelf a b = false) ∧
    (∀ clock paths, ∀ entry ∈ successPaths paths,
      ∃! root, root ∈ keys (after (events ++ [.response clock (some paths)])) ∧
        isAncestorOrSelf root entry.path = true) ∧
    (∀ path, ∀ root ∈ after events, ∀ other ∈ after events,
      isAncestorOrSelf root.1 path = true → isAncestorOrSelf other.1 path = true →
        root = other) ∧
    ∀ hardTimeout now path root, findMiniRoot hardTimeout now path (after events) = some root ↔
      root ∈ after events ∧ usable hardTimeout now path root = true := by
  have hvalid := valid_after events
  refine ⟨?_, ?_, ?_, ?_⟩
  · intro a ha b hb hne
    exact Bool.eq_false_iff.mpr (hvalid.antichain ha hb hne)
  · intro clock paths entry hentry
    have hne : paths ≠ [] := by
      rintro rfl
      exact absurd hentry List.not_mem_nil
    have hafter : after (events ++ [.response clock (some paths)]) =
        ingestLookupResponse clock (some paths) (after events) := by
      rw [after, List.foldl_concat]
      rfl
    rw [hafter]
    obtain ⟨top, htop, habove⟩ := forest.exists_topmost (List.mem_map_of_mem hentry)
    refine ⟨top, ⟨(mem_keys_ingest hne).mpr htop, habove⟩, ?_⟩
    rintro other ⟨hother, habove'⟩
    exact forest.antichain_unique (hvalid.ingest clock (some paths)).antichain hother
      ((mem_keys_ingest hne).mpr htop) habove' habove
  · intro path root hroot other hother hmatch hmatch'
    exact hvalid.match_unique hroot hother hmatch hmatch'
  · intro hardTimeout now path root
    rw [findMiniRoot]
    constructor
    · intro hfind
      exact ⟨List.mem_of_find?_eq_some hfind, List.find?_some hfind⟩
    · rintro ⟨hroot, husable⟩
      obtain ⟨first, hfirst⟩ := Option.isSome_iff_exists.mp
        (List.find?_isSome.mpr ⟨root, hroot, husable⟩)
      have hmatch : isAncestorOrSelf first.1 path = true :=
        (usable_iff.mp (List.find?_some hfirst)).2.2
      have hmatch' : isAncestorOrSelf root.1 path = true := (usable_iff.mp husable).2.2
      have hsame : first = root :=
        hvalid.match_unique (List.mem_of_find?_eq_some hfirst) hroot hmatch hmatch'
      rw [hfirst, hsame]

end MiniRoots

end Grits
