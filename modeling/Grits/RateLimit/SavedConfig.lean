import Grits.Library.Json
import Grits.RateLimit.CheckLimit
import Mathlib

/-!
# Saving the rate limits

`RateLimitModuleConfig` of `internal/gritsd/module_rate_limit.go` from and to JSON, with
`UnmarshalDurationFields` of `internal/grits/config.go` and `SerializeModuleConfig` of
`internal/gritsd/modules.go`.  `encoding/json` calls a `MarshalJSON` that has a pointer
receiver on addressable values only; the values of a map are not addressable.
-/

namespace Grits

namespace SavedConfig

open Json

/-- What Go makes of numbers and durations. -/
structure GoText where
  /-- `int64(n)` of the `float64` that the number is read as. -/
  toInt64 : List Char → ℤ
  /-- The number, read as a `float64` and written again. -/
  rewrite : List Char → List Char
  /-- `time.ParseDuration` -/
  parseDuration : GoString → Option ℤ
  /-- `Duration.String` -/
  durationString : ℤ → GoString

/-- An object as a map; of members with one key the last counts. -/
abbrev JsonMap := AList fun _ : GoString => Value

/-- `RateLimitModuleConfig`, in some order of its keys. -/
structure RateLimitModuleConfig where
  limits : AList fun _ : GoString => RateLimitEntry

/-- The two configurations have the same limits. -/
def RateLimitModuleConfig.Same (c c' : RateLimitModuleConfig) : Prop :=
  ∀ name, c.limits.lookup name = c'.limits.lookup name

/-! ## Reading -/

/-- Why `UnmarshalDurationFields` fails. -/
inductive FieldError where
  /-- The value is not an object. -/
  | notObject
  /-- "field %s: expected duration string, got %T" -/
  | expectedDurationString (field : GoString)
  /-- "field %s: invalid duration %q: %v" -/
  | invalidDuration (field text : GoString)
  deriving DecidableEq

/-- Why a configuration is not accepted. -/
inductive ConfigError where
  /-- The configuration is not an object. -/
  | notObject
  /-- "rateLimit: invalid entry %q: %w" -/
  | invalidEntry (key : GoString) (err : FieldError)
  /-- A check of the entry fails. -/
  | refused (err : EntryError)
  deriving DecidableEq

/-- `json.Unmarshal` into a map. -/
def unmarshalMap : Value → Option JsonMap
  | .null => some ∅
  | .object members => some (members.foldl (fun raw member => raw.insert member.1 member.2) ∅)
  | _ => none

variable (G : GoText)

/-- An `int64` field: a value that is no number is passed over. -/
def intField (raw : JsonMap) (jsonName : GoString) : ℤ :=
  match raw.lookup jsonName with
  | some (.number text) => G.toInt64 text
  | _ => 0

/-- A `time.Duration` field. -/
def durationField (raw : JsonMap) (jsonName : GoString) : Except FieldError ℤ :=
  match raw.lookup jsonName with
  | none => .ok 0
  | some (.string text) =>
      match G.parseDuration text with
      | some d => .ok d
      | none => .error (.invalidDuration jsonName text)
  | some _ => .error (.expectedDurationString jsonName)

/-- `UnmarshalDurationFields` into a `RateLimitEntry`: its `max`, `duration` and `cost`. -/
def unmarshalEntry (val : Value) : Except FieldError (ℤ × ℤ × ℤ) :=
  match unmarshalMap val with
  | none => .error .notObject
  | some raw => do
      let duration ← durationField G raw "duration".toList
      .ok (intField G raw "max".toList, duration, intField G raw "cost".toList)

/-- A round of the loop of `RateLimitModuleConfig.UnmarshalJSON`. -/
def readLimit (raw : JsonMap) (c : RateLimitModuleConfig) (key : GoString) :
    Except ConfigError RateLimitModuleConfig :=
  if key = "module".toList then .ok c
  else
    match raw.lookup key with
    | none => .ok c
    | some val =>
        match unmarshalEntry G val with
        | .error err => .error (.invalidEntry key err)
        | .ok (max, duration, cost) =>
            match checkEntry key max duration cost with
            | .error err => .error (.refused err)
            | .ok entry => .ok ⟨c.limits.insert key entry⟩

/-- `RateLimitModuleConfig.UnmarshalJSON`, which goes through the map in the order `order`. -/
def unmarshalJSON (order : List GoString) (data : Value) :
    Except ConfigError RateLimitModuleConfig :=
  match unmarshalMap data with
  | none => .error .notObject
  | some raw => order.foldlM (readLimit G raw) ⟨∅⟩

/-- The order goes through the keys of the object. -/
def Iterates (order : List GoString) (data : Value) : Prop :=
  ∀ raw, unmarshalMap data = some raw → order.Perm raw.keys

/-! ## Writing -/

/-- An `int64` as a number. -/
def marshalInt (n : ℤ) : Value := .number (ofAscii (Decimal.formatInt n))

/-- The field `cost`, which is left out if it is zero. -/
def costMember (cost : ℤ) : List (List Char × Value) :=
  if cost = 0 then [] else [("cost".toList, marshalInt cost)]

/-- `RateLimitEntry.MarshalJSON`, which is `MarshalDurationFields`. -/
def marshalDurationFields (entry : RateLimitEntry) : Value :=
  .object (costMember entry.cost ++ [("duration".toList, .string (G.durationString entry.duration)),
    ("max".toList, marshalInt entry.max)])

/-- A `RateLimitEntry` field by field: `time.Duration` is an integer. -/
def marshalFields (entry : RateLimitEntry) : Value :=
  .object ([("max".toList, marshalInt entry.max), ("duration".toList, marshalInt entry.duration)] ++
    costMember entry.cost)

/-- `json.Marshal` of a `RateLimitEntry`. -/
def marshalEntry (addressable : Bool) (entry : RateLimitEntry) : Value :=
  if addressable then marshalDurationFields G entry else marshalFields entry

/-- `RateLimitModuleConfig.MarshalJSON`: the entries are the values of a map. -/
def marshalJSON (c : RateLimitModuleConfig) : Value :=
  .object ((c.limits.entries.map fun entry => (entry.1, marshalEntry G false entry.2)).insertionSort
    fun member other => member.1 ≤ other.1)

mutual

/-- The value, read into an `any` and written again. -/
def throughAny : Value → Value
  | .number text => .number (G.rewrite text)
  | .array items => .array (throughAnyItems items)
  | .object members => .object (throughAnyMembers members)
  | .null => .null
  | .bool value => .bool value
  | .string value => .string value

def throughAnyItems : List Value → List Value
  | [] => []
  | item :: items => throughAny item :: throughAnyItems items

def throughAnyMembers : List (List Char × Value) → List (List Char × Value)
  | [] => []
  | (key, value) :: members => (key, throughAny value) :: throughAnyMembers members

end

/-- `configMap["module"] = module.GetModuleName()` -/
def setModule (name : GoString) : Value → Value
  | .object members =>
      .object ((members.filter fun member => member.1 ≠ "module".toList) ++
        [("module".toList, .string name)])
  | value => value

/-- `SerializeModuleConfig` -/
def serializeModuleConfig (c : RateLimitModuleConfig) : Value :=
  setModule "rateLimit".toList (throughAny G (marshalJSON G c))

/-! ## What was read -/

variable {G} {c c' : RateLimitModuleConfig} {order : List GoString} {data : Value}
  {raw : JsonMap} {key name : GoString}

/-- A round adds its key, if it is not "module". -/
theorem readLimit_mem (h : readLimit G raw c key = .ok c') (hname : name ∈ c'.limits) :
    name ∈ c.limits ∨ name ≠ "module".toList := by
  rw [readLimit] at h
  split at h
  next =>
    cases h
    exact .inl hname
  next hmodule =>
    split at h
    next =>
      cases h
      exact .inl hname
    next val _ =>
      split at h
      next => cases h
      next =>
        split at h
        next => cases h
        next entry _ =>
          cases h
          rcases (AList.mem_insert _).mp hname with rfl | hold
          · exact .inr hmodule
          · exact .inl hold

/-- No limit of an accepted configuration is called "module". -/
theorem module_notMem (h : unmarshalJSON G order data = .ok c) : "module".toList ∉ c.limits := by
  rw [unmarshalJSON] at h
  split at h
  next => cases h
  next raw _ =>
    have hall : ∀ (order : List GoString) (c₀ : RateLimitModuleConfig),
        "module".toList ∉ c₀.limits → order.foldlM (readLimit G raw) c₀ = .ok c →
        "module".toList ∉ c.limits := by
      intro order
      induction order with
      | nil =>
          intro c₀ h₀ hfold
          cases hfold
          exact h₀
      | cons key order ih =>
          intro c₀ h₀ hfold
          rw [List.foldlM_cons] at hfold
          cases hfirst : readLimit G raw c₀ key with
          | error err =>
              rw [hfirst] at hfold
              cases hfold
          | ok c₁ =>
              rw [hfirst] at hfold
              refine ih c₁ ?_ hfold
              intro hmem
              rcases readLimit_mem hfirst hmem with hold | hne
              · exact h₀ hold
              · exact hne rfl
    exact hall order ⟨∅⟩ (AList.notMem_empty _) h

/-- A round that always fails lets the loop fail. -/
theorem foldlM_ne_ok (hmem : key ∈ order) (hfails : ∀ c c', readLimit G raw c key ≠ .ok c') :
    order.foldlM (readLimit G raw) c ≠ .ok c' := by
  induction order generalizing c with
  | nil => exact absurd hmem List.not_mem_nil
  | cons first order ih =>
      rw [List.foldlM_cons]
      cases hfirst : readLimit G raw c first with
      | error err =>
          intro h
          cases h
      | ok c₁ =>
          rcases List.mem_cons.mp hmem with rfl | hrest
          · exact absurd hfirst (hfails c c₁)
          · exact ih hrest

/-! ## What was written -/

theorem throughAnyMembers_eq (members : List (List Char × Value)) :
    throughAnyMembers G members = members.map fun member => (member.1, throughAny G member.2) := by
  induction members with
  | nil => rfl
  | cons member members ih =>
      obtain ⟨key, value⟩ := member
      rw [throughAnyMembers, ih]
      rfl

/-- A map that is read from members with different keys has each of them. -/
theorem lookup_unmarshalMap {members : List (List Char × Value)} {value : Value}
    (hnodup : (members.map Prod.fst).Nodup) (hmem : (key, value) ∈ members) :
    ∃ raw, unmarshalMap (.object members) = some raw ∧ raw.lookup key = some value := by
  refine ⟨_, rfl, ?_⟩
  have hkeep : ∀ (members : List (List Char × Value)) (raw : JsonMap),
      key ∉ members.map Prod.fst →
      (members.foldl (fun raw member => raw.insert member.1 member.2) raw).lookup key =
        raw.lookup key := by
    intro members
    induction members with
    | nil => exact fun raw _ => rfl
    | cons member members ih =>
        intro raw hnot
        rw [List.map_cons, List.mem_cons, not_or] at hnot
        rw [List.foldl_cons, ih _ hnot.2, AList.lookup_insert_ne hnot.1]
  have hall : ∀ (members : List (List Char × Value)) (raw : JsonMap),
      (members.map Prod.fst).Nodup → (key, value) ∈ members →
      (members.foldl (fun raw member => raw.insert member.1 member.2) raw).lookup key =
        some value := by
    intro members
    induction members with
    | nil => exact fun raw _ hmem => absurd hmem List.not_mem_nil
    | cons member members ih =>
        intro raw hnodup hmem
        rw [List.map_cons, List.nodup_cons] at hnodup
        rcases List.mem_cons.mp hmem with rfl | hrest
        · rw [List.foldl_cons, hkeep members _ hnodup.1, AList.lookup_insert]
        · exact ih _ hnodup.2 hrest
  exact hall members ∅ hnodup hmem

/-- The serialized entries: the duration of each is a number. -/
theorem unmarshalEntry_marshalFields (entry : RateLimitEntry) :
    unmarshalEntry G (throughAny G (marshalEntry G false entry)) =
      .error (.expectedDurationString "duration".toList) := by
  have hkeys : ((([("max".toList, marshalInt entry.max),
      ("duration".toList, marshalInt entry.duration)] ++ costMember entry.cost).map
        fun member => (member.1, throughAny G member.2)).map Prod.fst).Nodup := by
    rw [costMember]
    split
    · show ["max".toList, "duration".toList].Nodup
      decide
    · show ["max".toList, "duration".toList, "cost".toList].Nodup
      decide
  have hmem : ("duration".toList, throughAny G (marshalInt entry.duration)) ∈
      ([("max".toList, marshalInt entry.max), ("duration".toList, marshalInt entry.duration)] ++
        costMember entry.cost).map fun member => (member.1, throughAny G member.2) :=
    List.mem_map.mpr ⟨("duration".toList, marshalInt entry.duration), by simp, rfl⟩
  obtain ⟨raw, hraw, hduration⟩ := lookup_unmarshalMap hkeys hmem
  have hvalue : throughAny G (marshalEntry G false entry) =
      .object (([("max".toList, marshalInt entry.max),
        ("duration".toList, marshalInt entry.duration)] ++ costMember entry.cost).map
          fun member => (member.1, throughAny G member.2)) := by
    rw [marshalEntry, if_neg Bool.false_ne_true, marshalFields, throughAny, throughAnyMembers_eq]
  rw [unmarshalEntry, hvalue, hraw]
  show (durationField G raw "duration".toList >>= _) = _
  rw [durationField, hduration, marshalInt, throughAny]
  rfl

/-- The members of what is saved. -/
def savedMembers (G : GoText) (c : RateLimitModuleConfig) : List (List Char × Value) :=
  (((c.limits.entries.map fun entry => (entry.1, marshalEntry G false entry.2)).insertionSort
    fun member other => member.1 ≤ other.1).map fun member => (member.1, throughAny G member.2))

theorem serializeModuleConfig_eq (c : RateLimitModuleConfig) :
    serializeModuleConfig G c =
      .object (((savedMembers G c).filter fun member => member.1 ≠ "module".toList) ++
        [("module".toList, .string "rateLimit".toList)]) := by
  rw [serializeModuleConfig, marshalJSON, throughAny, throughAnyMembers_eq, setModule, savedMembers]

theorem nodup_saved (c : RateLimitModuleConfig) :
    ((((savedMembers G c).filter fun member => member.1 ≠ "module".toList) ++
      [("module".toList, Value.string "rateLimit".toList)]).map Prod.fst).Nodup := by
  have hkeys : ((savedMembers G c).map Prod.fst).Nodup := by
    rw [savedMembers, List.map_map]
    have hperm := List.perm_insertionSort
      (fun member other : List Char × Value => member.1 ≤ other.1)
      (c.limits.entries.map fun entry => (entry.1, marshalEntry G false entry.2))
    refine (hperm.map _).nodup_iff.mpr ?_
    rw [List.map_map]
    exact c.limits.nodupKeys
  rw [List.map_append, List.nodup_append]
  refine ⟨?_, List.nodup_singleton _, ?_⟩
  · exact hkeys.sublist (List.Sublist.map _ List.filter_sublist)
  · rintro key hkey other hother rfl
    obtain ⟨member, hmember, rfl⟩ := List.mem_map.mp hkey
    have hne := (List.mem_filter.mp hmember).2
    rw [decide_eq_true_eq] at hne
    exact hne (List.mem_singleton.mp hother)

/-- The entry of a limit as it is saved. -/
theorem mem_saved (hmodule : "module".toList ∉ c.limits) {entry : RateLimitEntry}
    (hentry : (⟨key, entry⟩ : Σ _ : GoString, RateLimitEntry) ∈ c.limits.entries) :
    key ≠ "module".toList ∧ (key, throughAny G (marshalEntry G false entry)) ∈
      ((savedMembers G c).filter fun member => member.1 ≠ "module".toList) ++
        [("module".toList, Value.string "rateLimit".toList)] := by
  have hne : key ≠ "module".toList := by
    rintro rfl
    exact hmodule (AList.mem_keys.mpr (List.mem_map.mpr ⟨_, hentry, rfl⟩))
  refine ⟨hne, List.mem_append_left _ (List.mem_filter.mpr ⟨?_, by simpa using hne⟩)⟩
  refine List.mem_map.mpr ⟨(key, marshalEntry G false entry), ?_, rfl⟩
  exact (List.mem_insertionSort _).mpr (List.mem_map.mpr ⟨⟨key, entry⟩, hentry, rfl⟩)

/-- A saved configuration is read back exactly if it has no limits. -/
theorem serialized_config_iff (G : GoText) {order order' : List GoString} {data : Value}
    {c : RateLimitModuleConfig} (haccepted : unmarshalJSON G order data = .ok c)
    (hiterates : Iterates order' (serializeModuleConfig G c)) :
    (∃ c', unmarshalJSON G order' (serializeModuleConfig G c) = .ok c' ∧ c'.Same c) ↔
      c.limits.entries = [] := by
  constructor
  · rintro ⟨c', hread, -⟩
    cases hentries : c.limits.entries with
    | nil => rfl
    | cons first rest =>
        obtain ⟨key, entry⟩ := first
        have hfirst : (⟨key, entry⟩ : Σ _ : GoString, RateLimitEntry) ∈ c.limits.entries := by
          rw [hentries]
          exact List.mem_cons_self
        obtain ⟨hne, hmem⟩ := mem_saved (G := G) (module_notMem haccepted) hfirst
        obtain ⟨raw, hraw, hlookup⟩ := lookup_unmarshalMap (nodup_saved c) hmem
        rw [← serializeModuleConfig_eq] at hraw
        rw [unmarshalJSON, hraw] at hread
        have hkey : key ∈ order' := (hiterates raw hraw).mem_iff.mpr
          (AList.mem_keys.mp (AList.lookup_isSome.mp (Option.isSome_of_mem hlookup)))
        refine absurd hread (foldlM_ne_ok hkey ?_)
        intro c₁ c₂ h
        rw [readLimit, if_neg hne, hlookup] at h
        simp only [unmarshalEntry_marshalFields] at h
        cases h
  · intro hnil
    have hsaved : serializeModuleConfig G c =
        .object [("module".toList, .string "rateLimit".toList)] := by
      rw [serializeModuleConfig_eq, savedMembers, hnil]
      rfl
    rw [hsaved] at hiterates ⊢
    have horder : order' = ["module".toList] := by
      have hperm := hiterates _ rfl
      exact List.perm_singleton.mp hperm
    subst horder
    refine ⟨⟨∅⟩, rfl, ?_⟩
    intro name
    have hempty : c.limits = ∅ := AList.ext hnil
    rw [hempty]

/-! ## A limit of three sites a day -/

/-- Numbers that are digits, and the duration of a day. -/
def dayText : GoText where
  toInt64 text := ((text.map fun c => c.toNat - 48).foldl (fun n d => 10 * n + d) 0 : ℕ)
  rewrite := id
  parseDuration text := if text = "24h".toList then some (86400 * 10 ^ 9) else none
  durationString _ := "24h0m0s".toList

def noLimits : Value := .object [("module".toList, .string "rateLimit".toList)]

theorem serialized_config_iff_noLimits :
    ∃ c, unmarshalJSON dayText ["module".toList] noLimits = .ok c ∧
      ∃ c', unmarshalJSON dayText ["module".toList] (serializeModuleConfig dayText c) = .ok c' ∧
        c'.Same c := by
  have hsaved : serializeModuleConfig dayText ⟨∅⟩ =
      .object [("module".toList, .string "rateLimit".toList)] := by
    rw [serializeModuleConfig_eq]
    rfl
  have haccepted : unmarshalJSON dayText ["module".toList] noLimits = .ok ⟨∅⟩ := rfl
  refine ⟨⟨∅⟩, haccepted, (serialized_config_iff dayText haccepted ?_).mpr rfl⟩
  rw [hsaved]
  intro raw hraw
  cases hraw
  exact List.Perm.refl _

/-- `{"siteCreation": {"max": 3, "duration": "24h"}}` -/
def siteLimit : Value :=
  .object [("siteCreation".toList, .object [("max".toList, .number ['3']),
    ("duration".toList, .string "24h".toList)])]

/-- Three sites a day are accepted, and saved in a form that is not. -/
theorem serialized_config_fails :
    ∃ c, unmarshalJSON dayText ["siteCreation".toList] siteLimit = .ok c ∧
      unmarshalJSON dayText ["siteCreation".toList, "module".toList]
        (serializeModuleConfig dayText c) =
          .error (.invalidEntry "siteCreation".toList
            (.expectedDurationString "duration".toList)) := by
  refine ⟨⟨AList.singleton "siteCreation".toList ⟨3, 86400 * 10 ^ 9, 0, by decide, by decide⟩⟩,
    rfl, ?_⟩
  rfl

end SavedConfig

end Grits
